/-! Line tables: which line of a source file the code from an offset on was made from. -/
namespace AmigaHunk

structure LineEntry where
  offset : UInt32
  line : UInt32
  deriving DecidableEq, Repr

/-- The line table of one source file, under the name that the binary records. -/
structure LineTable where
  name : String
  entries : List LineEntry
  deriving DecidableEq, Repr

namespace LineTable

/-- Puts an entry in front of the first one with no smaller offset. -/
def insert (e : LineEntry) : List LineEntry → List LineEntry
  | [] => [e]
  | x :: xs => if e.offset ≤ x.offset then e :: x :: xs else x :: insert e xs

/-- The entries by offset; those with one offset stay in their order. Recorded tables come nearly
sorted, so most entries are inserted at the front. -/
def sort (entries : List LineEntry) : List LineEntry := entries.foldr insert []

def ofEntries (name : String) (entries : List LineEntry) : LineTable := ⟨name, sort entries⟩

/-- The line at `offset`: that of the first entry there; else, if some entry starts later, that of
the last entry that starts earlier, or 0 if there is none. -/
def findLine (t : LineTable) (offset : UInt32) : Option UInt32 :=
  match t.entries.find? (·.offset = offset) with
  | some e => some e.line
  | none =>
    if t.entries.any (offset < ·.offset) then
      some (((t.entries.filter (·.offset < offset)).getLast?.map (·.line)).getD 0)
    else none

/-- The offset of the first entry for `line`. -/
def offsetOf (t : LineTable) (line : UInt32) : Option UInt32 :=
  (t.entries.find? (·.line = line)).map (·.offset)

theorem insert_perm (e : LineEntry) (xs : List LineEntry) : (insert e xs).Perm (e :: xs) := by
  induction xs with
  | nil => exact .refl _
  | cons x xs ih =>
    rw [insert]
    split
    · exact .refl _
    · exact (ih.cons x).trans (.swap e x xs)

theorem sort_perm (xs : List LineEntry) : (sort xs).Perm xs := by
  induction xs with
  | nil => exact .refl _
  | cons x xs ih => exact (insert_perm x (sort xs)).trans (ih.cons x)

theorem insert_pairwise {e : LineEntry} {xs : List LineEntry}
    (h : xs.Pairwise (·.offset ≤ ·.offset)) : (insert e xs).Pairwise (·.offset ≤ ·.offset) := by
  induction xs with
  | nil => simp [insert]
  | cons x xs ih =>
    have ⟨hx, hxs⟩ := List.pairwise_cons.1 h
    rw [insert]
    split
    · refine List.pairwise_cons.2 ⟨fun y hy => ?_, h⟩
      rcases List.mem_cons.1 hy with rfl | hy
      · assumption
      · exact UInt32.le_trans ‹_› (hx y hy)
    · refine List.pairwise_cons.2 ⟨fun y hy => ?_, ih hxs⟩
      rcases List.mem_cons.1 ((insert_perm e xs).mem_iff.1 hy) with rfl | hy
      · exact UInt32.le_of_lt (UInt32.not_le.1 ‹_›)
      · exact hx y hy

theorem sort_pairwise (xs : List LineEntry) : (sort xs).Pairwise (·.offset ≤ ·.offset) := by
  induction xs with
  | nil => exact .nil
  | cons x xs ih => exact insert_pairwise ih

end LineTable
end AmigaHunk
