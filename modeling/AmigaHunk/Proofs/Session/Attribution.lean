import AmigaHunk.Proofs.File.WellFormed
import AmigaHunk.Proofs.Session.Answers
import AmigaHunk.Proofs.Session.LineAddress

/-! Which segments and which addresses belong to a file, as all questions about files see it. -/
namespace AmigaHunk

theorem pairwise_zipIdx {α : Type} (xs : List α) : xs.zipIdx.Pairwise (·.2 < ·.2) := by
  have h : (xs.zipIdx.map Prod.snd).Pairwise (· < ·) := by
    rw [List.zipIdx_map_snd]
    exact List.pairwise_lt_range' 1
  exact List.pairwise_map.1 h

/-- A search in a list with numbers answers at the least number at which there is an answer. -/
theorem exists_of_findSome?_zipIdx {α β : Type} {f : α × Nat → Option β} {xs : List α} {b : β}
    (h : xs.zipIdx.findSome? f = some b) : ∃ x i, xs[i]? = some x ∧ f (x, i) = some b ∧
      ∀ y j, xs[j]? = some y → (f (y, j)).isSome = true → i ≤ j := by
  obtain ⟨front, p, rest, hsplit, hp, hfront⟩ := List.findSome?_eq_some_iff.1 h
  have hpairwise := pairwise_zipIdx xs
  rw [hsplit, List.pairwise_append, List.pairwise_cons] at hpairwise
  have hmem : p ∈ xs.zipIdx := by simp [hsplit]
  refine ⟨p.1, p.2, List.mem_zipIdx_iff_getElem?.1 hmem, hp, fun y j hy hsome => ?_⟩
  have hpair : (y, j) ∈ xs.zipIdx := List.mem_zipIdx_iff_getElem?.2 hy
  rw [hsplit, List.mem_append, List.mem_cons] at hpair
  -- In front of the answer nothing answers, and behind it the numbers are greater.
  obtain hpair | rfl | hpair := hpair
  · rw [hfront _ hpair] at hsome
    cases hsome
  · exact Nat.le_refl _
  · exact Nat.le_of_lt (hpairwise.2.1.1 _ hpair)

theorem filter_flatMap_of_forall {α β : Type} {f : α → List β} {p : α → Bool} {q : β → Bool}
    {xs : List α} (h : ∀ x ∈ xs, ∀ y ∈ f x, q y = p x) :
    (xs.flatMap f).filter q = (xs.filter p).flatMap f := by
  induction xs with
  | nil => rfl
  | cons x xs ih =>
    obtain ⟨hx, hxs⟩ := List.forall_mem_cons.1 h
    rw [List.flatMap_cons, List.filter_append, ih hxs]
    cases hp : p x with
    | true =>
      have hall : (f x).filter q = f x := List.filter_eq_self.2 fun y hy => (hx y hy).trans hp
      rw [hall, List.filter_cons_of_pos hp, List.flatMap_cons]
    | false =>
      have hnone : (f x).filter q = [] := List.filter_eq_nil_iff.2 fun y hy => by simp [hx y hy, hp]
      rw [hnone, List.nil_append, List.filter_cons_of_neg (by simp [hp])]

/-- The least offset of a line is the one of its first entry, if the entries are by offset. -/
theorem LineTable.offset_le_of_offsetOf {t : LineTable} {line offset : UInt32}
    (hsorted : t.entries.Pairwise (·.offset ≤ ·.offset)) (h : t.offsetOf line = some offset) :
    ∀ e ∈ t.entries, e.line = line → offset ≤ e.offset := by
  intro e he hline
  obtain ⟨first, hfirst, rfl⟩ := Option.map_eq_some_iff.1 h
  obtain ⟨-, front, rest, hsplit, hfront⟩ := List.find?_eq_some_iff_append.1 hfirst
  rw [hsplit, List.pairwise_append, List.pairwise_cons] at hsorted
  rw [hsplit, List.mem_append, List.mem_cons] at he
  obtain he | rfl | he := he
  · have hother := hfront e he
    simp [hline] at hother
  · exact UInt32.le_refl _
  · exact hsorted.2.1.1 e he

namespace PathConfig
variable (config : PathConfig) (fs : FileSystem)

/-- A table for the file records the line. -/
def Records (wanted : String) (line : UInt32) (t : LineTable) : Prop :=
  config.isAt fs wanted t = true ∧ ∃ e ∈ t.entries, e.line = line

variable {config fs} {wanted : String} {line : UInt32} {hunks : List Hunk}

theorem mem_segmentsAt {i : Nat} : i ∈ config.segmentsAt fs wanted hunks ↔
    ∃ h, hunks[i]? = some h ∧ ∃ t ∈ h.tableList, config.isAt fs wanted t = true := by
  simp only [segmentsAt, List.mem_flatMap, List.mem_replicate, ← Nat.pos_iff_ne_zero,
    List.countP_pos_iff]
  constructor
  · rintro ⟨p, hp, htable, rfl⟩
    exact ⟨p.1, List.mem_zipIdx_iff_getElem?.1 hp, htable⟩
  · rintro ⟨h, hget, htable⟩
    exact ⟨(h, i), List.mem_zipIdx_iff_getElem?.2 hget, htable, rfl⟩

theorem mem_segmentsAt_iff {i : Nat} {h : Hunk} (hget : hunks[i]? = some h) :
    i ∈ config.segmentsAt fs wanted hunks ↔
      ∃ t ∈ h.tableList, config.isAt fs wanted t = true := by
  simp [mem_segmentsAt, hget]

theorem pairwise_segmentsAt : (config.segmentsAt fs wanted hunks).Pairwise (· ≤ ·) := by
  refine List.pairwise_flatMap.2 ⟨fun p _ => ?_, (pairwise_zipIdx hunks).imp fun {p q} hpq => ?_⟩
  · exact List.pairwise_replicate.2 (.inr (Nat.le_refl p.2))
  · intro i hi j hj
    rw [List.eq_of_mem_replicate hi, List.eq_of_mem_replicate hj]
    exact Nat.le_of_lt hpq

/-- The number of the first hunk is general, as it grows in the induction. -/
theorem count_flatMap_zipIdx (count : Hunk → Nat) (k i : Nat) :
    ((hunks.zipIdx k).flatMap fun p => List.replicate (count p.1) p.2).count (k + i) =
      (hunks[i]?.map count).getD 0 := by
  induction hunks generalizing k i with
  | nil => rfl
  | cons h hunks ih =>
    rw [List.zipIdx_cons, List.flatMap_cons, List.count_append, List.count_replicate]
    cases i with
    | zero =>
      have hlater : k ∉ (hunks.zipIdx (k + 1)).flatMap fun p => List.replicate (count p.1) p.2 := by
        simp only [List.mem_flatMap, List.mem_replicate, not_exists, not_and]
        rintro p hp - rfl
        have hle := (List.mem_zipIdx hp).1
        omega
      simp [List.count_eq_zero_of_not_mem hlater]
    | succ i =>
      have hmore := ih (k + 1) i
      rw [Nat.add_right_comm] at hmore
      rw [← Nat.add_assoc, hmore, if_neg (by simp; omega)]
      simp

theorem count_segmentsAt (i : Nat) : (config.segmentsAt fs wanted hunks).count i =
    (hunks[i]?.map (·.tableList.countP (config.isAt fs wanted))).getD 0 := by
  rw [segmentsAt, ← count_flatMap_zipIdx _ 0 i, Nat.zero_add]

theorem isSome_offsetOf_iff {t : LineTable} :
    (if config.isAt fs wanted t then t.offsetOf line else none).isSome = true ↔
      config.Records fs wanted line t := by
  rw [Records]
  cases config.isAt fs wanted t with
  | false => simp
  | true =>
    simp only [if_true, true_and]
    constructor
    · intro h
      obtain ⟨offset, h⟩ := Option.isSome_iff_exists.1 h
      obtain ⟨e, he, hline, -⟩ := LineTable.exists_entry_of_offsetOf h
      exact ⟨e, he, hline⟩
    · exact LineTable.isSome_offsetOf

theorem isSome_offsetIn_iff {h : Hunk} : (config.offsetIn fs wanted line h).isSome = true ↔
    ∃ t ∈ h.tableList, config.Records fs wanted line t := by
  rw [offsetIn, List.findSome?_isSome_iff]
  simp only [isSome_offsetOf_iff]

theorem isSome_addressAt_iff : (config.addressAt fs wanted line hunks).isSome = true ↔
    ∃ h ∈ hunks, ∃ t ∈ h.tableList, config.Records fs wanted line t := by
  rw [addressAt, List.findSome?_isSome_iff]
  simp only [Option.isSome_map, isSome_offsetIn_iff]
  constructor
  · rintro ⟨p, hp, htable⟩
    exact ⟨p.1, List.mem_of_getElem? (List.mem_zipIdx_iff_getElem?.1 hp), htable⟩
  · rintro ⟨h, hmem, htable⟩
    obtain ⟨i, hi⟩ := List.mem_iff_getElem?.1 hmem
    exact ⟨(h, i), List.mem_zipIdx_iff_getElem?.2 hi, htable⟩

/-- The least offset of the line in the first table of the hunk that is for the file and records
it. -/
structure IsFirstOffset (config : PathConfig) (fs : FileSystem) (wanted : String) (line : UInt32)
    (h : Hunk) (offset : UInt32) (t : LineTable) : Prop where
  records : config.Records fs wanted line t
  first : ∃ front rest, h.tableList = front ++ t :: rest ∧
    ∀ u ∈ front, ¬config.Records fs wanted line u
  mem : ∃ e ∈ t.entries, e.line = line ∧ e.offset = offset
  least : ∀ e ∈ t.entries, e.line = line → offset ≤ e.offset

/-- The first offset of the line in the least segment that has one. -/
structure IsFirstAddress (config : PathConfig) (fs : FileSystem) (wanted : String) (line : UInt32)
    (hunks : List Hunk) (a : Address) : Prop where
  offset : ∃ h t, hunks[a.segment]? = some h ∧ config.IsFirstOffset fs wanted line h a.offset t
  least : ∀ i h, hunks[i]? = some h → (∃ t ∈ h.tableList, config.Records fs wanted line t) →
    a.segment ≤ i

theorem isFirstOffset_of_offsetIn {h : Hunk} {offset : UInt32}
    (hsorted : ∀ t ∈ h.tableList, t.entries.Pairwise (·.offset ≤ ·.offset))
    (hoffset : config.offsetIn fs wanted line h = some offset) :
    ∃ t, config.IsFirstOffset fs wanted line h offset t := by
  obtain ⟨front, t, rest, hsplit, ht, hfront⟩ := List.findSome?_eq_some_iff.1 hoffset
  have hrecords : config.Records fs wanted line t := by
    rw [← isSome_offsetOf_iff, ht]
    rfl
  rw [if_pos hrecords.1] at ht
  refine ⟨t, hrecords, ⟨front, rest, hsplit, fun u hu hrecord => ?_⟩,
    LineTable.exists_entry_of_offsetOf ht,
    LineTable.offset_le_of_offsetOf (hsorted t (by simp [hsplit])) ht⟩
  rw [← isSome_offsetOf_iff, hfront u hu] at hrecord
  cases hrecord

theorem exists_of_addressAt {a : Address} (ha : config.addressAt fs wanted line hunks = some a) :
    ∃ h, hunks[a.segment]? = some h ∧ config.offsetIn fs wanted line h = some a.offset ∧
      ∀ i h', hunks[i]? = some h' → (∃ t ∈ h'.tableList, config.Records fs wanted line t) →
        a.segment ≤ i := by
  obtain ⟨h, i, hget, hfound, hleast⟩ := exists_of_findSome?_zipIdx ha
  obtain ⟨offset, hoffset, rfl⟩ := Option.map_eq_some_iff.1 hfound
  refine ⟨h, hget, hoffset, fun j h' hget' htable => hleast h' j hget' ?_⟩
  rwa [Option.isSome_map, isSome_offsetIn_iff]

theorem isFirstAddress_of_addressAt {a : Address}
    (hsorted : ∀ h ∈ hunks, ∀ t ∈ h.tableList, t.entries.Pairwise (·.offset ≤ ·.offset))
    (ha : config.addressAt fs wanted line hunks = some a) :
    config.IsFirstAddress fs wanted line hunks a := by
  obtain ⟨h, hget, hoffset, hleast⟩ := exists_of_addressAt ha
  obtain ⟨t, ht⟩ := isFirstOffset_of_offsetIn (hsorted h (List.mem_of_getElem? hget)) hoffset
  exact ⟨⟨h, t, hget, ht⟩, hleast⟩

/-- There is an address up to a segment exactly if a table of a hunk up to there has the line. -/
theorem exists_addressAt_le_iff {segment : Nat} :
    (∃ a, config.addressAt fs wanted line hunks = some a ∧ a.segment ≤ segment) ↔
      ∃ i h, i ≤ segment ∧ hunks[i]? = some h ∧
        ∃ t ∈ h.tableList, config.Records fs wanted line t := by
  constructor
  · rintro ⟨a, ha, hle⟩
    obtain ⟨h, hget, hoffset, -⟩ := exists_of_addressAt ha
    exact ⟨a.segment, h, hle, hget, isSome_offsetIn_iff.1 (by rw [hoffset]; rfl)⟩
  · rintro ⟨i, h, hle, hget, htable⟩
    obtain ⟨a, ha⟩ := Option.isSome_iff_exists.1
      (isSome_addressAt_iff.2 ⟨h, List.mem_of_getElem? hget, htable⟩)
    obtain ⟨-, -, -, hleast⟩ := exists_of_addressAt ha
    exact ⟨a, ha, (hleast i h hget htable).trans hle⟩

end PathConfig
end AmigaHunk
