import AmigaHunk.LineTable.Basic

/-! Entries with one offset keep their order in a line table. -/
namespace AmigaHunk.LineTable

/-- The entries by offset, and those with one offset in the order that they had. -/
structure StablySorted (entries sorted : List LineEntry) : Prop where
  pairwise : sorted.Pairwise (·.offset ≤ ·.offset)
  filter_eq : ∀ offset, sorted.filter (·.offset = offset) = entries.filter (·.offset = offset)

theorem filter_insert (e : LineEntry) (entries : List LineEntry) (offset : UInt32) :
    (insert e entries).filter (·.offset = offset) =
      (e :: entries).filter (·.offset = offset) := by
  induction entries with
  | nil => rfl
  | cons x xs ih =>
    rw [insert]
    split
    · rfl
    · -- A smaller offset in front is another one.
      have hne : x.offset ≠ e.offset := fun h => ‹¬e.offset ≤ x.offset› (h ▸ UInt32.le_refl _)
      rw [List.filter_cons, ih]
      by_cases hx : x.offset = offset
      · have he : ¬e.offset = offset := fun he => hne (hx.trans he.symm)
        simp [hx, he]
      · simp [List.filter_cons, hx]

theorem stablySorted_sort (entries : List LineEntry) : StablySorted entries (sort entries) where
  pairwise := sort_pairwise entries
  filter_eq offset := by
    induction entries with
    | nil => rfl
    | cons e entries ih =>
      change (insert e (sort entries)).filter _ = _
      rw [filter_insert, List.filter_cons, ih, List.filter_cons]

end AmigaHunk.LineTable
