import Mathlib.Data.List.Basic

/-! The pieces of a list between separators. -/
namespace AmigaHunk
variable {α : Type} [BEq α]

theorem length_splitOn (a : α) (xs : List α) : (xs.splitOn a).length = xs.count a + 1 := by
  induction xs with
  | nil => simp
  | cons x xs ih =>
    rw [List.splitOn_cons_eq_if_modifyHead, List.count_cons]
    split <;> simp [ih]

theorem mem_of_mem_splitOn [LawfulBEq α] {a c : α} {xs piece : List α} (h : piece ∈ xs.splitOn a)
    (hc : c ∈ piece) : c ∈ xs ∧ c ≠ a := by
  induction xs generalizing piece with
  | nil =>
    rw [List.splitOn_nil, List.mem_singleton] at h
    rw [h] at hc
    cases hc
  | cons x xs ih =>
    have hmore {piece : List α} (hp : piece ∈ xs.splitOn a) (hc : c ∈ piece) :
        c ∈ x :: xs ∧ c ≠ a :=
      (ih hp hc).imp_left (List.mem_cons_of_mem x)
    rw [List.splitOn_cons_eq_if_modifyHead] at h
    by_cases hx : x = a
    · rw [if_pos (beq_iff_eq.2 hx)] at h
      cases h with
      | head => cases hc
      | tail _ h => exact hmore h hc
    · rw [if_neg (mt beq_iff_eq.1 hx)] at h
      cases hs : xs.splitOn a with
      | nil => exact absurd hs (List.splitOn_ne_nil a xs)
      | cons first rest =>
        rw [hs] at h hmore
        cases h with
        | head =>
          cases hc with
          | head => exact ⟨List.mem_cons_self, hx⟩
          | tail _ hc => exact hmore List.mem_cons_self hc
        | tail _ h => exact hmore (List.mem_cons_of_mem first h) hc

end AmigaHunk
