import AmigaHunk.Path.Basic

/-! Normalized paths have no backslashes, and stay as they are. -/
namespace AmigaHunk.Path

theorem not_mem_collapse (inRun : Bool) (cs : List Char) : '\\' ∉ collapse inRun cs := by
  induction cs generalizing inRun with
  | nil => exact List.not_mem_nil
  | cons c cs ih =>
    rw [collapse]
    by_cases hc : c = '\\'
    · have hslash : '\\' ∉ '/' :: collapse true cs := by
        intro h
        cases List.mem_cons.1 h with
        | inl h => exact absurd h (by decide)
        | inr h => exact ih true h
      rw [if_pos hc]
      cases inRun with
      | true => exact ih true
      | false => exact hslash
    · rw [if_neg hc]
      intro h
      cases List.mem_cons.1 h with
      | inl h => exact hc h.symm
      | inr h => exact ih false h

theorem collapse_of_not_mem {cs : List Char} (h : '\\' ∉ cs) (inRun : Bool) :
    collapse inRun cs = cs := by
  induction cs generalizing inRun with
  | nil => rfl
  | cons c cs ih =>
    have hc : c ≠ '\\' := fun he => h (he ▸ List.mem_cons_self)
    have hcs : '\\' ∉ cs := fun hm => h (List.mem_cons_of_mem c hm)
    rw [collapse, if_neg hc, ih hcs]

theorem normalize_normalize (p : String) : normalize (normalize p) = normalize p := by
  rw [normalize, normalize, String.toList_ofList, collapse_of_not_mem (not_mem_collapse false _)]

theorem normalize_eq_self_iff {p : String} : normalize p = p ↔ '\\' ∉ p.toList := by
  constructor
  · intro h
    rw [← h, normalize, String.toList_ofList]
    exact not_mem_collapse false _
  · intro h
    rw [normalize, collapse_of_not_mem h, String.ofList_toList]

theorem same_self (p : String) : same p p = true := by
  rw [same]
  split <;> exact beq_self_eq_true _

end AmigaHunk.Path
