import AmigaHunk.Proofs.Host.Text
import AmigaHunk.Proofs.Path.Normalize

/-! The names on the way that a path describes. Putting a path under a root puts the names of the
root in front of its own, and leaves its last name as it is. -/
namespace AmigaHunk.Path

/-- The segments of a path that name something, from the first to the last. -/
def names (p : String) : List (List Char) := (p.toList.splitOn '/').filter isNaming

theorem lastName?_eq (p : String) : lastName? p = (names p).getLast?.filter (· ≠ ['.', '.']) := rfl

/-- What separates the names of a path that is still to be normalized. -/
def isSeparator (c : Char) : Bool := c == '/' || c == '\\'

/-- The names of a path that is still to be normalized. -/
def steps (cs : List Char) : List (List Char) := (cs.splitOnP isSeparator).filter isNaming

theorem steps_append_cons {c : Char} (hc : isSeparator c = true) (xs ys : List Char) :
    steps (xs ++ c :: ys) = steps xs ++ steps ys := by
  rw [steps, List.splitOnP_append_cons xs ys hc, List.filter_append]
  rfl

/-- The segment under way is `acc` backwards, and it is empty inside a run of backslashes. -/
theorem splitOnPPrepend_collapse (inRun : Bool) (cs acc : List Char) (h : inRun = true → acc = []) :
    ((collapse inRun cs).splitOnPPrepend (· == '/') acc).filter isNaming =
      (cs.splitOnPPrepend isSeparator acc).filter isNaming := by
  induction cs generalizing inRun acc with
  | nil => rfl
  | cons c cs ih =>
    by_cases hback : c = '\\'
    · have hmore := ih true [] fun _ => rfl
      subst hback
      rw [collapse, if_pos rfl, List.splitOnPPrepend_cons_pos (p := isSeparator) rfl]
      cases inRun with
      | true =>
        -- The run is one slash already, so here only an empty segment ends, which names nothing.
        rw [h rfl]
        exact hmore
      | false =>
        simp only [Bool.false_eq_true, if_false]
        rw [List.splitOnPPrepend_cons_pos (by rfl), List.filter_cons, List.filter_cons]
        simp only [List.splitOnP_eq_splitOnPPrepend, hmore]
    · rw [collapse, if_neg hback]
      by_cases hslash : c = '/'
      · have hmore := ih false [] fun _ => rfl
        subst hslash
        rw [List.splitOnPPrepend_cons_pos (by rfl), List.splitOnPPrepend_cons_pos (by rfl),
          List.filter_cons, List.filter_cons]
        simp only [List.splitOnP_eq_splitOnPPrepend, hmore]
      · have hsep : isSeparator c = false := by simp [isSeparator, hslash, hback]
        rw [List.splitOnPPrepend_cons_neg (by simpa using hslash),
          List.splitOnPPrepend_cons_neg hsep]
        exact ih false (c :: acc) fun hfalse => by cases hfalse

theorem names_normalize (p : String) : names (normalize p) = steps p.toList := by
  rw [names, normalize, String.toList_ofList, List.splitOn_eq_splitOnP,
    List.splitOnP_eq_splitOnPPrepend, steps, List.splitOnP_eq_splitOnPPrepend]
  exact splitOnPPrepend_collapse false p.toList [] fun _ => rfl

theorem steps_push (text piece : List Char) : steps (push '/' text piece) = steps text ++ steps piece := by
  rw [push]
  split
  · rename_i h
    obtain rfl | hslash := h
    · rfl
    · obtain ⟨front, rfl⟩ := List.getLast?_eq_some_iff.1 hslash
      have hfront : steps (front ++ ['/']) = steps front ++ [] := steps_append_cons rfl front []
      rw [hfront, List.append_nil, List.append_assoc]
      exact steps_append_cons rfl front piece
  · exact steps_append_cons rfl text piece

theorem steps_foldl_push (text : List Char) (pieces : List (List Char)) :
    steps (pieces.foldl (push '/') text) = steps text ++ pieces.flatMap steps := by
  induction pieces generalizing text with
  | nil => simp
  | cons piece pieces ih =>
    rw [List.foldl_cons, ih, steps_push, List.flatMap_cons, List.append_assoc]

theorem steps_intercalate (segments : List (List Char)) :
    steps (['/'].intercalate segments) = segments.flatMap steps := by
  induction segments with
  | nil => rfl
  | cons segment segments ih =>
    cases segments with
    | nil => simp
    | cons next segments =>
      rw [List.intercalate_cons_cons, List.flatMap_cons, ← ih, List.append_assoc]
      exact steps_append_cons rfl segment _

theorem steps_of_not_isNaming {segment : List Char} (h : isNaming segment = false) :
    steps segment = [] := by
  by_cases hnil : segment = []
  · rw [hnil]
    rfl
  · have hdot : segment = ['.'] := by simpa [isNaming, hnil] using h
    rw [hdot]
    rfl

theorem flatMap_steps_filter (segments : List (List Char)) :
    (segments.filter isNaming).flatMap steps = segments.flatMap steps := by
  induction segments with
  | nil => rfl
  | cons segment segments ih =>
    cases h : isNaming segment with
    | true => rw [List.filter_cons_of_pos h, List.flatMap_cons, List.flatMap_cons, ih]
    | false =>
      rw [List.filter_cons_of_neg (by simp [h]), List.flatMap_cons, ih, steps_of_not_isNaming h]
      rfl

theorem flatMap_steps_pieces (p : List Char) : (pieces p).flatMap steps = steps p := by
  have hsegments : (p.splitOn '/').flatMap steps = steps p := by
    rw [← steps_intercalate, List.intercalate_splitOn]
  rw [← hsegments, pieces]
  split
  · rename_i segments hsplit
    rw [hsplit, List.flatMap_cons, List.flatMap_cons, flatMap_steps_filter]
  · exact flatMap_steps_filter _

theorem names_normalize_joinUnder (root p : String) :
    names (normalize (joinUnder root p)) = names (normalize root) ++ names (normalize p) := by
  rw [names_normalize, names_normalize, names_normalize, joinUnder_eq, String.toList_ofList,
    steps_foldl_push, flatMap_steps_pieces]

theorem same_comm (p q : String) : same p q = same q p := by
  rw [same, same, Bool.and_comm (isAbsolute p), Bool.beq_comm (a := p),
    Bool.beq_comm (a := lastName? p)]

/-- Paths with the same last name are the same file, unless both are absolute and differ. -/
theorem same_of_lastName? {p q : String} (hlast : lastName? p = lastName? q)
    (habsolute : isAbsolute p = true → isAbsolute q = true → p = q) : same p q = true := by
  rw [same]
  split
  · rename_i h
    obtain ⟨hp, hq⟩ := Bool.and_eq_true_iff.1 h
    rw [habsolute hp hq]
    exact beq_self_eq_true q
  · rw [hlast]
    exact beq_self_eq_true _

end AmigaHunk.Path
