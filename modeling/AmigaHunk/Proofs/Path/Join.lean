import AmigaHunk.Proofs.Host.Text
import AmigaHunk.Proofs.Text.Split
import Mathlib.Data.List.Induction

/-! Joining puts the pieces of a path behind a root, one slash between any two of them. -/
namespace AmigaHunk.Path
variable {p q piece first : List Char} {segments : List (List Char)}

theorem isNaming_iff : isNaming piece = true ↔ piece ≠ [] ∧ piece ≠ ['.'] := by
  simp [isNaming]

/-- A dot counts as the first segment, but an empty one does not. -/
theorem pieces_of_splitOn (h : p.splitOn '/' = first :: segments) :
    pieces p = (if first = [] then [] else [first]) ++ segments.filter isNaming := by
  rw [pieces, h]
  split
  · simp_all
  · by_cases hnil : first = []
    · simp [hnil, isNaming]
    · have hdot : first ≠ ['.'] := by simp_all
      rw [List.filter_cons_of_pos (isNaming_iff.2 ⟨hnil, hdot⟩), if_neg hnil]
      rfl

theorem mem_splitOn_of_mem_pieces (h : piece ∈ pieces p) : piece ∈ p.splitOn '/' ∧ piece ≠ [] := by
  obtain ⟨first, segments, hp⟩ := List.exists_cons_of_ne_nil (List.splitOn_ne_nil '/' p)
  rw [pieces_of_splitOn hp] at h
  rw [hp]
  cases List.mem_append.1 h with
  | inl h =>
    by_cases hnil : first = [] <;> simp_all
  | inr h =>
    exact ⟨List.mem_cons_of_mem _ (List.mem_of_mem_filter h),
      (isNaming_iff.1 (List.of_mem_filter h)).1⟩

theorem head?_of_splitOn {c : Char} (h : p.splitOn '/' = (c :: first) :: segments) :
    p.head? = some c := by
  have hp : ['/'].intercalate (p.splitOn '/') = p := List.intercalate_splitOn '/'
  rw [← hp, h]
  cases segments <;> simp

/-- The segments of a path without empty ones and without dots, except for a dot at the start of a
relative path. -/
def kept (p : List Char) : List (List Char) :=
  ((p.splitOn '/').zipIdx.filter fun (segment, i) =>
    segment ≠ [] ∧ (segment = ['.'] → i = 0 ∧ p.head? ≠ some '/')).map Prod.fst

theorem pieces_eq_kept (p : List Char) : pieces p = kept p := by
  obtain ⟨first, segments, h⟩ := List.exists_cons_of_ne_nil (List.splitOn_ne_nil '/' p)
  have hlater : (segments.zipIdx 1).filter (fun (segment, i) =>
      segment ≠ [] ∧ (segment = ['.'] → i = 0 ∧ p.head? ≠ some '/')) =
        (segments.zipIdx 1).filter (isNaming ∘ Prod.fst) := by
    refine List.filter_congr fun (segment, i) hmem => ?_
    have hi : i ≠ 0 := Nat.ne_of_gt (List.le_snd_of_mem_zipIdx hmem)
    simp [isNaming, hi]
  have hfirst : first ≠ ['.'] ∨ p.head? ≠ some '/' := by
    refine or_iff_not_imp_left.2 fun hdot => ?_
    rw [not_ne_iff.1 hdot] at h
    simp [head?_of_splitOn h]
  rw [pieces_of_splitOn h, kept, h, List.zipIdx_cons, List.filter_cons, Nat.zero_add, hlater]
  by_cases hnil : first = []
  · simp [hnil, ← List.filter_map]
  · simp [hnil, hfirst, ← List.filter_map]

theorem pieces_append {p q : List Char} (h : ∀ segments, q.splitOn '/' ≠ ['.'] :: segments) :
    pieces (p ++ '/' :: q) = pieces p ++ pieces q := by
  obtain ⟨first, segments, hp⟩ := List.exists_cons_of_ne_nil (List.splitOn_ne_nil '/' p)
  have hsplit : (p ++ '/' :: q).splitOn '/' = first :: (segments ++ q.splitOn '/') := by
    rw [List.splitOn_eq_splitOnP, List.splitOnP_append_cons _ _ (by rfl),
      ← List.splitOn_eq_splitOnP, ← List.splitOn_eq_splitOnP, hp, List.cons_append]
  have hq : pieces q = (q.splitOn '/').filter isNaming := by
    rw [pieces]
    split
    · exact absurd ‹_› (h _)
    · rfl
  rw [pieces_of_splitOn hsplit, pieces_of_splitOn hp, hq, List.filter_append, List.append_assoc]

theorem splitOn_ne_dot (hdot : q ≠ ['.']) (hstart : ¬['.', '/'] <+: q) (segments : List (List Char)) :
    q.splitOn '/' ≠ ['.'] :: segments := by
  intro h
  have hq : ['/'].intercalate (q.splitOn '/') = q := List.intercalate_splitOn '/'
  rw [h] at hq
  cases segments with
  | nil => exact hdot (by simpa using hq.symm)
  | cons segment segments =>
    rw [List.intercalate_cons_cons] at hq
    exact hstart ⟨_, hq⟩

/-- The text that pieces make behind a root. In front of each stands a slash, unless the text so far
is empty or ends with one. -/
inductive Behind (root : List Char) : List (List Char) → List Char → Prop
  | root : Behind root [] root
  | direct {pieces : List (List Char)} {text : List Char} (piece : List Char)
    (front : Behind root pieces text) (h : text = [] ∨ text.getLast? = some '/') :
    Behind root (pieces ++ [piece]) (text ++ piece)
  | slash {pieces : List (List Char)} {text : List Char} (piece : List Char)
    (front : Behind root pieces text) (h : ¬(text = [] ∨ text.getLast? = some '/')) :
    Behind root (pieces ++ [piece]) (text ++ '/' :: piece)

theorem behind_foldl_push (root : List Char) (pieces : List (List Char)) :
    Behind root pieces (pieces.foldl (push '/') root) := by
  induction pieces using List.reverseRecOn with
  | nil => exact .root
  | append_singleton pieces piece ih =>
    rw [List.foldl_append, List.foldl_cons, List.foldl_nil, push]
    split
    · exact ih.direct piece ‹_›
    · exact ih.slash piece ‹_›

/-- What joining puts between the root and the first piece. -/
def seam (root : List Char) (pieces : List (List Char)) : List Char :=
  if pieces = [] ∨ root = [] ∨ root.getLast? = some '/' then [] else ['/']

/-- No text ends with a slash behind the first piece, so all others have one in front of them. -/
theorem foldl_push_eq {pieces : List (List Char)} (h : ∀ piece ∈ pieces, piece ≠ [] ∧ '/' ∉ piece)
    (root : List Char) :
    pieces.foldl (push '/') root = root ++ (seam root pieces ++ ['/'].intercalate pieces) := by
  induction pieces generalizing root with
  | nil => simp [seam]
  | cons piece pieces ih =>
    obtain ⟨hpiece, hpieces⟩ := List.forall_mem_cons.1 h
    have hpush : push '/' root piece = root ++ (seam root (piece :: pieces) ++ piece) := by
      simp only [push, seam, List.cons_ne_nil, false_or]
      split <;> simp
    have hne : push '/' root piece ≠ [] := by simp [hpush, hpiece.1]
    have hlast : (push '/' root piece).getLast? ≠ some '/' := by
      rw [hpush, ← List.append_assoc, List.getLast?_append_of_ne_nil _ hpiece.1]
      exact fun hslash => hpiece.2 (List.mem_of_getLast? hslash)
    have hseam : seam (push '/' root piece) pieces = if pieces = [] then [] else ['/'] := by
      simp [seam, hne, hlast]
    rw [List.foldl_cons, ih hpieces, hseam, hpush]
    cases pieces <;> simp [List.intercalate_cons_cons]

theorem forall_mem_pieces (p : List Char) : ∀ piece ∈ pieces p, piece ≠ [] ∧ '/' ∉ piece := by
  intro piece hmem
  obtain ⟨hsegment, hne⟩ := mem_splitOn_of_mem_pieces hmem
  exact ⟨hne, fun hslash => (mem_of_mem_splitOn hsegment hslash).2 rfl⟩

theorem toList_joinUnder (root p : String) : (joinUnder root p).toList =
    root.toList ++ (seam root.toList (pieces p.toList) ++ ['/'].intercalate (pieces p.toList)) := by
  rw [joinUnder_eq, String.toList_ofList, foldl_push_eq (forall_mem_pieces _)]

theorem mem_intercalate {c x : Char} (h : c ∈ [x].intercalate segments) :
    c = x ∨ ∃ segment ∈ segments, c ∈ segment := by
  induction segments with
  | nil => simp at h
  | cons segment segments ih =>
    cases segments with
    | nil => exact .inr ⟨segment, List.mem_cons_self, by simpa using h⟩
    | cons next segments =>
      simp only [List.intercalate_cons_cons, List.mem_append, List.mem_singleton] at h
      obtain (hc | hc) | hc := h
      · exact .inr ⟨segment, List.mem_cons_self, hc⟩
      · exact .inl hc
      · exact (ih hc).imp_right fun ⟨s, hs, hc⟩ => ⟨s, List.mem_cons_of_mem _ hs, hc⟩

/-- Joining puts slashes between the pieces, and no other character. -/
theorem mem_joinUnder {c : Char} {root p : String} (h : c ∈ (joinUnder root p).toList) :
    c = '/' ∨ c ∈ root.toList ∨ c ∈ p.toList := by
  rw [toList_joinUnder, seam] at h
  obtain hc | hc := List.mem_append.1 h
  · exact .inr (.inl hc)
  obtain hc | hc := List.mem_append.1 hc
  · split at hc <;> simp_all
  obtain hc | ⟨piece, hpiece, hc⟩ := mem_intercalate hc
  · exact .inl hc
  · have hsegment := (mem_splitOn_of_mem_pieces hpiece).1
    exact .inr (.inr (mem_of_mem_splitOn hsegment hc).1)

theorem joinUnder_joinUnder {root p q : String} (hdot : q ≠ ".") (hstart : ¬['.', '/'] <+: q.toList) :
    joinUnder (joinUnder root p) q = joinUnder root (p ++ "/" ++ q) := by
  have hq := splitOn_ne_dot (by rwa [← String.toList_inj.ne] at hdot) hstart
  have hslash : (p ++ "/" ++ q).toList = p.toList ++ '/' :: q.toList := by simp
  rw [joinUnder_eq, joinUnder_eq, joinUnder_eq, String.toList_ofList, hslash, pieces_append hq,
    List.foldl_append]

theorem joinUnder_pieces :
    (∀ root p : String,
      Behind root.toList (kept p.toList) (joinUnder root p).toList ∧
      (joinUnder root p).toList = root.toList ++
        (seam root.toList (kept p.toList) ++ ['/'].intercalate (kept p.toList)) ∧
      root.toList <+: (joinUnder root p).toList ∧
      (kept p.toList = [] → joinUnder root p = root)) ∧
    ∀ root p q : String, q ≠ "." → ¬['.', '/'] <+: q.toList →
      joinUnder (joinUnder root p) q = joinUnder root (p ++ "/" ++ q) := by
  refine ⟨fun root p => ?_, fun root p q => joinUnder_joinUnder⟩
  have hjoin := toList_joinUnder root p
  rw [pieces_eq_kept] at hjoin
  refine ⟨?_, hjoin, ?_, fun hnil => ?_⟩
  · rw [joinUnder_eq, String.toList_ofList, ← pieces_eq_kept]
    exact behind_foldl_push _ _
  · rw [hjoin]
    exact List.prefix_append _ _
  · rw [← String.toList_inj, hjoin, hnil]
    simp [seam]

theorem joinUnder_pieces_dotted :
    let p := "./src//x/../."
    "/y.s" ≠ "." ∧ ¬['.', '/'] <+: "/y.s".toList ∧
    joinUnder "/ws" p = "/ws/./src/x/.." ∧
    joinUnder (joinUnder "/ws" p) "/y.s" = joinUnder "/ws" (p ++ "/" ++ "/y.s") := by
  have hdot : "/y.s" ≠ "." := by decide
  have hstart : ¬['.', '/'] <+: "/y.s".toList := by decide
  exact ⟨hdot, hstart, by decide +kernel, joinUnder_pieces.2 _ _ _ hdot hstart⟩

/-- A dot at the start of the second path is kept where it is joined, and dropped in between. -/
example : joinUnder (joinUnder "/ws" "a") "./b" = "/ws/a/./b" ∧
    joinUnder "/ws" ("a" ++ "/" ++ "./b") = "/ws/a/b" := by
  decide +kernel

end AmigaHunk.Path
