import AmigaHunk.Host.Query
import AmigaHunk.Proofs.Path.Told
import Mathlib.Data.List.Chain

/-! Normalizing a path makes each run of backslashes one slash and leaves the rest. So it acts on the
parts of a path one by one, wherever the path is cut outside of a run, and every path that is told
for a name has been through it, whatever the host answers on the way. -/
namespace AmigaHunk

namespace Path
variable {cs part : List Char} {parts : List (List Char)} {c : Char}

/-- A text cut into its runs of backslashes, each as long as can be, and what is between them. -/
structure Runs (cs : List Char) (parts : List (List Char)) : Prop where
  flatten_eq : parts.flatten = cs
  ne_nil : ∀ part ∈ parts, part ≠ []
  uniform : ∀ part ∈ parts, (∀ c ∈ part, c = '\\') ∨ '\\' ∉ part
  alternate : parts.IsChain fun a b => '\\' ∈ a ↔ '\\' ∉ b

theorem Runs.singleton (c : Char) : Runs [c] [[c]] where
  flatten_eq := rfl
  ne_nil := by simp
  uniform := by
    simp only [List.mem_singleton, forall_eq]
    exact (eq_or_ne c '\\').imp_right Ne.symm
  alternate := .singleton _

/-- A character of the kind of the first part belongs to it. -/
theorem Runs.cons_part (h : Runs cs (part :: parts)) (hc : c = '\\' ↔ '\\' ∈ part) :
    Runs (c :: cs) ((c :: part) :: parts) where
  flatten_eq := congrArg (c :: ·) h.flatten_eq
  ne_nil := List.forall_mem_cons.2 ⟨List.cons_ne_nil c part, (List.forall_mem_cons.1 h.ne_nil).2⟩
  uniform := by
    have huniform := List.forall_mem_cons.1 h.uniform
    refine List.forall_mem_cons.2 ⟨?_, huniform.2⟩
    obtain hall | hnone := huniform.1
    · have hmem : '\\' ∈ part := by
        obtain ⟨d, hd⟩ := List.exists_mem_of_ne_nil part (h.ne_nil part List.mem_cons_self)
        rwa [← hall d hd]
      exact .inl (List.forall_mem_cons.2 ⟨hc.2 hmem, hall⟩)
    · exact .inr (List.not_mem_cons_of_ne_of_not_mem (fun he => hnone (hc.1 he.symm)) hnone)
  alternate := by
    have halternate := h.alternate
    have hmem : '\\' ∈ c :: part ↔ '\\' ∈ part := by
      rw [List.mem_cons, or_iff_right_of_imp fun he => hc.1 he.symm]
    rw [List.isChain_cons] at halternate ⊢
    simp only [hmem]
    exact halternate

/-- A character of the other kind is a part of its own. -/
theorem Runs.cons_apart (h : Runs cs (part :: parts)) (hc : c = '\\' ↔ '\\' ∉ part) :
    Runs (c :: cs) ([c] :: part :: parts) where
  flatten_eq := congrArg (c :: ·) h.flatten_eq
  ne_nil := List.forall_mem_cons.2 ⟨List.cons_ne_nil c [], h.ne_nil⟩
  uniform := List.forall_mem_cons.2 ⟨(Runs.singleton c).uniform _ (List.mem_singleton_self _), h.uniform⟩
  alternate := by
    refine List.isChain_cons_cons.2 ⟨?_, h.alternate⟩
    rw [List.mem_singleton, ← hc]
    exact eq_comm

theorem exists_runs (cs : List Char) : ∃ parts, Runs cs parts := by
  induction cs with
  | nil => exact ⟨[], rfl, by simp, by simp, .nil⟩
  | cons c cs ih =>
    obtain ⟨parts, h⟩ := ih
    cases parts with
    | nil =>
      have hcs : [] = cs := h.flatten_eq
      rw [← hcs]
      exact ⟨[[c]], .singleton c⟩
    | cons part parts =>
      by_cases hc : c = '\\' ↔ '\\' ∈ part
      · exact ⟨_, h.cons_part hc⟩
      · exact ⟨_, h.cons_apart (by tauto)⟩

/-- Whether a run is under way behind a text, as it was in front of the text if that is empty. -/
def endsInRun : Bool → List Char → Bool
  | inRun, [] => inRun
  | _, c :: cs => endsInRun (c == '\\') cs

theorem collapse_append (inRun : Bool) (as bs : List Char) :
    collapse inRun (as ++ bs) = collapse inRun as ++ collapse (endsInRun inRun as) bs := by
  induction as generalizing inRun with
  | nil => rfl
  | cons c as ih =>
    rw [List.cons_append, collapse, collapse, endsInRun]
    by_cases hc : c = '\\'
    · rw [if_pos hc, if_pos hc, ih true, beq_iff_eq.2 hc]
      cases inRun <;> rfl
    · rw [if_neg hc, if_neg hc, ih false, beq_eq_false_iff_ne.2 hc]
      rfl

theorem endsInRun_eq_true_iff {inRun : Bool} : endsInRun inRun cs = true ↔
    cs.getLast? = some '\\' ∨ (cs = [] ∧ inRun = true) := by
  induction cs generalizing inRun with
  | nil => simp [endsInRun]
  | cons c cs ih =>
    rw [endsInRun, ih, List.getLast?_cons]
    cases hlast : cs.getLast? with
    | none => simp [List.getLast?_eq_none_iff.1 hlast]
    | some d =>
      have hne : cs ≠ [] := by
        rintro rfl
        cases hlast
      simp [hne]

/-- A run begins with its slash, unless it is under way already. -/
theorem collapse_false_of_head? (h : cs.head? = some '\\') :
    collapse false cs = '/' :: collapse true cs := by
  obtain ⟨rest, rfl⟩ := List.head?_eq_some_iff.1 h
  simp [collapse]

theorem collapse_true_of_head?_ne (h : cs.head? ≠ some '\\') :
    collapse true cs = collapse false cs := by
  cases cs with
  | nil => rfl
  | cons c cs =>
    have hc : c ≠ '\\' := fun he => h (congrArg some he)
    rw [collapse, collapse, if_neg hc, if_neg hc]

theorem collapse_true_of_forall (h : ∀ c ∈ cs, c = '\\') : collapse true cs = [] := by
  induction cs with
  | nil => rfl
  | cons c cs ih =>
    rw [List.forall_mem_cons] at h
    rw [collapse, if_pos h.1, if_pos rfl]
    exact ih h.2

/-- A run is one slash, and what is between runs stays as it is. -/
def squash (part : List Char) : List Char := if '\\' ∈ part then ['/'] else part

theorem collapse_part (hne : part ≠ []) (h : (∀ c ∈ part, c = '\\') ∨ '\\' ∉ part) :
    collapse false part = squash part := by
  rw [squash]
  split
  · rename_i hmem
    have hall := h.resolve_right (not_not_intro hmem)
    obtain ⟨c, cs, rfl⟩ := List.exists_cons_of_ne_nil hne
    have hhead : (c :: cs).head? = some '\\' := congrArg some (hall c List.mem_cons_self)
    rw [collapse_false_of_head? hhead, collapse_true_of_forall hall]
  · rename_i hmem
    exact collapse_of_not_mem hmem false

/-- No run goes on in the next part. -/
theorem Runs.head?_flatten_ne (h : Runs cs (part :: parts)) (hmem : '\\' ∈ part) :
    parts.flatten.head? ≠ some '\\' := by
  intro hhead
  cases parts with
  | nil => cases hhead
  | cons next parts =>
    have hnone : '\\' ∉ next := (List.isChain_cons_cons.1 h.alternate).1.1 hmem
    have hne : next ≠ [] := h.ne_nil next (List.mem_cons_of_mem _ List.mem_cons_self)
    obtain ⟨c, cs, rfl⟩ := List.exists_cons_of_ne_nil hne
    exact hnone (Option.some.inj hhead ▸ List.mem_cons_self)

theorem Runs.collapse_eq (h : Runs cs parts) : collapse false cs = parts.flatMap squash := by
  induction parts generalizing cs with
  | nil =>
    rw [← h.flatten_eq]
    rfl
  | cons part parts ih =>
    have hrest : Runs parts.flatten parts :=
      ⟨rfl, (List.forall_mem_cons.1 h.ne_nil).2, (List.forall_mem_cons.1 h.uniform).2,
        h.alternate.tail⟩
    have hgoes : collapse (endsInRun false part) parts.flatten = collapse false parts.flatten := by
      cases hend : endsInRun false part with
      | false => rfl
      | true =>
        have hlast := (endsInRun_eq_true_iff.1 hend).resolve_right fun hnil => by cases hnil.2
        exact collapse_true_of_head?_ne (h.head?_flatten_ne (List.mem_of_getLast? hlast))
    rw [← h.flatten_eq, List.flatten_cons, collapse_append, hgoes, ih hrest, List.flatMap_cons,
      collapse_part (h.ne_nil part List.mem_cons_self) (h.uniform part List.mem_cons_self)]

variable {p q : String}

/-- Outside of a run, a path may be cut before it is normalized. -/
theorem normalize_append (h : ¬(p.toList.getLast? = some '\\' ∧ q.toList.head? = some '\\')) :
    normalize (p ++ q) = normalize p ++ normalize q := by
  rw [normalize, String.toList_append, collapse_append, String.ofList_append]
  cases hend : endsInRun false p.toList with
  | false => rfl
  | true =>
    have hlast := (endsInRun_eq_true_iff.1 hend).resolve_right fun hnil => by cases hnil.2
    rw [collapse_true_of_head?_ne fun hhead => h ⟨hlast, hhead⟩]
    rfl

/-- Inside of a run the second part would begin with a slash of its own. -/
theorem toList_normalize_append (hp : p.toList.getLast? = some '\\')
    (hq : q.toList.head? = some '\\') :
    (normalize (p ++ q)).toList = (normalize p).toList ++ (normalize q).toList.tail := by
  have hend : endsInRun false p.toList = true := endsInRun_eq_true_iff.2 (.inl hp)
  simp only [normalize, String.toList_ofList, String.toList_append]
  rw [collapse_append, hend, collapse_false_of_head? hq, List.tail_cons]

/-- What normalizing does to a text and to the texts of which it is made, and that a path that is told
for a name has been normalized, whether it was found now or before. -/
theorem normalize_collapses :
    (∀ p, (∃ parts, Runs p.toList parts) ∧
      ∀ parts, Runs p.toList parts → (normalize p).toList = parts.flatMap squash) ∧
    (∀ p, '\\' ∉ (normalize p).toList ∧ normalize (normalize p) = normalize p) ∧
    (∀ p q, ¬(p.toList.getLast? = some '\\' ∧ q.toList.head? = some '\\') →
      normalize (p ++ q) = normalize p ++ normalize q) ∧
    (∀ p q, p.toList.getLast? = some '\\' → q.toList.head? = some '\\' →
      (normalize q).toList.head? = some '/' ∧
        (normalize (p ++ q)).toList = (normalize p).toList ++ (normalize q).toList.tail) ∧
    ∀ r r' name path, Resolver.Arises r →
      ((Resolver.resolve name).run r).MayAnswer (path, r') → normalize path = path := by
  refine ⟨fun p => ⟨exists_runs p.toList, fun parts hruns => ?_⟩,
    fun p => ⟨?_, normalize_normalize p⟩, fun p q => normalize_append,
    fun p q hp hq => ⟨?_, toList_normalize_append hp hq⟩,
    fun r r' name path hr ha => (hr.normal.of_mayAnswer ha).1⟩
  · rw [normalize, String.toList_ofList, hruns.collapse_eq]
  · rw [normalize, String.toList_ofList]
    exact not_mem_collapse false _
  · rw [normalize, String.toList_ofList, collapse_false_of_head? hq, List.head?_cons]

/-- A path that is cut outside of its runs and inside of one, and a file with a backslash in its name
that is looked for while it is there and again when it is gone. -/
theorem normalize_collapses_cut :
    let parts := ["C:".toList, "\\\\".toList, "src".toList]
    let there := Store.fileSystem [("/work/lib\\b.c", some [])]
    let gone := Store.fileSystem []
    let first := (((Resolver.resolve "lib\\b.c").run (.start ⟨[], ["/work"], []⟩)).run there).value
    let second := (((Resolver.resolve "lib\\b.c").run first.2).run gone).value
    Runs "C:\\\\src".toList parts ∧ (normalize "C:\\\\src").toList = parts.flatMap squash ∧
    normalize ("C:" ++ "\\\\src") = normalize "C:" ++ normalize "\\\\src" ∧
    (normalize ("C:\\" ++ "\\src")).toList =
      (normalize "C:\\").toList ++ (normalize "\\src").toList.tail ∧
    second.1 = "/work/lib/b.c" ∧ normalize first.1 = first.1 ∧ normalize second.1 = second.1 := by
  intro parts there gone first second
  have hruns : Runs "C:\\\\src".toList parts := ⟨by decide, by decide, by simp [parts], by decide⟩
  have hfirst : Resolver.Arises first.2 := .run (.start _) there "lib\\b.c"
  obtain ⟨hparts, -, houtside, hinside, htold⟩ := normalize_collapses
  exact ⟨hruns, (hparts _).2 parts hruns, houtside _ _ (by decide),
    (hinside _ _ (by decide) (by decide)).2, by decide +kernel,
    htold _ _ _ _ (.start _) (Query.mayAnswer_run there _),
    htold _ _ _ _ hfirst (Query.mayAnswer_run gone _)⟩

end Path
end AmigaHunk
