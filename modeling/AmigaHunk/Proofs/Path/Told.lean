import AmigaHunk.Proofs.Path.Normalize
import AmigaHunk.Proofs.Session.Perform

/-! The paths that are told for names are normal. This hangs on nothing that the host answers: files
may come and go even while one name is looked for. -/
namespace AmigaHunk

namespace Query
variable {α β : Type}

/-- Whether a query can lead to a value, whatever is answered to it. -/
def MayAnswer : Query α → α → Prop
  | done a, b => b = a
  | probe _ next, b => ∃ found, (next found).MayAnswer b
  | read _ next, b => ∃ content, (next content).MayAnswer b
  | tell _ next, b => next.MayAnswer b

theorem mayAnswer_bind {q : Query α} {f : α → Query β} {b : β} :
    (q >>= f).MayAnswer b ↔ ∃ a, q.MayAnswer a ∧ (f a).MayAnswer b := by
  change (q.andThen f).MayAnswer b ↔ _
  induction q with
  | done a => simp only [andThen, MayAnswer, exists_eq_left]
  | probe path next ih | read path next ih =>
    simp only [andThen, MayAnswer, ih, ← exists_and_right]
    exact exists_comm
  | tell e next ih => exact ih

theorem mayAnswer_run (fs : FileSystem) (q : Query α) : q.MayAnswer (q.run fs).value := by
  induction q with
  | done a => rfl
  | probe path next ih => exact ⟨_, ih _⟩
  | read path next ih => exact ⟨_, ih _⟩
  | tell e next ih => exact ih

end Query

theorem PathConfig.normalize_of_mayAnswer {config : PathConfig} {name path : String}
    (h : (config.resolve name).MayAnswer path) : Path.normalize path = path := by
  have hpure {p : String} (hp : (pure (Path.normalize p) : Query String).MayAnswer path) :
      Path.normalize path = path := by
    rw [show path = Path.normalize p from hp, Path.normalize_normalize]
  rw [resolve, Query.mayAnswer_bind] at h
  obtain ⟨first, -, h⟩ := h
  split at h
  · exact hpure h
  · obtain ⟨found, -, h⟩ := Query.mayAnswer_bind.1 h
    cases found with
    | true => exact hpure h
    | false =>
      obtain ⟨second, -, h⟩ := Query.mayAnswer_bind.1 h
      exact hpure h

namespace Resolver
variable {r r' : Resolver} {name path : String}

/-- A resolver that looking for names leads to, whatever is answered on the way. -/
inductive Arises : Resolver → Prop
  | start (config : PathConfig) : Arises (start config)
  | resolve {r r' : Resolver} {name path : String} (h : Arises r)
      (ha : ((resolve name).run r).MayAnswer (path, r')) : Arises r'

theorem Arises.run (h : r.Arises) (fs : FileSystem) (name : String) :
    Arises (((Resolver.resolve name).run r).run fs).value.2 :=
  h.resolve (Query.mayAnswer_run fs _)

/-- The paths that were found are normal. -/
def Normal (r : Resolver) : Prop :=
  ∀ name path, r.resolved.lookup name = some path → Path.normalize path = path

theorem Normal.of_mayAnswer (h : r.Normal) (ha : ((resolve name).run r).MayAnswer (path, r')) :
    Path.normalize path = path ∧ r'.Normal := by
  cases hname : r.resolved.lookup name with
  | some found =>
    rw [run_resolve_of_lookup hname] at ha
    obtain ⟨rfl, rfl⟩ := Prod.mk.inj ha
    exact ⟨h name path hname, h⟩
  | none =>
    rw [run_resolve_of_not_lookup hname, Query.mayAnswer_bind] at ha
    obtain ⟨found, hfound, ha⟩ := ha
    obtain ⟨rfl, rfl⟩ := Prod.mk.inj ha
    have hnormal := PathConfig.normalize_of_mayAnswer hfound
    refine ⟨hnormal, fun other told hl => ?_⟩
    obtain hl | ⟨-, rfl⟩ := (lookup_cons_eq_some_iff hname).1 hl
    · exact h other told hl
    · exact hnormal

theorem Arises.normal (h : r.Arises) : r.Normal := by
  induction h with
  | start config => exact fun _ _ hl => by cases hl
  | resolve _ ha ih => exact (ih.of_mayAnswer ha).2

end Resolver

end AmigaHunk
