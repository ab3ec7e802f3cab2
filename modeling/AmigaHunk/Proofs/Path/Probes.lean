import AmigaHunk.Path.Resolver

/-! What looking for a source asks of the host: whether paths exist, once for every root at most,
and once more between the two kinds of roots. -/
namespace AmigaHunk

def Call.isProbe : Call → Bool
  | probe _ => true
  | read _ => false

namespace Query
variable {α β : Type} {fs : FileSystem}

theorem calls_bind (q : Query α) (f : α → Query β) :
    ((q >>= f).run fs).calls = (q.run fs).calls ++ ((f (q.run fs).value).run fs).calls := by
  rw [run_bind, Trace.after]

/-- A query that makes no more calls than so many, all of them probes. -/
structure Probes (fs : FileSystem) (n : Nat) (q : Query α) : Prop where
  isProbe : ∀ call ∈ (q.run fs).calls, call.isProbe = true
  length_le : (q.run fs).calls.length ≤ n

namespace Probes

theorem pure (a : α) : Probes fs 0 (pure a : Query α) where
  isProbe _ h := by cases h
  length_le := Nat.le_refl 0

theorem exists? (path : HostText) : Probes fs 1 (exists? path) where
  isProbe call h := by
    rw [List.mem_singleton.1 h]
    rfl
  length_le := Nat.le_refl 1

theorem bind {m n : Nat} {q : Query α} {f : α → Query β} (hq : Probes fs m q)
    (hf : ∀ a, Probes fs n (f a)) : Probes fs (m + n) (q >>= f) where
  isProbe call h := by
    rw [calls_bind] at h
    cases List.mem_append.1 h with
    | inl h => exact hq.isProbe call h
    | inr h => exact (hf _).isProbe call h
  length_le := by
    rw [calls_bind, List.length_append]
    exact Nat.add_le_add hq.length_le (hf _).length_le

theorem mono {m n : Nat} {q : Query α} (h : Probes fs m q) (hle : m ≤ n) : Probes fs n q where
  isProbe := h.isProbe
  length_le := Nat.le_trans h.length_le hle

theorem firstExisting (paths : List HostText) :
    Probes fs paths.length (firstExisting paths) := by
  induction paths with
  | nil => exact .pure none
  | cons path paths ih =>
    rw [List.length_cons, Nat.add_comm]
    refine .bind (.exists? path) fun found => ?_
    cases found with
    | true => exact (Probes.pure (some path)).mono (Nat.zero_le _)
    | false => exact ih

end Probes
end Query

namespace PathConfig
variable {fs : FileSystem}

theorem probes_locate (roots : List HostText) (path : String) :
    (locate roots path).Probes fs roots.length := by
  have h : Query.Probes fs _ (Query.firstExisting (roots.map (·.joinUnder path))) :=
    .firstExisting _
  rw [List.length_map] at h
  exact h.bind fun _ => .pure _

/-- How many probes it takes at most to find a name. -/
def probeLimit (config : PathConfig) : Nat :=
  config.workspaceRoots.length + config.sourceRoots.length + 1

theorem probes_resolve (config : PathConfig) (name : String) :
    (config.resolve name).Probes fs config.probeLimit := by
  rw [probeLimit, Nat.add_assoc]
  refine (probes_locate _ _).bind fun path => ?_
  split
  · exact (Query.Probes.pure _).mono (Nat.zero_le _)
  · rw [Nat.add_comm]
    refine (Query.Probes.exists? path).bind fun found => ?_
    cases found with
    | true => exact (Query.Probes.pure _).mono (Nat.zero_le _)
    | false => exact (probes_locate _ path).bind fun _ => .pure _

end PathConfig
end AmigaHunk
