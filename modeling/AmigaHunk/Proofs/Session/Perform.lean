import AmigaHunk.Session.Request

/-! Actions of a session on a file system that does not change meanwhile. -/
namespace AmigaHunk

/-- A new entry in front of an association list hides none. -/
theorem lookup_cons_eq_some_iff {α β : Type} [BEq α] [LawfulBEq α] {a a' : α} {b b' : β}
    {xs : List (α × β)} (h : xs.lookup a = none) :
    ((a, b) :: xs).lookup a' = some b' ↔ xs.lookup a' = some b' ∨ (a = a' ∧ b = b') := by
  by_cases he : a' = a
  · subst he
    rw [List.lookup_cons_self, h, Option.some.injEq]
    simp
  · rw [List.lookup_cons, beq_eq_false_iff_ne.2 he]
    simp [Ne.symm he]

namespace Resolver
variable {r : Resolver} {name : String}

theorem run_resolve_of_lookup {path : String} (h : r.resolved.lookup name = some path) :
    (resolve name).run r = pure (path, r) := by
  unfold resolve
  simp only [StateT.run_bind, StateT.run_get, pure_bind, h]
  rfl

theorem run_resolve_of_not_lookup (h : r.resolved.lookup name = none) :
    (resolve name).run r = r.config.resolve name >>= fun path =>
      pure (path, { r with resolved := (name, path) :: r.resolved }) := by
  unfold resolve
  simp only [StateT.run_bind, StateT.run_get, pure_bind, h, StateT.run_monadLift, bind_assoc]
  rfl

end Resolver

namespace Session
variable {α β : Type}

/-- What an action answers, and the session that it leaves. -/
def perform (fs : FileSystem) (act : Action α) (s : Session) : α × Session :=
  ((act.run s).run fs).value

variable (fs : FileSystem) (s : Session)

theorem perform_pure (a : α) : perform fs (pure a) s = (a, s) := rfl

theorem perform_get : perform fs get s = (s, s) := rfl

theorem perform_lift (q : Query α) : perform fs (liftM q) s = ((q.run fs).value, s) := by
  change ((q >>= fun a => pure (a, s)).run fs).value = _
  rw [Query.run_bind]
  rfl

theorem perform_bind (act : Action α) (f : α → Action β) : perform fs (act >>= f) s =
    perform fs (f (perform fs act s).1) (perform fs act s).2 := by
  rw [perform, StateT.run_bind, Query.run_bind]
  rfl

theorem perform_map (f : α → β) (act : Action α) :
    perform fs (f <$> act) s = (f (perform fs act s).1, (perform fs act s).2) := by
  rw [map_eq_pure_bind, perform_bind, perform_pure]

theorem perform_forM_warn (ws : List Warning) :
    perform fs (ws.forM fun w => (Query.warn w : Action Unit)) s = ((), s) := by
  induction ws with
  | nil => rfl
  | cons w ws ih =>
    rw [List.forM_eq_forM, List.forM_cons, perform_bind, perform_lift]
    exact ih

/-- An action on a part of the session has its own trace, with the session around the part. -/
theorem run_within {σ : Type} (part : Session → σ) (update : Session → σ → Session)
    (act : StateT σ Query α) :
    ((do
      let s ← get
      let (a, p) ← act.run (part s)
      set (update s p)
      return a : Action α).run s).run fs =
    let trace := (act.run (part s)).run fs
    ⟨(trace.value.1, update s trace.value.2), trace.calls, trace.events⟩ := by
  change ((act.run (part s) >>= fun p => pure (p, s)) >>= _).run fs = _
  rw [bind_assoc, Query.run_bind, Trace.after]
  change Trace.mk _ (_ ++ []) (_ ++ []) = _
  rw [List.append_nil, List.append_nil]
  rfl

theorem run_withResolver (act : StateT Resolver Query α) : ((withResolver act).run s).run fs =
    let trace := (act.run s.resolver).run fs
    ⟨(trace.value.1, { s with resolver := trace.value.2 }), trace.calls, trace.events⟩ :=
  run_within fs s resolver (fun s r => { s with resolver := r }) act

theorem run_withTexts (act : StateT TextCache Query α) : ((withTexts act).run s).run fs =
    let trace := (act.run s.texts).run fs
    ⟨(trace.value.1, { s with texts := trace.value.2 }), trace.calls, trace.events⟩ :=
  run_within fs s texts (fun s t => { s with texts := t }) act

theorem perform_withResolver (act : StateT Resolver Query α) :
    perform fs (withResolver act) s = (((act.run s.resolver).run fs).value.1,
      { s with resolver := ((act.run s.resolver).run fs).value.2 }) := by
  rw [perform, run_withResolver]

theorem perform_withTexts (act : StateT TextCache Query α) :
    perform fs (withTexts act) s = (((act.run s.texts).run fs).value.1,
      { s with texts := ((act.run s.texts).run fs).value.2 }) := by
  rw [perform, run_withTexts]

/-- A name that has been looked for is found again, on any file system. -/
theorem perform_resolveName_of_lookup {s : Session} {name path : String}
    (h : s.resolver.resolved.lookup name = some path) :
    perform fs (resolveName name) s = (path, s) := by
  rw [resolveName, perform_withResolver, Resolver.run_resolve_of_lookup h]
  rfl

theorem perform_resolveName_of_not_lookup {s : Session} {name : String}
    (h : s.resolver.resolved.lookup name = none) :
    perform fs (resolveName name) s = (((s.resolver.config.resolve name).run fs).value,
      { s with resolver := { s.resolver with resolved :=
        (name, ((s.resolver.config.resolve name).run fs).value) :: s.resolver.resolved } }) := by
  rw [resolveName, perform_withResolver, Resolver.run_resolve_of_not_lookup h, Query.run_bind]
  rfl

theorem lookup_perform_resolveName (name : String) :
    (perform fs (resolveName name) s).2.resolver.resolved.lookup name =
      some (perform fs (resolveName name) s).1 := by
  cases h : s.resolver.resolved.lookup name with
  | some path => rw [perform_resolveName_of_lookup fs h, h]
  | none =>
    rw [perform_resolveName_of_not_lookup fs h]
    exact List.lookup_cons_self

end Session
end AmigaHunk
