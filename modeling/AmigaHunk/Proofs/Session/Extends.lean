import AmigaHunk.Proofs.Path.Told
import AmigaHunk.Proofs.Session.Questions

/-! What questions may change of a session: they add normalized paths for further names, and
texts. -/
namespace AmigaHunk

namespace Session
variable {α β : Type}

/-- The second session may come of the first by questions. -/
structure Extends (s s' : Session) : Prop where
  hunks_eq : s'.hunks = s.hunks
  config_eq : s'.resolver.config = s.resolver.config
  kept : ∀ {name path}, s.resolver.resolved.lookup name = some path →
    s'.resolver.resolved.lookup name = some path
  fresh : ∀ {name path}, s'.resolver.resolved.lookup name = some path →
    s.resolver.resolved.lookup name = some path ∨ Path.normalize path = path

namespace Extends
variable {s s' s'' : Session}

theorem refl (s : Session) : Extends s s := ⟨rfl, rfl, id, .inl⟩

theorem trans (h : Extends s s') (h' : Extends s' s'') : Extends s s'' where
  hunks_eq := h'.hunks_eq.trans h.hunks_eq
  config_eq := h'.config_eq.trans h.config_eq
  kept hl := h'.kept (h.kept hl)
  fresh hl := by
    cases h'.fresh hl with
    | inl hl => exact h.fresh hl
    | inr hn => exact .inr hn

end Extends

theorem extends_resolveName (fs : FileSystem) (name : String) (s : Session) :
    Extends s (perform fs (resolveName name) s).2 := by
  cases hn : s.resolver.resolved.lookup name with
  | some path =>
    rw [perform_resolveName_of_lookup fs hn]
    exact .refl s
  | none =>
    rw [perform_resolveName_of_not_lookup fs hn]
    refine ⟨rfl, rfl, fun {other path} hl => (lookup_cons_eq_some_iff hn).2 (.inl hl),
      fun {other path} hl => ?_⟩
    obtain hl | ⟨-, rfl⟩ := (lookup_cons_eq_some_iff hn).1 hl
    · exact .inl hl
    · exact .inr (PathConfig.normalize_of_mayAnswer (Query.mayAnswer_run fs _))

/-- What only asks, on any file system. -/
class Asks (act : Action α) : Prop where
  extends_perform : ∀ fs s, Extends s (perform fs act s).2

theorem asks_withTexts (act : StateT TextCache Query α) : Asks (withTexts act) where
  extends_perform fs s := by
    rw [perform_withTexts]
    exact ⟨rfl, rfl, id, .inl⟩

theorem asks_inquiring : Inquiring Asks where
  pure a := ⟨fun _ s => .refl s⟩
  bind hact hf := ⟨fun fs s => by
    rw [perform_bind]
    exact (hact.extends_perform fs s).trans ((hf _).extends_perform fs _)⟩
  get _ hf := ⟨fun fs s => (hf s).extends_perform fs s⟩
  resolveName name := ⟨fun fs s => extends_resolveName fs name s⟩
  textLine path index := asks_withTexts (TextCache.line path index)
  warn w := ⟨fun _ s => .refl s⟩

instance (a : α) : Asks (pure a : Action α) := asks_inquiring.pure a

instance (act : Action α) (f : α → Action β) [hact : Asks act] [hf : ∀ a, Asks (f a)] :
    Asks (act >>= f) :=
  asks_inquiring.bind hact hf

instance (p : Prop) [Decidable p] (act act' : Action α) [Asks act] [Asks act'] :
    Asks (if p then act else act') := by
  split <;> infer_instance

instance (wanted : String) (t : LineTable) : Asks (isFor wanted t) := asks_inquiring.isFor wanted t

instance (path : String) (line : UInt32) : Asks (textFor path line) :=
  asks_inquiring.textFor path line

instance (wanted : String) (line : UInt32) (h : Hunk) : Asks (offsetOf wanted line h) :=
  asks_inquiring.offsetOf wanted line h

instance (segment : Nat) (offset : UInt32) : Asks (locate segment offset) :=
  asks_inquiring.locate segment offset

theorem asks_of_isQuestion {request : Request} (h : request.isQuestion = true) :
    Asks request.answer :=
  asks_inquiring.answer h

end Session
end AmigaHunk
