import AmigaHunk.Session.Request

/-! What holds of all questions. A property that sequences of actions keep, and that the steps of a
session have, holds of the answer to every question. -/
namespace AmigaHunk.Session

/-- A property that sequences of actions keep. -/
structure Sequential (P : {α : Type} → Action α → Prop) : Prop where
  pure : ∀ {α : Type} (a : α), P (pure a : Action α)
  bind : ∀ {α β : Type} {act : Action α} {f : α → Action β},
    P act → (∀ a, P (f a)) → P (act >>= f)

namespace Sequential
variable {P : {α : Type} → Action α → Prop} {α β : Type}

theorem map (h : Sequential P) (f : α → β) {act : Action α} (hact : P act) : P (f <$> act) := by
  rw [map_eq_pure_bind]
  exact h.bind hact fun a => h.pure (f a)

theorem anyM (h : Sequential P) {p : β → Action Bool} (hp : ∀ x, P (p x)) (xs : List β) :
    P (xs.anyM p) := by
  induction xs with
  | nil => exact h.pure false
  | cons x xs ih =>
    refine h.bind (hp x) fun found => ?_
    cases found with
    | true => exact h.pure true
    | false => exact ih

theorem findSomeM? (h : Sequential P) {f : β → Action (Option α)} (hf : ∀ x, P (f x))
    (xs : List β) : P (xs.findSomeM? f) := by
  induction xs with
  | nil => exact h.pure none
  | cons x xs ih =>
    refine h.bind (hf x) fun found => ?_
    cases found with
    | some a => exact h.pure (some a)
    | none => exact ih

theorem filterAuxM (h : Sequential P) {p : β → Action Bool} (hp : ∀ x, P (p x))
    (xs acc : List β) : P (xs.filterAuxM p acc) := by
  induction xs generalizing acc with
  | nil => exact h.pure acc
  | cons x xs ih => exact h.bind (hp x) fun b => ih (cond b (x :: acc) acc)

theorem filterM (h : Sequential P) {p : β → Action Bool} (hp : ∀ x, P (p x)) (xs : List β) :
    P (xs.filterM p) :=
  h.bind (h.filterAuxM hp xs []) fun as => h.pure as.reverse

theorem mapM (h : Sequential P) {f : β → Action α} (hf : ∀ x, P (f x)) (o : Option β) :
    P (o.mapM f) := by
  cases o with
  | none => exact h.pure none
  | some x => exact h.map some (hf x)

end Sequential

/-- A property of sequences that the steps of the answers to questions have. Of the session itself
they see the hunks only. -/
structure Inquiring (P : {α : Type} → Action α → Prop) : Prop extends Sequential P where
  get : ∀ {α : Type} {f : Session → Action α},
    (∀ s s', s.hunks = s'.hunks → f s = f s') → (∀ s, P (f s)) → P (get >>= f)
  resolveName : ∀ name, P (resolveName name)
  textLine : ∀ path index, P (textLine path index)
  warn : ∀ w, P (Query.warn w : Action Unit)

namespace Inquiring
variable {P : {α : Type} → Action α → Prop}

theorem isFor (h : Inquiring P) (wanted : String) (t : LineTable) : P (isFor wanted t) :=
  h.bind (h.resolveName t.name) fun path => h.pure (Path.same path wanted)

theorem isListed (h : Inquiring P) (wanted : Option String) (hunk : Hunk) :
    P (isListed wanted hunk) := by
  unfold Session.isListed
  split
  · exact h.pure false
  · cases wanted with
    | none => exact h.pure true
    | some file => exact h.anyM (h.isFor file) hunk.tableList

theorem symbols (h : Inquiring P) (file : Option String) : P (symbols file) := by
  refine h.bind (h.mapM h.resolveName file) fun wanted => h.get (fun s s' hs => ?_) fun s => ?_
  · rw [hs]
  · exact h.bind (h.filterM (h.isListed wanted) s.hunks) fun _ => h.pure _

theorem textFor (h : Inquiring P) (path : String) (line : UInt32) : P (textFor path line) := by
  unfold Session.textFor
  split
  · exact h.pure none
  · refine h.bind (h.textLine path _) fun r => ?_
    cases r with
    | ok text => exact h.pure text
    | error e => exact h.bind (h.warn _) fun _ => h.pure none

theorem locate (h : Inquiring P) (segment : Nat) (offset : UInt32) : P (locate segment offset) := by
  refine h.get (fun s s' hs => ?_) fun s => ?_
  · rw [hs]
  · cases s.hunks[segment]?.bind (covering · offset) with
    | none => exact h.pure none
    | some found =>
      exact h.bind (h.resolveName found.1.name) fun file =>
        h.bind (h.textFor file found.2) fun _ => h.pure _

theorem offsetOf (h : Inquiring P) (wanted : String) (line : UInt32) (hunk : Hunk) :
    P (offsetOf wanted line hunk) := by
  refine h.findSomeM? (fun t => h.bind (h.isFor wanted t) fun found => ?_) hunk.tableList
  cases found with
  | true => exact h.pure _
  | false => exact h.pure none

theorem address (h : Inquiring P) (file : String) (line : UInt32) : P (address file line) := by
  refine h.get (fun s s' hs => ?_) fun s => ?_
  · rw [hs]
  · exact h.findSomeM? (fun p => h.bind (h.offsetOf _ line p.1) fun _ => h.pure _) s.hunks.zipIdx

theorem segments (h : Inquiring P) (file : String) : P (segments file) := by
  refine h.get (fun s s' hs => ?_) fun s => ?_
  · rw [hs]
  · have hfor : ∀ p : LineTable × Nat, P (Session.isFor (Path.normalize file) p.1) :=
      fun p => h.isFor _ p.1
    exact h.bind (h.filterM hfor _) fun _ => h.pure _

theorem sourceLine (h : Inquiring P) (name : String) (index : Nat) : P (sourceLine name index) :=
  h.bind (h.resolveName name) fun path => h.textLine path index

theorem answer (h : Inquiring P) {request : Request} (hq : request.isQuestion = true) :
    P request.answer := by
  cases request with
  | load path => cases hq
  | hunks => exact h.get (fun s s' hs => by rw [hs]) fun _ => h.pure _
  | codeData => exact h.get (fun s s' hs => by rw [codeData, codeData, hs]) fun _ => h.pure _
  | symbols file => exact h.map _ (h.symbols file)
  | locate segment offset => exact h.map _ (h.locate segment offset)
  | address file line => exact h.map _ (h.address file line)
  | segments file => exact h.map _ (h.segments file)
  | resolveName name => exact h.map _ (h.resolveName name)
  | sourceLine name index => exact h.map _ (h.sourceLine name index)

end Inquiring
end AmigaHunk.Session
