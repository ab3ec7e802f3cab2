import AmigaHunk.Proofs.Path.Probes
import AmigaHunk.Proofs.Session.Questions
import AmigaHunk.Proofs.Session.Run

/-! What questions ask of a session, step by step: names to be found, and lines of files. The calls
to the host are those of the steps. -/
namespace AmigaHunk

/-- A name that is asked for, with the path that it is found at and the calls on the way. -/
structure NameUse where
  files : FileSystem
  name : String
  path : String
  calls : List Call

/-- A line of a file that is asked for, with what comes of it and the calls on the way. -/
structure LineUse where
  files : FileSystem
  path : String
  index : Nat
  answer : Except Error (Option String)
  calls : List Call

inductive Use where
  | name (use : NameUse)
  | line (use : LineUse)

namespace Use

def calls : Use → List Call
  | name u => u.calls
  | line u => u.calls

def name? : Use → Option String
  | name u => some u.name
  | line _ => none

end Use

namespace Session
variable {α β : Type} {fs : FileSystem} {s : Session}

/-- The calls on the way to the answer of an action. -/
def called (fs : FileSystem) (act : Action α) (s : Session) : List Call :=
  ((act.run s).run fs).calls

theorem called_bind (act : Action α) (f : α → Action β) : called fs (act >>= f) s =
    called fs act s ++ called fs (f (perform fs act s).1) (perform fs act s).2 := by
  rw [called, StateT.run_bind, Query.calls_bind]
  rfl

def nameUse (fs : FileSystem) (name : String) (s : Session) : NameUse :=
  ⟨fs, name, (perform fs (resolveName name) s).1, called fs (resolveName name) s⟩

def lineUse (fs : FileSystem) (path : String) (index : Nat) (s : Session) : LineUse :=
  ⟨fs, path, index, (perform fs (textLine path index) s).1, called fs (textLine path index) s⟩

/-- What an action asks of a session, in order. The steps are those of a question: of the session
itself they see the hunks only. -/
inductive Course (fs : FileSystem) : {α : Type} → Action α → Session → List Use → Prop where
  | pure {α : Type} (a : α) (s : Session) : Course fs (pure a) s []
  | warn (w : Warning) (s : Session) : Course fs (Query.warn w : Action Unit) s []
  | get {α : Type} {f : Session → Action α} {s : Session} {uses : List Use}
    (hf : ∀ s s', s.hunks = s'.hunks → f s = f s') (h : Course fs (f s) s uses) :
    Course fs (get >>= f) s uses
  | bind {α β : Type} {act : Action α} {f : α → Action β} {s : Session} {uses more : List Use}
    (h : Course fs act s uses)
    (hf : Course fs (f (perform fs act s).1) (perform fs act s).2 more) :
    Course fs (act >>= f) s (uses ++ more)
  | resolveName (name : String) (s : Session) :
    Course fs (resolveName name) s [.name (nameUse fs name s)]
  | textLine (path : String) (index : Nat) (s : Session) :
    Course fs (textLine path index) s [.line (lineUse fs path index s)]

theorem Course.called_eq {act : Action α} {uses : List Use} (h : Course fs act s uses) :
    called fs act s = uses.flatMap Use.calls := by
  induction h with
  | pure a s => rfl
  | warn w s => rfl
  | get hf h ih =>
    rw [called_bind, perform_get, ih]
    rfl
  | bind h hf ih ihf => rw [called_bind, ih, ihf, List.flatMap_append]
  | resolveName name s => rw [List.flatMap_singleton, Use.calls, nameUse]
  | textLine path index s => rw [List.flatMap_singleton, Use.calls, lineUse]

theorem exists_course : Inquiring fun act => ∀ fs s, ∃ uses, Course fs act s uses where
  pure a _ s := ⟨[], .pure a s⟩
  bind hact hf fs s := by
    obtain ⟨uses, h⟩ := hact fs s
    obtain ⟨more, hmore⟩ := hf _ fs _
    exact ⟨uses ++ more, h.bind hmore⟩
  get hf hP fs s := by
    obtain ⟨uses, h⟩ := hP s fs s
    exact ⟨uses, .get hf h⟩
  resolveName name _ s := ⟨_, .resolveName name s⟩
  textLine path index _ s := ⟨_, .textLine path index s⟩
  warn w _ s := ⟨[], .warn w s⟩

/-- What a session is asked by one question after the other, while files may change in between. -/
inductive History : Session → List Turn → List Use → Prop where
  | nil (s : Session) : History s [] []
  | cons {s : Session} {t : Turn} {turns : List Turn} {uses more : List Use}
    (h : Course t.files t.request.answer s uses) (hturns : History (s.ask t).2 turns more) :
    History s (t :: turns) (uses ++ more)

theorem exists_history {turns : List Turn} (h : ∀ t ∈ turns, t.request.isQuestion = true)
    (s : Session) : ∃ uses, History s turns uses := by
  induction turns generalizing s with
  | nil => exact ⟨[], .nil s⟩
  | cons t turns ih =>
    obtain ⟨uses, hcourse⟩ := exists_course.answer (h t List.mem_cons_self) t.files s
    obtain ⟨more, hturns⟩ := ih (fun t' ht => h t' (List.mem_cons_of_mem t ht)) (s.ask t).2
    exact ⟨uses ++ more, .cons hcourse hturns⟩

theorem History.calls_eq {turns : List Turn} {uses : List Use} (h : History s turns uses) :
    (s.observed turns).flatMap Trace.calls = uses.flatMap Use.calls := by
  induction h with
  | nil s => rfl
  | cons hcourse _ ih =>
    rw [observed, List.flatMap_cons, ih, List.flatMap_append, ← hcourse.called_eq]
    rfl

end Session
end AmigaHunk
