import AmigaHunk.Event
import AmigaHunk.Host.Text

/-! What is asked of a host: whether a path exists, and what a file holds; and what is told on the
way. A query is a value, to be run on a model of a file system or performed on a real one. -/
namespace AmigaHunk

/-- A file system as queries see it. A failed read tells its cause. -/
structure FileSystem where
  has : HostText → Bool
  read : HostText → Except String (List UInt8)

/-- What answers queries and is told events. -/
structure Host (m : Type → Type) where
  has : HostText → m Bool
  read : HostText → m (Except String (List UInt8))
  tell : Event → m Unit

inductive Query (α : Type) where
  | done (a : α)
  | probe (path : HostText) (next : Bool → Query α)
  | read (path : HostText) (next : Except String (List UInt8) → Query α)
  | tell (e : Event) (next : Query α)

inductive Call where
  | probe (path : HostText)
  | read (path : HostText)
  deriving DecidableEq, Repr

/-- A value, with the calls and the events on the way to it. -/
structure Trace (α : Type) where
  value : α
  calls : List Call
  events : List Event

def Trace.warnings {α : Type} (t : Trace α) : List Warning := t.events.filterMap Event.warning?

namespace Query
variable {α β γ : Type}

def andThen : Query α → (α → Query β) → Query β
  | done a, f => f a
  | probe path next, f => probe path fun found => (next found).andThen f
  | read path next, f => read path fun content => (next content).andThen f
  | tell e next, f => tell e (next.andThen f)

instance : Monad Query where
  pure := done
  bind := andThen

theorem andThen_done (q : Query α) : q.andThen done = q := by
  induction q with
  | done a => rfl
  | probe path next ih => simp only [andThen, ih]
  | read path next ih => simp only [andThen, ih]
  | tell e next ih => simp only [andThen, ih]

theorem andThen_assoc (q : Query α) (f : α → Query β) (g : β → Query γ) :
    (q.andThen f).andThen g = q.andThen fun a => (f a).andThen g := by
  induction q with
  | done a => rfl
  | probe path next ih => simp only [andThen, ih]
  | read path next ih => simp only [andThen, ih]
  | tell e next ih => simp only [andThen, ih]

instance : LawfulMonad Query := LawfulMonad.mk' Query andThen_done (fun _ _ => rfl) andThen_assoc

def exists? (path : HostText) : Query Bool := probe path done

def contents (path : HostText) : Query (Except String (List UInt8)) := read path done

def note (e : Event) : Query Unit := tell e (done ())

def warn (w : Warning) : Query Unit := note (.warning w)

/-- The first of the paths that exists. -/
def firstExisting : List HostText → Query (Option HostText)
  | [] => done none
  | path :: paths => probe path fun found =>
    if found then done (some path) else firstExisting paths

/-- Has a host answer. -/
def performBy {m : Type → Type} [Monad m] (host : Host m) : Query α → m α
  | done a => return a
  | probe path next => do (next (← host.has path)).performBy host
  | read path next => do (next (← host.read path)).performBy host
  | tell e next => do
    host.tell e
    next.performBy host

/-- Runs a query on a file system that does not change meanwhile. -/
def run (fs : FileSystem) : Query α → Trace α
  | done a => ⟨a, [], []⟩
  | probe path next =>
    let t := (next (fs.has path)).run fs
    { t with calls := .probe path :: t.calls }
  | read path next =>
    let t := (next (fs.read path)).run fs
    { t with calls := .read path :: t.calls }
  | tell e next =>
    let t := next.run fs
    { t with events := e :: t.events }

end Query

/-- The trace of a second run, after that of a first. -/
def Trace.after {α β : Type} (t : Trace β) (first : Trace α) : Trace β :=
  ⟨t.value, first.calls ++ t.calls, first.events ++ t.events⟩

namespace Query
variable {α β : Type}

theorem run_bind (fs : FileSystem) (q : Query α) (f : α → Query β) :
    (q >>= f).run fs = ((f (q.run fs).value).run fs).after (q.run fs) := by
  show (q.andThen f).run fs = _
  induction q with
  | done a => simp [andThen, run, Trace.after]
  | probe path next ih => simp only [andThen, run, ih, Trace.after, List.cons_append]
  | read path next ih => simp only [andThen, run, ih, Trace.after, List.cons_append]
  | tell e next ih => simp only [andThen, run, ih, Trace.after, List.cons_append]

end Query

/-- What a file holds, or nothing if it cannot be read. -/
abbrev Content := Option (List UInt8)

/-- Files kept in memory under their exact paths, one entry for each. -/
abbrev Store := List (HostText × Content)

namespace Store

def erase (s : Store) (path : HostText) : Store := s.filter (·.1 != path)

def write (s : Store) (path : HostText) (content : Content) : Store :=
  (path, content) :: s.erase path

def has (s : Store) (path : HostText) : Bool := (s.lookup path).isSome

def read (s : Store) (path : HostText) : Except String (List UInt8) :=
  match s.lookup path with
  | none => .error "not found"
  | some none => .error "unreadable"
  | some (some bytes) => .ok bytes

def fileSystem (s : Store) : FileSystem := ⟨s.has, s.read⟩

end Store
end AmigaHunk
