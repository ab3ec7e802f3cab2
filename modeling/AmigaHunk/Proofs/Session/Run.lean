import AmigaHunk.Proofs.Session.Extends

/-! Sessions that answer one request after the other, while files may change in between. -/
namespace AmigaHunk

/-- A request, with the files as they are when it comes. -/
structure Turn where
  files : FileSystem
  request : Request

namespace Session

/-- The answer to a request, and the session behind it. -/
def ask (s : Session) (t : Turn) : Answer × Session := perform t.files t.request.answer s

theorem ask_of_map {α : Type} {t : Turn} {f : α → Answer} (act : Action α)
    (h : t.request.answer = f <$> act) (s : Session) :
    s.ask t = (f (perform t.files act s).1, (perform t.files act s).2) := by
  rw [ask, h, perform_map]

def after (s : Session) (turns : List Turn) : Session := turns.foldl (fun s t => (s.ask t).2) s

/-- The answer to a request, with the calls and the events on the way to it. -/
def observe (s : Session) (t : Turn) : Trace Answer :=
  let trace := (t.request.answer.run s).run t.files
  ⟨trace.value.1, trace.calls, trace.events⟩

/-- All that a host sees of a session that answers one request after the other. -/
def observed : Session → List Turn → List (Trace Answer)
  | _, [] => []
  | s, t :: turns => s.observe t :: (s.ask t).2.observed turns

/-- All paths found so far are normalized. -/
def Normal (s : Session) : Prop :=
  ∀ name path, s.resolver.resolved.lookup name = some path → Path.normalize path = path

theorem after_append (s : Session) (turns more : List Turn) :
    s.after (turns ++ more) = (s.after turns).after more :=
  List.foldl_append

theorem normal_start (hunks : List Hunk) (config : PathConfig) : (start hunks config).Normal := by
  intro name path h
  cases h

theorem Extends.normal {s s' : Session} (h : Extends s s') (hs : s.Normal) : s'.Normal := by
  intro name path hl
  cases h.fresh hl with
  | inl hl => exact hs name path hl
  | inr hn => exact hn

/-- What can come of loading the file at `path`: an answer, and the session behind it. -/
inductive Loads (fs : FileSystem) (path : HostText) (s : Session) :
    Except Error Bool × Session → Prop where
  | missing (h : fs.has path = false) : Loads fs path s (.ok false, s)
  | unreadable {cause : String} (h : fs.has path = true) (hread : fs.read path = .error cause) :
    Loads fs path s (.error (.io cause), s)
  | malformed {bytes : List UInt8} {e : DecodeError} (h : fs.has path = true)
    (hread : fs.read path = .ok bytes) (hdecode : (File.decode bytes).result = .error e) :
    Loads fs path s (.error (.decode e), s)
  | loaded {bytes : List UInt8} {hunks : List Hunk} (h : fs.has path = true)
    (hread : fs.read path = .ok bytes) (hdecode : (File.decode bytes).result = .ok hunks) :
    Loads fs path s (.ok true, start hunks s.resolver.config)

theorem loads_load (fs : FileSystem) (path : HostText) (s : Session) :
    Loads fs path s (perform fs (load path) s) := by
  have hprobe : ((Query.exists? path).run fs).value = fs.has path := rfl
  have hcontents : ((Query.contents path).run fs).value = fs.read path := rfl
  rw [load, perform_bind, perform_lift, hprobe]
  cases h : fs.has path with
  | false => exact .missing h
  | true =>
    change Loads fs path s (perform fs ((Query.contents path : Action _) >>= _) s)
    rw [perform_bind, perform_lift, hcontents]
    cases hread : fs.read path with
    | error cause => exact .unreadable h hread
    | ok bytes =>
      change Loads fs path s (perform fs
        ((File.decode bytes).warnings.forM (fun w => (Query.warn w : Action Unit)) >>= _) s)
      rw [perform_bind, perform_forM_warn]
      cases hdecode : (File.decode bytes).result with
      | error e => exact .malformed h hread hdecode
      | ok hunks => exact .loaded h hread hdecode

theorem ask_normal {s : Session} (h : s.Normal) (t : Turn) : (s.ask t).2.Normal := by
  obtain ⟨files, request⟩ := t
  cases request with
  | load path =>
    rw [ask_of_map (load path) rfl]
    have hloads := loads_load files path s
    generalize perform files (load path) s = result at hloads
    cases hloads with
    | loaded _ _ _ => exact normal_start _ _
    | _ => exact h
  | _ => exact ((asks_of_isQuestion rfl).extends_perform files s).normal h

/-- Paths are normalized in every session that requests lead to. -/
theorem after_normal {s : Session} (h : s.Normal) (turns : List Turn) : (s.after turns).Normal := by
  induction turns generalizing s with
  | nil => exact h
  | cons t turns ih => exact ih (ask_normal h t)

theorem ask_extends {t : Turn} (h : t.request.isQuestion = true) (s : Session) :
    Extends s (s.ask t).2 :=
  (asks_of_isQuestion h).extends_perform t.files s

theorem after_extends {turns : List Turn} (h : ∀ t ∈ turns, t.request.isQuestion = true)
    (s : Session) : Extends s (s.after turns) := by
  induction turns generalizing s with
  | nil => exact .refl s
  | cons t turns ih =>
    have ht := ask_extends (h t List.mem_cons_self) s
    have hmore := ih (fun t' hm => h t' (List.mem_cons_of_mem t hm)) (s.ask t).2
    exact ht.trans hmore

end Session
end AmigaHunk
