import AmigaHunk.Host.Query
import AmigaHunk.Proofs.Session.Run

/-! While no file changes, what a session has found before makes no difference to what it answers,
nor to the warnings with the answer. -/
namespace AmigaHunk

namespace Query
variable {α β : Type} (fs : FileSystem)

theorem warnings_bind (q : Query α) (f : α → Query β) : ((q >>= f).run fs).warnings =
    (q.run fs).warnings ++ ((f (q.run fs).value).run fs).warnings := by
  rw [run_bind, Trace.warnings, Trace.after, List.filterMap_append]
  rfl

theorem warnings_firstExisting (paths : List HostText) :
    ((firstExisting paths).run fs).warnings = [] := by
  induction paths with
  | nil => rfl
  | cons path paths ih =>
    change ((if fs.has path then done (some path) else firstExisting paths).run fs).warnings = []
    split
    · rfl
    · exact ih

end Query

namespace PathConfig
variable (fs : FileSystem)

theorem warnings_locate (roots : List HostText) (path : String) :
    ((locate roots path).run fs).warnings = [] := by
  rw [locate, Query.warnings_bind, Query.warnings_firstExisting]
  rfl

theorem warnings_resolve (config : PathConfig) (name : String) :
    ((config.resolve name).run fs).warnings = [] := by
  rw [resolve, Query.warnings_bind, warnings_locate]
  generalize ((locate config.workspaceRoots (config.replace name)).run fs).value = path
  split
  · rfl
  · change ((if fs.has path then pure (Path.normalize path) else
      locate config.sourceRoots path >>= fun p => pure (Path.normalize p)).run fs).warnings = []
    split
    · rfl
    · rw [Query.warnings_bind, warnings_locate]
      rfl

end PathConfig

namespace TextCache
variable {cache : TextCache} {path : String}

/-- The lines of a file as they are in it. -/
def linesIn (fs : FileSystem) (path : String) : Except Error (List String) :=
  match fs.read path with
  | .error cause => .error (.sourceUnreadable path cause)
  | .ok bytes => .ok (Lines.split (Utf8.decode bytes))

theorem run_lines_of_lookup {found : List String} (h : cache.files.lookup path = some found)
    (fs : FileSystem) : ((lines path).run cache).run fs = ⟨(.ok found, cache), [], []⟩ := by
  unfold lines
  simp only [StateT.run_bind, StateT.run_get, pure_bind, h]
  rfl

theorem run_lines_of_not_lookup (h : cache.files.lookup path = none) (fs : FileSystem) :
    ((lines path).run cache).run fs = ⟨(linesIn fs path, match linesIn fs path with
      | .error _ => cache
      | .ok found => ⟨(path, found) :: cache.files⟩), [.read path], []⟩ := by
  unfold lines linesIn
  simp only [StateT.run_bind, StateT.run_get, pure_bind, h]
  change (Query.contents path >>= _).run fs = _
  have hread : (Query.contents path).run fs = ⟨fs.read path, [.read path], []⟩ := rfl
  rw [Query.run_bind, hread]
  cases fs.read path with
  | error cause => rfl
  | ok bytes => rfl

theorem run_line (path : String) (index : Nat) (cache : TextCache) (fs : FileSystem) :
    ((line path index).run cache).run fs =
      ⟨((((lines path).run cache).run fs).value.1.map (·[index]?),
        (((lines path).run cache).run fs).value.2),
        (((lines path).run cache).run fs).calls, (((lines path).run cache).run fs).events⟩ := by
  rw [line, StateT.run_bind, Query.run_bind, Trace.after]
  change Trace.mk (_, _) (_ ++ []) (_ ++ []) = _
  rw [List.append_nil, List.append_nil]

end TextCache

namespace Session
variable {α β : Type} {fs : FileSystem} {s s' : Session}

/-- The warnings on the way to the answer of an action. -/
def warned (fs : FileSystem) (act : Action α) (s : Session) : List Warning :=
  ((act.run s).run fs).warnings

theorem warned_bind (act : Action α) (f : α → Action β) : warned fs (act >>= f) s =
    warned fs act s ++ warned fs (f (perform fs act s).1) (perform fs act s).2 := by
  rw [warned, StateT.run_bind, Query.warnings_bind]
  rfl

theorem warned_withResolver (act : StateT Resolver Query α) :
    warned fs (withResolver act) s = ((act.run s.resolver).run fs).warnings := by
  rw [warned, run_withResolver]
  rfl

theorem warned_withTexts (act : StateT TextCache Query α) :
    warned fs (withTexts act) s = ((act.run s.texts).run fs).warnings := by
  rw [warned, run_withTexts]
  rfl

/-- The caches hold nothing but what would be found anew. -/
structure Sound (fs : FileSystem) (s : Session) : Prop where
  paths : ∀ {name path}, s.resolver.resolved.lookup name = some path →
    ((s.resolver.config.resolve name).run fs).value = path
  texts : ∀ {path lines}, s.texts.files.lookup path = some lines →
    TextCache.linesIn fs path = .ok lines

theorem sound_start (fs : FileSystem) (hunks : List Hunk) (config : PathConfig) :
    Sound fs (start hunks config) where
  paths h := by cases h
  texts h := by cases h

theorem Sound.perform_resolveName (h : Sound fs s) (name : String) :
    (perform fs (resolveName name) s).1 = ((s.resolver.config.resolve name).run fs).value := by
  cases hn : s.resolver.resolved.lookup name with
  | some path => rw [perform_resolveName_of_lookup fs hn, h.paths hn]
  | none => rw [perform_resolveName_of_not_lookup fs hn]

theorem warned_resolveName (name : String) : warned fs (resolveName name) s = [] := by
  rw [resolveName, warned_withResolver]
  cases hn : s.resolver.resolved.lookup name with
  | some path =>
    rw [Resolver.run_resolve_of_lookup hn]
    rfl
  | none =>
    rw [Resolver.run_resolve_of_not_lookup hn, Query.warnings_bind, PathConfig.warnings_resolve]
    rfl

theorem Sound.after_resolveName (h : Sound fs s) (name : String) :
    Sound fs (perform fs (resolveName name) s).2 := by
  cases hn : s.resolver.resolved.lookup name with
  | some path =>
    rw [perform_resolveName_of_lookup fs hn]
    exact h
  | none =>
    rw [perform_resolveName_of_not_lookup fs hn]
    refine ⟨fun hl => ?_, h.texts⟩
    obtain hl | ⟨rfl, rfl⟩ := (lookup_cons_eq_some_iff hn).1 hl
    · exact h.paths hl
    · rfl

theorem Sound.perform_textLine (h : Sound fs s) (path : String) (index : Nat) :
    (perform fs (textLine path index) s).1 = (TextCache.linesIn fs path).map (·[index]?) := by
  rw [textLine, perform_withTexts, TextCache.run_line]
  cases hl : s.texts.files.lookup path with
  | some lines => rw [TextCache.run_lines_of_lookup hl, h.texts hl]
  | none => rw [TextCache.run_lines_of_not_lookup hl]

theorem warned_textLine (path : String) (index : Nat) :
    warned fs (textLine path index) s = [] := by
  rw [textLine, warned_withTexts, TextCache.run_line]
  cases hl : s.texts.files.lookup path with
  | some lines =>
    rw [TextCache.run_lines_of_lookup hl]
    rfl
  | none =>
    rw [TextCache.run_lines_of_not_lookup hl]
    rfl

theorem Sound.after_textLine (h : Sound fs s) (path : String) (index : Nat) :
    Sound fs (perform fs (textLine path index) s).2 := by
  rw [textLine, perform_withTexts, TextCache.run_line]
  cases hl : s.texts.files.lookup path with
  | some lines =>
    rw [TextCache.run_lines_of_lookup hl]
    exact h
  | none =>
    rw [TextCache.run_lines_of_not_lookup hl]
    cases hr : TextCache.linesIn fs path with
    | error e => exact h
    | ok found =>
      refine ⟨h.paths, fun hl' => ?_⟩
      obtain hl' | ⟨rfl, rfl⟩ := (lookup_cons_eq_some_iff hl).1 hl'
      · exact h.texts hl'
      · exact hr

/-- Sessions that differ only in what they have found, and have found nothing false. -/
structure Alike (fs : FileSystem) (s s' : Session) : Prop where
  hunks_eq : s.hunks = s'.hunks
  config_eq : s.resolver.config = s'.resolver.config
  left : Sound fs s
  right : Sound fs s'

/-- On alike sessions the action answers the same with the same warnings, and it leaves alike
sessions. -/
structure Transparent (act : Action α) : Prop where
  answer_eq : ∀ {fs s s'}, Alike fs s s' → (perform fs act s).1 = (perform fs act s').1
  warned_eq : ∀ {fs s s'}, Alike fs s s' → warned fs act s = warned fs act s'
  alike : ∀ {fs s s'}, Alike fs s s' → Alike fs (perform fs act s).2 (perform fs act s').2

theorem Transparent.bind {act : Action α} {f : α → Action β} (hact : Transparent act)
    (hf : ∀ a, Transparent (f a)) : Transparent (act >>= f) where
  answer_eq h := by
    rw [perform_bind, perform_bind, hact.answer_eq h]
    exact (hf _).answer_eq (hact.alike h)
  warned_eq h := by
    rw [warned_bind, warned_bind, hact.warned_eq h, hact.answer_eq h,
      (hf _).warned_eq (hact.alike h)]
  alike h := by
    rw [perform_bind, perform_bind, hact.answer_eq h]
    exact (hf _).alike (hact.alike h)

/-- An action that only asks keeps sessions alike, if it finds nothing false. -/
theorem Alike.perform (h : Alike fs s s') (act : Action α) [Asks act]
    (hleft : Sound fs (Session.perform fs act s).2)
    (hright : Sound fs (Session.perform fs act s').2) :
    Alike fs (Session.perform fs act s).2 (Session.perform fs act s').2 where
  hunks_eq := by
    rw [(Asks.extends_perform fs s).hunks_eq, (Asks.extends_perform fs s').hunks_eq, h.hunks_eq]
  config_eq := by
    rw [(Asks.extends_perform fs s).config_eq, (Asks.extends_perform fs s').config_eq, h.config_eq]
  left := hleft
  right := hright

theorem transparent_inquiring : Inquiring Transparent where
  pure a := ⟨fun _ => rfl, fun _ => rfl, id⟩
  bind := Transparent.bind
  get hf hP := by
    refine ⟨fun {fs s s'} h => ?_, fun {fs s s'} h => ?_, fun {fs s s'} h => ?_⟩
    · rw [perform_bind, perform_bind, perform_get, perform_get, hf s s' h.hunks_eq]
      exact (hP s').answer_eq h
    · rw [warned_bind, warned_bind, perform_get, perform_get, hf s s' h.hunks_eq]
      exact (hP s').warned_eq h
    · rw [perform_bind, perform_bind, perform_get, perform_get, hf s s' h.hunks_eq]
      exact (hP s').alike h
  resolveName name := by
    have := asks_inquiring.resolveName name
    refine ⟨fun h => ?_, fun h => ?_, fun h => ?_⟩
    · rw [h.left.perform_resolveName, h.right.perform_resolveName, h.config_eq]
    · rw [warned_resolveName, warned_resolveName]
    · exact h.perform _ (h.left.after_resolveName name) (h.right.after_resolveName name)
  textLine path index := by
    have := asks_inquiring.textLine path index
    refine ⟨fun h => ?_, fun h => ?_, fun h => ?_⟩
    · rw [h.left.perform_textLine, h.right.perform_textLine]
    · rw [warned_textLine, warned_textLine]
    · exact h.perform _ (h.left.after_textLine path index) (h.right.after_textLine path index)
  warn w := ⟨fun _ => rfl, fun _ => rfl, id⟩

/-- The answer to a request, and the warnings with it. -/
def reply (fs : FileSystem) (s : Session) (request : Request) : Answer × List Warning :=
  ((perform fs request.answer s).1, warned fs request.answer s)

/-- The replies to requests that come one after the other. -/
def replies (fs : FileSystem) : Session → List Request → List (Answer × List Warning)
  | _, [] => []
  | s, request :: requests =>
    reply fs s request :: replies fs (s.ask ⟨fs, request⟩).2 requests

/-- Questions may have come to the second session meanwhile. -/
theorem Alike.ask {request : Request} (h : Alike fs s s') (hq : request.isQuestion = true) :
    Alike fs s (s'.ask ⟨fs, request⟩).2 where
  hunks_eq := by
    rw [(ask_extends (t := ⟨fs, request⟩) hq s').hunks_eq, h.hunks_eq]
  config_eq := by
    rw [(ask_extends (t := ⟨fs, request⟩) hq s').config_eq, h.config_eq]
  left := h.left
  right := ((transparent_inquiring.answer hq).alike h).right

/-- While the files stay as they are, the reply to each question is that of a new session. -/
theorem replies_eq_map {requests : List Request}
    (h : ∀ request ∈ requests, request.isQuestion = true) (fs : FileSystem) (hunks : List Hunk)
    (config : PathConfig) :
    replies fs (start hunks config) requests = requests.map (reply fs (start hunks config)) := by
  have hsound := sound_start fs hunks config
  have later : ∀ s', Alike fs (start hunks config) s' →
      replies fs s' requests = requests.map (reply fs (start hunks config)) := by
    induction requests with
    | nil => exact fun _ _ => rfl
    | cons request requests ih =>
      intro s' hs'
      have hq := h request List.mem_cons_self
      have hreply : reply fs s' request = reply fs (start hunks config) request := by
        rw [reply, reply, (transparent_inquiring.answer hq).answer_eq hs',
          (transparent_inquiring.answer hq).warned_eq hs']
      rw [replies, List.map_cons, hreply]
      exact congrArg _ (ih (fun r hr => h r (List.mem_cons_of_mem request hr)) _ (hs'.ask hq))
  exact later _ ⟨rfl, rfl, hsound, hsound⟩

/-- Code of two tables of one file. -/
def oneSource : List Hunk := [⟨0, .code, .any, 4, none, some [0x4E, 0x71, 0x4E, 0x75], none,
  some [⟨"a.c", [⟨0, 7⟩]⟩, ⟨"a.c", [⟨2, 8⟩]⟩]⟩]

/-- A file that cannot be read is warned of as often as its text is wanted. -/
theorem replies_about_oneSource :
    (∀ request ∈ [Request.locate 0 2, .address "a.c" 8, .locate 0 2], request.isQuestion = true) ∧
    replies (Store.fileSystem [("/work/a.c", none)]) (start oneSource ⟨[], ["/work"], []⟩)
        [.locate 0 2, .address "a.c" 8, .locate 0 2] =
      [(.location (some ⟨"/work/a.c", 8, none⟩),
          [.noSourceText (.sourceUnreadable "/work/a.c" "unreadable")]),
        (.address (some ⟨0, 2⟩), []),
        (.location (some ⟨"/work/a.c", 8, none⟩),
          [.noSourceText (.sourceUnreadable "/work/a.c" "unreadable")])] := by
  have hquestions : ∀ request ∈ [Request.locate 0 2, .address "a.c" 8, .locate 0 2],
      request.isQuestion = true := by decide
  refine ⟨hquestions, ?_⟩
  rw [replies_eq_map hquestions]
  decide +kernel

end Session
end AmigaHunk
