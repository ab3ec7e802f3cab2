import AmigaHunk.Proofs.Host.Text
import AmigaHunk.Proofs.Session.Course
import AmigaHunk.Proofs.Session.Transparent
import Mathlib.Data.Finset.Card
import Mathlib.Data.List.Induction

/-! What a session remembers while files change. A name stays where it was found first, and a file
that has been read keeps the lines it had then. A failed read leaves nothing behind. -/
namespace AmigaHunk

namespace Session
variable {α : Type} {fs : FileSystem} {s s' : Session} {before later uses : List Use}
  {name path : String} {index : Nat} {lines : List String}

theorem called_resolveName_of_lookup (h : s.resolver.resolved.lookup name = some path) :
    called fs (resolveName name) s = [] := by
  rw [called, resolveName, run_withResolver, Resolver.run_resolve_of_lookup h]
  rfl

theorem called_resolveName_of_not_lookup (h : s.resolver.resolved.lookup name = none) :
    called fs (resolveName name) s = ((s.resolver.config.resolve name).run fs).calls := by
  rw [called, resolveName, run_withResolver, Resolver.run_resolve_of_not_lookup h]
  change ((_ >>= _ : Query _).run fs).calls = _
  rw [Query.calls_bind]
  exact List.append_nil _

theorem run_textLine_of_lookup (h : s.texts.files.lookup path = some lines) :
    ((textLine path index).run s).run fs = ⟨(.ok lines[index]?, s), [], []⟩ := by
  rw [textLine, run_withTexts, TextCache.run_line, TextCache.run_lines_of_lookup h]
  rfl

theorem run_textLine_of_error (h : s.texts.files.lookup path = none) {e : Error}
    (hlines : TextCache.linesIn fs path = .error e) :
    ((textLine path index).run s).run fs = ⟨(.error e, s), [.read path], []⟩ := by
  rw [textLine, run_withTexts, TextCache.run_line, TextCache.run_lines_of_not_lookup h, hlines]
  rfl

theorem run_textLine_of_ok (h : s.texts.files.lookup path = none)
    (hlines : TextCache.linesIn fs path = .ok lines) :
    ((textLine path index).run s).run fs =
      ⟨(.ok lines[index]?, { s with texts := ⟨(path, lines) :: s.texts.files⟩ }),
        [.read path], []⟩ := by
  rw [textLine, run_withTexts, TextCache.run_line, TextCache.run_lines_of_not_lookup h, hlines]
  rfl

/-- The session has found the name at the path, at the start or in a use since. -/
def KnowsPath (s : Session) (before : List Use) (name path : String) : Prop :=
  s.resolver.resolved.lookup name = some path ∨
    ∃ u, .name u ∈ before ∧ u.name = name ∧ u.path = path

/-- The session has read the lines of the file, at the start or in a use since. -/
def KnowsText (s : Session) (before : List Use) (path : String) (lines : List String) : Prop :=
  s.texts.files.lookup path = some lines ∨
    ∃ u, .line u ∈ before ∧ u.path = path ∧ .read path ∈ u.calls ∧
      TextCache.linesIn u.files path = .ok lines

theorem KnowsPath.append (h : KnowsPath s before name path) (later : List Use) :
    KnowsPath s (before ++ later) name path :=
  h.imp_right fun ⟨u, hu, hname, hpath⟩ => ⟨u, List.mem_append_left later hu, hname, hpath⟩

theorem KnowsText.append (h : KnowsText s before path lines) (later : List Use) :
    KnowsText s (before ++ later) path lines :=
  h.imp_right fun ⟨u, hu, hlines⟩ => ⟨u, List.mem_append_left later hu, hlines⟩

theorem knowsPath_append_name {u : NameUse} :
    KnowsPath s (before ++ [.name u]) name path ↔
      KnowsPath s before name path ∨ (u.name = name ∧ u.path = path) := by
  simp only [KnowsPath, List.mem_append, List.mem_singleton, Use.name.injEq, or_and_right,
    exists_or, exists_eq_left, or_assoc]

theorem knowsPath_append_line {u : LineUse} :
    KnowsPath s (before ++ [.line u]) name path ↔ KnowsPath s before name path := by
  simp only [KnowsPath, List.mem_append, List.mem_singleton, reduceCtorEq, or_false]

theorem knowsText_append_line {u : LineUse} :
    KnowsText s (before ++ [.line u]) path lines ↔ KnowsText s before path lines ∨
      (u.path = path ∧ .read path ∈ u.calls ∧ TextCache.linesIn u.files path = .ok lines) := by
  simp only [KnowsText, List.mem_append, List.mem_singleton, Use.line.injEq, or_and_right,
    exists_or, exists_eq_left, or_assoc]

theorem knowsText_append_name {u : NameUse} :
    KnowsText s (before ++ [.name u]) path lines ↔ KnowsText s before path lines := by
  simp only [KnowsText, List.mem_append, List.mem_singleton, reduceCtorEq, or_false]

end Session

/-- A known name costs nothing, and any other is looked for. -/
structure NameUse.Follows (s : Session) (before : List Use) (u : NameUse) : Prop where
  known : ∀ {path}, s.KnowsPath before u.name path → u.path = path ∧ u.calls = []
  unknown : (∀ path, ¬s.KnowsPath before u.name path) →
    u.path = ((s.resolver.config.resolve u.name).run u.files).value ∧
      u.calls = ((s.resolver.config.resolve u.name).run u.files).calls

/-- A line of a known text costs nothing, and for any other the file is read. -/
structure LineUse.Follows (s : Session) (before : List Use) (u : LineUse) : Prop where
  known : ∀ {lines}, s.KnowsText before u.path lines → u.answer = .ok lines[u.index]? ∧ u.calls = []
  unknown : (∀ lines, ¬s.KnowsText before u.path lines) →
    u.answer = (TextCache.linesIn u.files u.path).map (·[u.index]?) ∧ u.calls = [.read u.path]

theorem NameUse.Follows.probes {s : Session} {before : List Use} {u : NameUse}
    (h : u.Follows s before) : (∀ call ∈ u.calls, call.isProbe = true) ∧
      u.calls.length ≤ s.resolver.config.probeLimit := by
  by_cases hknown : ∃ path, s.KnowsPath before u.name path
  · obtain ⟨path, hpath⟩ := hknown
    rw [(h.known hpath).2]
    exact ⟨fun _ hcall => (List.not_mem_nil hcall).elim, Nat.zero_le _⟩
  · have hprobes : (s.resolver.config.resolve u.name).Probes u.files _ :=
      PathConfig.probes_resolve _ _
    rw [(h.unknown (not_exists.1 hknown)).2]
    exact ⟨hprobes.isProbe, hprobes.length_le⟩

theorem LineUse.Follows.eq_read {s : Session} {before : List Use} {u : LineUse}
    (h : u.Follows s before) : ∀ call ∈ u.calls, call = .read u.path := by
  intro call hcall
  by_cases hknown : ∃ lines, s.KnowsText before u.path lines
  · obtain ⟨lines, hlines⟩ := hknown
    rw [(h.known hlines).2] at hcall
    cases hcall
  · rw [(h.unknown (not_exists.1 hknown)).2] at hcall
    exact List.mem_singleton.1 hcall

/-- A use goes as what is known before it says. -/
def Use.Follows (s : Session) (before : List Use) : Use → Prop
  | name u => u.Follows s before
  | line u => u.Follows s before

namespace Session
variable {α : Type} {fs : FileSystem} {s s' : Session} {before later uses more : List Use}
  {name path : String} {index : Nat} {lines : List String}

/-- Every use goes as what is known before it says. -/
def AllFollow (s : Session) : List Use → List Use → Prop
  | _, [] => True
  | before, u :: uses => u.Follows s before ∧ AllFollow s (before ++ [u]) uses

theorem allFollow_append : AllFollow s before (uses ++ more) ↔
    AllFollow s before uses ∧ AllFollow s (before ++ uses) more := by
  induction uses generalizing before with
  | nil => simp only [AllFollow, List.nil_append, List.append_nil, true_and]
  | cons u uses ih =>
    simp only [List.cons_append, AllFollow, ih, and_assoc, List.append_assoc, List.nil_append]

theorem AllFollow.follows {u : Use} (h : AllFollow s [] (before ++ u :: later)) :
    u.Follows s before :=
  (allFollow_append.1 h).2.1

/-- What the second session holds is what the first one knows after some uses. -/
structure Holds (s : Session) (before : List Use) (s' : Session) : Prop where
  config_eq : s'.resolver.config = s.resolver.config
  path_iff : ∀ {name path}, s'.resolver.resolved.lookup name = some path ↔
    KnowsPath s before name path
  text_iff : ∀ {path lines}, s'.texts.files.lookup path = some lines ↔
    KnowsText s before path lines

theorem holds_nil (s : Session) : Holds s [] s := by
  refine ⟨rfl, ?_, ?_⟩
  · simp [KnowsPath]
  · simp [KnowsText]

theorem Holds.resolveName (h : Holds s before s') (fs : FileSystem) (name : String) :
    (nameUse fs name s').Follows s before ∧
      Holds s (before ++ [.name (nameUse fs name s')]) (perform fs (resolveName name) s').2 := by
  cases hn : s'.resolver.resolved.lookup name with
  | some path =>
    rw [nameUse, perform_resolveName_of_lookup fs hn, called_resolveName_of_lookup hn]
    have hknown := h.path_iff.1 hn
    refine ⟨⟨fun hp => ?_, fun hnot => absurd hknown (hnot path)⟩, h.config_eq, ?_, ?_⟩
    · have hp := h.path_iff.2 hp
      rw [hn, Option.some.injEq] at hp
      exact ⟨hp, rfl⟩
    · intro other found
      rw [knowsPath_append_name, h.path_iff, iff_self_or]
      rintro ⟨rfl, rfl⟩
      exact hknown
    · exact h.text_iff.trans knowsText_append_name.symm
  | none =>
    have hnot : ∀ path, ¬KnowsPath s before name path := by
      intro path hp
      rw [← h.path_iff, hn] at hp
      cases hp
    rw [nameUse, perform_resolveName_of_not_lookup fs hn, called_resolveName_of_not_lookup hn,
      h.config_eq]
    refine ⟨⟨fun hp => absurd hp (hnot _), fun _ => ⟨rfl, rfl⟩⟩, h.config_eq, ?_, ?_⟩
    · intro other found
      rw [knowsPath_append_name, ← h.path_iff]
      exact lookup_cons_eq_some_iff hn
    · exact h.text_iff.trans knowsText_append_name.symm

theorem Holds.textLine (h : Holds s before s') (fs : FileSystem) (path : String) (index : Nat) :
    (lineUse fs path index s').Follows s before ∧
      Holds s (before ++ [.line (lineUse fs path index s')])
        (perform fs (textLine path index) s').2 := by
  cases hl : s'.texts.files.lookup path with
  | some lines =>
    rw [lineUse, perform, called, run_textLine_of_lookup hl]
    have hknown := h.text_iff.1 hl
    refine ⟨⟨fun hp => ?_, fun hnot => absurd hknown (hnot lines)⟩, h.config_eq, ?_, ?_⟩
    · have hp := h.text_iff.2 hp
      rw [hl, Option.some.injEq] at hp
      subst hp
      exact ⟨rfl, rfl⟩
    · exact h.path_iff.trans knowsPath_append_line.symm
    · intro other found
      rw [knowsText_append_line, h.text_iff, iff_self_or]
      rintro ⟨-, hread, -⟩
      cases hread
  | none =>
    have hnot : ∀ lines, ¬KnowsText s before path lines := by
      intro lines hp
      rw [← h.text_iff, hl] at hp
      cases hp
    cases hlines : TextCache.linesIn fs path with
    | error e =>
      rw [lineUse, perform, called, run_textLine_of_error hl hlines]
      refine ⟨⟨fun hp => absurd hp (hnot _), fun _ => ⟨by rw [hlines]; rfl, rfl⟩⟩,
        h.config_eq, ?_, ?_⟩
      · exact h.path_iff.trans knowsPath_append_line.symm
      · intro other found
        rw [knowsText_append_line, h.text_iff, iff_self_or]
        -- The file has been read, but nothing of it is known for that.
        rintro ⟨rfl, -, hfound⟩
        rw [hlines] at hfound
        cases hfound
    | ok lines =>
      rw [lineUse, perform, called, run_textLine_of_ok hl hlines]
      refine ⟨⟨fun hp => absurd hp (hnot _), fun _ => ⟨by rw [hlines]; rfl, rfl⟩⟩,
        h.config_eq, ?_, ?_⟩
      · exact h.path_iff.trans knowsPath_append_line.symm
      · intro other found
        rw [knowsText_append_line, ← h.text_iff]
        refine (lookup_cons_eq_some_iff hl).trans (or_congr_right (and_congr_right ?_))
        rintro rfl
        rw [hlines, Except.ok.injEq]
        exact (and_iff_right (List.mem_singleton_self _)).symm

/-- Each step of a question goes as what is known before it says. -/
theorem Holds.course {act : Action α} (h : Holds s before s') (hcourse : Course fs act s' uses) :
    AllFollow s before uses ∧ Holds s (before ++ uses) (perform fs act s').2 := by
  induction hcourse generalizing before with
  | pure a s' => exact ⟨trivial, by rwa [List.append_nil]⟩
  | warn w s' => exact ⟨trivial, by rwa [List.append_nil]⟩
  | get _ _ ih =>
    rw [perform_bind, perform_get]
    exact ih h
  | bind _ _ ih ihf =>
    obtain ⟨huses, hmid⟩ := ih h
    obtain ⟨hmore, hend⟩ := ihf hmid
    rw [perform_bind, ← List.append_assoc]
    exact ⟨allFollow_append.2 ⟨huses, hmore⟩, hend⟩
  | resolveName name s' =>
    obtain ⟨hfollows, hend⟩ := h.resolveName fs name
    exact ⟨⟨hfollows, trivial⟩, hend⟩
  | textLine path index s' =>
    obtain ⟨hfollows, hend⟩ := h.textLine fs path index
    exact ⟨⟨hfollows, trivial⟩, hend⟩

theorem Holds.history {turns : List Turn} (h : Holds s before s')
    (hturns : History s' turns uses) :
    AllFollow s before uses ∧ Holds s (before ++ uses) (s'.after turns) := by
  induction hturns generalizing before with
  | nil s' => exact ⟨trivial, by rwa [List.append_nil]⟩
  | cons hcourse _ ih =>
    obtain ⟨huses, hmid⟩ := h.course hcourse
    obtain ⟨hmore, hend⟩ := ih hmid
    rw [← List.append_assoc]
    exact ⟨allFollow_append.2 ⟨huses, hmore⟩, hend⟩

/-- The names that are asked for, each as often as it is. -/
def names (uses : List Use) : List String := uses.filterMap Use.name?

theorem mem_names : name ∈ names uses ↔ ∃ u, .name u ∈ uses ∧ u.name = name := by
  rw [names, List.mem_filterMap]
  constructor
  · rintro ⟨use, hmem, hname⟩
    cases use with
    | name u => exact ⟨u, hmem, Option.some.inj hname⟩
    | line u => cases hname
  · rintro ⟨u, hmem, hname⟩
    exact ⟨.name u, hmem, congrArg some hname⟩

theorem names_append_name (uses : List Use) (u : NameUse) :
    names (uses ++ [.name u]) = names uses ++ [u.name] :=
  List.filterMap_append

theorem names_append_line (uses : List Use) (u : LineUse) :
    names (uses ++ [.line u]) = names uses :=
  List.filterMap_append.trans (List.append_nil _)

/-- Only the first use of a name makes probes. -/
theorem AllFollow.countP_calls_le (h : AllFollow s [] uses) :
    (uses.flatMap Use.calls).countP Call.isProbe ≤
      (names uses).toFinset.card * s.resolver.config.probeLimit := by
  -- By the last use: what is known before it decides whether it makes probes.
  induction uses using List.reverseRecOn with
  | nil => exact Nat.zero_le _
  | append_singleton uses u ih =>
    replace ih := ih (allFollow_append.1 h).1
    have hu : u.Follows s uses := h.follows
    rw [List.flatMap_append, List.countP_append, List.flatMap_singleton]
    cases u with
    | line u =>
      have hnone : u.calls.countP Call.isProbe = 0 := by
        rw [List.countP_eq_zero]
        intro call hcall
        rw [LineUse.Follows.eq_read hu call hcall]
        exact Bool.false_ne_true
      rw [names_append_line, Use.calls, hnone]
      exact ih
    | name u =>
      rw [names_append_name, List.toFinset_append, Finset.union_comm]
      change _ ≤ (insert u.name (names uses).toFinset).card * _
      by_cases hmem : u.name ∈ names uses
      · obtain ⟨v, hv, hname⟩ := mem_names.1 hmem
        have hcalls := (NameUse.Follows.known hu (.inr ⟨v, hv, hname, rfl⟩)).2
        rw [Finset.insert_eq_of_mem (List.mem_toFinset.2 hmem), Use.calls, hcalls]
        exact ih
      · rw [Finset.card_insert_of_notMem (mt List.mem_toFinset.1 hmem), Nat.succ_mul]
        exact Nat.add_le_add ih (List.countP_le_length.trans (NameUse.Follows.probes hu).2)

/-- What is asked of the host on behalf of some uses, and what becomes of them, in a session that
remembers. -/
structure Memoized (s : Session) (uses : List Use) : Prop where
  /-- A name that is not known is looked for with probes, as the files are then. -/
  finds : ∀ {before later u}, uses = before ++ .name u :: later →
    (∀ path, ¬KnowsPath s before u.name path) →
      u.path = ((s.resolver.config.resolve u.name).run u.files).value ∧
      u.calls = ((s.resolver.config.resolve u.name).run u.files).calls ∧
      ∀ call ∈ u.calls, call.isProbe = true
  /-- A known name stays where it was found, and costs nothing. -/
  keeps : ∀ {before later name path}, uses = before ++ later → KnowsPath s before name path →
    ∀ u, .name u ∈ later → u.name = name → u.path = path ∧ u.calls = []
  /-- So there are no more probes than one name takes for each of the names. -/
  countP_le : (uses.flatMap Use.calls).countP Call.isProbe ≤
    (names uses).toFinset.card * (s.resolver.config.workspaceRoots.length +
      s.resolver.config.sourceRoots.length + 1)
  /-- While no read of a file has succeeded, each line of it is read for, as the files are then. -/
  reads : ∀ {before later u}, uses = before ++ .line u :: later →
    (∀ lines, ¬KnowsText s before u.path lines) →
      u.calls = [.read u.path] ∧ u.answer = (TextCache.linesIn u.files u.path).map (·[u.index]?)
  /-- Once one has succeeded, the file is not read any more, and its lines are those read then. -/
  remembers : ∀ {before later path lines}, uses = before ++ later → KnowsText s before path lines →
    .read path ∉ later.flatMap Use.calls ∧
      ∀ u, .line u ∈ later → u.path = path → u.answer = .ok lines[u.index]?

theorem AllFollow.of_mem {u : Use} (h : AllFollow s [] (before ++ later)) (hu : u ∈ later) :
    ∃ between, u.Follows s (before ++ between) := by
  obtain ⟨between, rest, rfl⟩ := List.append_of_mem hu
  rw [← List.append_assoc] at h
  exact ⟨between, h.follows⟩

theorem AllFollow.memoized (h : AllFollow s [] uses) : Memoized s uses where
  finds := by
    rintro before later u rfl hnot
    have hu : u.Follows s before := h.follows
    obtain ⟨hpath, hcalls⟩ := hu.unknown hnot
    exact ⟨hpath, hcalls, hu.probes.1⟩
  keeps := by
    rintro before later name path rfl hknown u hmem rfl
    obtain ⟨between, hu⟩ := h.of_mem hmem
    exact NameUse.Follows.known hu (hknown.append between)
  countP_le := h.countP_calls_le
  reads := by
    rintro before later u rfl hnot
    have hu : u.Follows s before := h.follows
    exact (hu.unknown hnot).symm
  remembers := by
    rintro before later path lines rfl hknown
    constructor
    · intro hread
      obtain ⟨use, hmem, hcall⟩ := List.mem_flatMap.1 hread
      obtain ⟨between, hfollows⟩ := h.of_mem hmem
      cases use with
      | name u =>
        have hprobe := (NameUse.Follows.probes hfollows).1 _ hcall
        cases hprobe
      | line u =>
        have hpath : path = u.path := HostText.ofText_injective <|
          Call.read.inj (LineUse.Follows.eq_read hfollows _ hcall)
        subst hpath
        have hcalls := (LineUse.Follows.known hfollows (hknown.append between)).2
        rw [Use.calls, hcalls] at hcall
        cases hcall
    · rintro u hmem rfl
      obtain ⟨between, hu⟩ := h.of_mem hmem
      exact (LineUse.Follows.known hu (hknown.append between)).1

/-- Between one load and the next, whatever happens to the files, the calls of a session are those
of names and lines that are asked for one after the other. These are memoized, and the caches hold
what is known of them. -/
theorem memoized_of_questions {turns : List Turn}
    (h : ∀ t ∈ turns, t.request.isQuestion = true) (s : Session) :
    (∃ uses, History s turns uses) ∧ ∀ uses, History s turns uses →
      (s.observed turns).flatMap Trace.calls = uses.flatMap Use.calls ∧ Memoized s uses ∧
        Holds s uses (s.after turns) := by
  refine ⟨exists_history h s, fun uses hturns => ?_⟩
  obtain ⟨hfollow, hholds⟩ := (holds_nil s).history hturns
  exact ⟨hturns.calls_eq, hfollow.memoized, hholds⟩

/-- A session that looks for `a.c` in a directory. -/
def atWork : Session := start oneSource ⟨[], ["/work"], []⟩

/-- The file comes to be readable, and is removed after that. -/
def comingAndGoing : List Turn := [
  ⟨Store.fileSystem [("/work/a.c", none)], .sourceLine "a.c" 0⟩,
  ⟨Store.fileSystem [("/work/a.c", some [0x61, 0x0A, 0x62])], .sourceLine "a.c" 1⟩,
  ⟨Store.fileSystem [], .sourceLine "a.c" 0⟩]

theorem memoized_comingAndGoing :
    (∀ t ∈ comingAndGoing, t.request.isQuestion = true) ∧
    (atWork.observed comingAndGoing).map (fun trace => (trace.value, trace.calls)) = [
      (.failed (.sourceUnreadable "/work/a.c" "unreadable"),
        [.probe "/work/a.c", .read "/work/a.c"]),
      (.line (some "b"), [.read "/work/a.c"]),
      (.line (some "a"), [])] ∧
    (∃ uses, History atWork comingAndGoing uses) ∧
    ∀ uses, History atWork comingAndGoing uses →
      (atWork.observed comingAndGoing).flatMap Trace.calls = uses.flatMap Use.calls ∧
        Memoized atWork uses ∧ Holds atWork uses (atWork.after comingAndGoing) := by
  have hquestions : ∀ t ∈ comingAndGoing, t.request.isQuestion = true := by decide
  exact ⟨hquestions, by decide +kernel, memoized_of_questions hquestions atWork⟩

end Session
end AmigaHunk
