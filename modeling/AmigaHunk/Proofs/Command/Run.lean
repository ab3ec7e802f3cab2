import AmigaHunk.Command.Program
import AmigaHunk.Proofs.Session.Run

/-! Runs of the program on files that stay as they are. Only the log is written, in a state of its
own, and what comes of that, the libraries for logging and the host decide. -/
namespace AmigaHunk

open Session (perform)

theorem StateM.run_bind_of {σ α β : Type} {act : StateM σ α} {w w' : σ} {a : α}
    (h : act.run w = (a, w')) (f : α → StateM σ β) : (act >>= f).run w = (f a).run w' := by
  change (f (act.run w).1).run (act.run w).2 = _
  rw [h]

/-- The state of a log behind events that are written one after the other. -/
def Event.written {σ : Type} (write : Event → StateM σ Unit) (events : List Event) (w : σ) : σ :=
  events.foldl (fun w e => ((write e).run w).2) w

theorem Query.run_performBy {α σ : Type} (fs : FileSystem) (write : Event → StateM σ Unit)
    (q : Query α) (w : σ) :
    (q.performBy ⟨(pure <| fs.has ·), (pure <| fs.read ·), write⟩).run w =
      ((q.run fs).value, Event.written write (q.run fs).events w) := by
  induction q generalizing w with
  | done a => rfl
  | probe path next ih => exact ih (fs.has path) w
  | read path next ih => exact ih (fs.read path) w
  | tell e next ih => exact ih ((write e).run w).2

namespace LogHost
variable {Filter σ : Type} {log : LogHost Filter (StateM σ)} {level : Option LogLevel} {w w' : σ}
  {write : Event → StateM σ Unit}

/-- How a log can be set up: on the screen alone, or on the screen and in a file. -/
inductive SetsUp (log : LogHost Filter (StateM σ)) (level : Option LogLevel) (w : σ) :
    (Event → StateM σ Unit) → σ → Prop
  | onScreen {config : LogConfig} {filter : Filter}
    (hsettings : log.settings level = .ok (config, filter)) (hfile : config.file = none) :
    SetsUp log level w (log.screen filter config.format) w
  | inFile {config : LogConfig} {filter : Filter} {requested : String} {w₁ w₂ : σ}
    {write : Event → StateM σ Unit} (hsettings : log.settings level = .ok (config, filter))
    (hfile : config.file = some requested)
    (hmake : (log.makeDirectory (LogFile.dated requested log.date).directory).run w = (.ok (), w₁))
    (hopen : (log.openFile (.dated requested log.date) filter config.format).run w₁ =
      (some write, w₂)) :
    SetsUp log level w (fun e => do
      log.screen filter config.format e
      write e) w₂

theorem run_setUp_eq_ok_iff :
    (log.setUp level).run w = (.ok write, w') ↔ log.SetsUp level w write w' := by
  constructor
  · intro h
    rw [setUp] at h
    cases hsettings : log.settings level with
    | error e =>
      rw [hsettings] at h
      cases h
    | ok settings =>
      obtain ⟨config, filter⟩ := settings
      simp only [hsettings] at h
      cases hfile : config.file with
      | none =>
        simp only [hfile] at h
        cases h
        exact .onScreen hsettings hfile
      | some requested =>
        simp only [hfile, Option.map_some] at h
        cases hmake : (log.makeDirectory (LogFile.dated requested log.date).directory).run w with
        | mk made w₁ =>
          rw [StateM.run_bind_of hmake] at h
          cases made with
          | error cause => cases h
          | ok =>
            cases hopen :
                (log.openFile (.dated requested log.date) filter config.format).run w₁ with
            | mk opened w₂ =>
              change StateT.run (_ >>= _) w₁ = _ at h
              rw [StateM.run_bind_of hopen] at h
              cases opened with
              | none => cases h
              | some write =>
                cases h
                exact .inFile hsettings hfile hmake hopen
  · rintro (⟨hsettings, hfile⟩ | ⟨hsettings, hfile, hmake, hopen⟩)
    · simp only [setUp, hsettings, hfile]
      rfl
    · simp only [setUp, hsettings, hfile, Option.map_some]
      rw [StateM.run_bind_of hmake]
      change StateT.run (_ >>= _) _ = _
      rw [StateM.run_bind_of hopen]
      rfl

/-- A log file that has been opened in its directory, and written to, can be opened there again. -/
def Reopens (log : LogHost Filter (StateM σ)) : Prop :=
  ∀ (file : LogFile) (filter : Filter) (format : LogFormat) (w w₁ w₂ : σ)
    (write : Event → StateM σ Unit),
    (log.makeDirectory file.directory).run w = (.ok (), w₁) →
    (log.openFile file filter format).run w₁ = (some write, w₂) →
    ∀ events, ∃ w₃ again w₄,
      (log.makeDirectory file.directory).run (Event.written (fun e => do
        log.screen filter format e
        write e) events w₂) = (.ok (), w₃) ∧
      (log.openFile file filter format).run w₃ = (some again, w₄)

theorem Reopens.run_setUp (h : log.Reopens) (hsetUp : (log.setUp level).run w = (.ok write, w'))
    (events : List Event) :
    ∃ again w'', (log.setUp level).run (Event.written write events w') = (.ok again, w'') := by
  simp only [run_setUp_eq_ok_iff] at hsetUp ⊢
  cases hsetUp with
  | onScreen hsettings hfile => exact ⟨_, _, .onScreen hsettings hfile⟩
  | inFile hsettings hfile hmake hopen =>
    obtain ⟨w₁, again, w₂, hmake, hopen⟩ := h _ _ _ _ _ _ _ hmake hopen events
    exact ⟨_, _, .inFile hsettings hfile hmake hopen⟩

end LogHost

theorem Command.report_eq_ok_iff {c : Command} {fs : FileSystem} {s : Session}
    {lines : List String} : (perform fs c.report s).1 = .ok lines ↔
    ∃ bytes hunks, fs.has c.program = true ∧ fs.read c.program = .ok bytes ∧
      (File.decode bytes).result = .ok hunks ∧
      (perform fs c.task.report (Session.start hunks s.resolver.config)).1 = .ok lines := by
  rw [report, Session.perform_bind]
  have hloads := Session.loads_load fs c.program s
  generalize perform fs (Session.load c.program) s = result at hloads
  cases hloads with
  | missing h => exact ⟨nofun, fun ⟨_, _, h', _⟩ => by rw [h] at h'; cases h'⟩
  | unreadable _ hread => exact ⟨nofun, fun ⟨_, _, _, h', _⟩ => by rw [hread] at h'; cases h'⟩
  | malformed _ hread hdecode =>
    refine ⟨nofun, fun ⟨_, _, _, hread', hdecode', _⟩ => ?_⟩
    obtain rfl := Except.ok.inj (hread.symm.trans hread')
    cases hdecode.symm.trans hdecode'
  | @loaded bytes hunks h hread hdecode =>
    refine ⟨fun htask => ⟨bytes, hunks, h, hread, hdecode, htask⟩, ?_⟩
    rintro ⟨bytes', hunks', -, hread', hdecode', htask⟩
    obtain rfl := Except.ok.inj (hread.symm.trans hread')
    obtain rfl := Except.ok.inj (hdecode.symm.trans hdecode')
    exact htask

namespace Platform
variable {Args Filter σ : Type}

/-- A platform on which nothing but the log is written. -/
def still (parse : Args → Except Exit CommandLine) (log : LogHost Filter (StateM σ))
    (working : Except String HostText) (fs : FileSystem) : Platform Args (StateM σ) :=
  ⟨parse, log.setUp, pure working, (pure <| fs.has ·), (pure <| fs.read ·)⟩

variable {parse : Args → Except Exit CommandLine} {log : LogHost Filter (StateM σ)}
  {working : Except String HostText} {fs : FileSystem} {args : Args} {line : CommandLine}
  {w w' : σ} {command : Command} {write : Event → StateM σ Unit} {config : PathConfig}

@[simp] theorem still_parse : (still parse log working fs).parse = parse := rfl

@[simp] theorem still_setUpLog : (still parse log working fs).setUpLog = log.setUp := rfl

@[simp] theorem run_still_working :
    (still parse log working fs).working.run w = (working, w) := rfl

theorem run_report (command : Command) (write : Event → StateM σ Unit) (w : σ) :
    ((still parse log working fs).report command config write).run w =
      ((perform fs command.report (.start [] config)).1,
        Event.written write ((command.report.run (.start [] config)).run fs).events w) :=
  StateM.run_bind_of (Query.run_performBy fs write _ w) _

theorem run_still (fs : FileSystem) (hparse : parse args = .ok line)
    (hcommand : line.command? = some command)
    (hlog : (log.setUp line.options.logLevel).run w = (.ok write, w'))
    (hpaths : line.options.paths working = .ok config) :
    ∃ events, ((still parse log working fs).run args).run w =
      (.ofReport (perform fs command.report (.start [] config)).1,
        Event.written write events w') := by
  refine ⟨((command.report.run (.start [] config)).run fs).events, ?_⟩
  simp only [run, still_parse, hparse, hcommand, still_setUpLog]
  rw [StateM.run_bind_of hlog]
  simp only
  rw [StateM.run_bind_of run_still_working, hpaths]
  exact StateM.run_bind_of (run_report command write w') _

/-- A run with exit code zero has come to a report, and has printed it. -/
theorem exists_report_of_run_still (hparse : parse args = .ok line)
    (hcode : (((still parse log working fs).run args).run w).1.code = 0) :
    ∃ command write w' config lines events, line.command? = some command ∧
      (log.setUp line.options.logLevel).run w = (.ok write, w') ∧
      line.options.paths working = .ok config ∧
      (perform fs command.report (.start [] config)).1 = .ok lines ∧
      ((still parse log working fs).run args).run w =
        (⟨0, lines, []⟩, Event.written write events w') := by
  have hended := hcode
  simp only [run, still_parse, hparse] at hended
  cases hcommand : line.command? with
  | none =>
    simp only [hcommand] at hended
    cases hended
  | some command =>
    simp only [hcommand, still_setUpLog] at hended
    cases hlog : (log.setUp line.options.logLevel).run w with
    | mk made w' =>
      rw [StateM.run_bind_of hlog] at hended
      cases made with
      | error failure => cases failure <;> cases hended
      | ok write =>
        simp only at hended
        rw [StateM.run_bind_of run_still_working] at hended
        cases hpaths : line.options.paths working with
        | error cause =>
          rw [hpaths] at hended
          cases hended
        | ok config =>
          obtain ⟨events, hrun⟩ := run_still fs hparse hcommand hlog hpaths
          cases hreport : (perform fs command.report (.start [] config)).1 with
          | error message =>
            rw [hrun, hreport] at hcode
            cases hcode
          | ok lines =>
            rw [hreport] at hrun
            exact ⟨command, write, w', config, lines, events, rfl, rfl, rfl, hreport, hrun⟩

end Platform
end AmigaHunk
