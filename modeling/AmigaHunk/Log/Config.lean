import AmigaHunk.Event
import AmigaHunk.Host.Text

/-! What is logged, how and where: the settings, as the environment gives them, and the set-up of
the log from them. What filters look like, and how a log is written, is left to libraries. -/
namespace AmigaHunk

/-- The characters with the White_Space property. -/
def isBlank (c : Char) : Bool :=
  let n := c.toNat
  (9 ≤ n && n ≤ 13) || n == 0x20 || n == 0x85 || n == 0xA0 || n == 0x1680 ||
    (0x2000 ≤ n && n ≤ 0x200A) || n == 0x2028 || n == 0x2029 || n == 0x202F ||
    n == 0x205F || n == 0x3000

/-- A text without a single visible character. -/
def isBlankText (s : String) : Bool := s.toList.all isBlank

/-- A log file, which carries the date in its name. -/
structure LogFile where
  directory : String
  name : String
  deriving DecidableEq, Repr

namespace LogFile

def usualName : String := "hunkdbg.log"

/-- The file asked for, with the date in front of its name. A path without a name is a directory for
a file of the usual name. -/
def dated (requested date : String) : LogFile :=
  let (directory, name) := Path.splitLast requested
  ⟨directory, s!"{date}-{name.getD usualName}"⟩

def path (f : LogFile) : String := String.ofList (Path.push '/' f.directory.toList f.name.toList)

end LogFile

structure LogConfig where
  level : Option LogLevel
  directives : Option String
  format : LogFormat
  file : Option String
  deriving DecidableEq, Repr

inductive LogError where
  | format (name : String)
  | directives (text cause : String)
  | file (cause : String)
  deriving DecidableEq, Repr

def LogError.message : LogError → String
  | format name => s!"Invalid log format: {LogFormat.parseMessage name}"
  | directives text cause => s!"Invalid log level: {text}: {cause}"
  | file cause => s!"File logging error: {cause}"

/-- How events are chosen: by a level, or by directives in a text. -/
structure FilterLibrary (Filter : Type) where
  ofLevel : LogLevel → Filter
  ofDirectives : String → Except String Filter

namespace LogConfig

def directivesVariable : String := "RUST_LOG"

def formatVariable : String := "HUNKDBG_LOG_FORMAT"

def fileVariable : String := "HUNKDBG_LOG_FILE"

def unset : LogConfig := ⟨none, none, .pretty, none⟩

/-- A variable that is blank, or, for the file, empty, counts as not set. -/
def ofEnvironment (lookup : String → Option String) : Except LogError LogConfig := do
  let format ← match lookup formatVariable with
    | none => pure .pretty
    | some name =>
      match LogFormat.parse? name with
      | some format => pure format
      | none => throw (.format name)
  return ⟨none, (lookup directivesVariable).filter (!isBlankText ·), format,
    (lookup fileVariable).filter (· ≠ "")⟩

/-- The settings of a program run. A level given to the program makes the format pretty, and wins
over an environment that is in error. -/
def ofRun (level : Option LogLevel) (lookup : String → Option String) :
    Except LogError LogConfig :=
  match level with
  | none => ofEnvironment lookup
  | some level =>
    let config := (ofEnvironment lookup).toOption.getD unset
    .ok { config with level := some level, format := .pretty }

/-- A level wins over directives; without either, warnings are logged. -/
def filter {Filter : Type} (library : FilterLibrary Filter) (config : LogConfig) :
    Except LogError Filter :=
  match config.level, config.directives with
  | some level, _ => .ok (library.ofLevel level)
  | none, none => .ok (library.ofLevel .warn)
  | none, some text => (library.ofDirectives text).mapError (.directives text)

end LogConfig

/-- Why a run has no log: its settings are in error, or the file cannot be opened in its directory,
which ends the program at once. -/
inductive LogFailure where
  | error (e : LogError)
  | crash
  deriving DecidableEq, Repr

/-- What logging needs of its libraries and of the host. The date is in the form of log file names;
the two writers are made from a filter and a format, and the file is opened to be added to. -/
structure LogHost (Filter : Type) (m : Type → Type) where
  filters : FilterLibrary Filter
  getVariable : String → Option String
  date : String
  screen : Filter → LogFormat → Event → m Unit
  makeDirectory : String → m (Except String Unit)
  openFile : LogFile → Filter → LogFormat → m (Option (Event → m Unit))

namespace LogHost
variable {Filter : Type} {m : Type → Type}

/-- The settings of a run, with the filter that they ask for. -/
def settings (host : LogHost Filter m) (level : Option LogLevel) :
    Except LogError (LogConfig × Filter) := do
  let config ← LogConfig.ofRun level host.getVariable
  return (config, ← config.filter host.filters)

/-- Makes a writer of events from the settings of a run. The file comes last, and its directory is
made before it. -/
def setUp [Monad m] (host : LogHost Filter m) (level : Option LogLevel) :
    m (Except LogFailure (Event → m Unit)) := do
  match host.settings level with
  | .error e => return .error (.error e)
  | .ok (config, filter) =>
    let screen := host.screen filter config.format
    match config.file.map (LogFile.dated · host.date) with
    | none => return .ok screen
    | some file =>
      match ← host.makeDirectory file.directory with
      | .error cause => return .error (.error (.file cause))
      | .ok () =>
        match ← host.openFile file filter config.format with
        | none => return .error .crash
        | some write => return .ok fun e => do
          screen e
          write e

end LogHost
end AmigaHunk
