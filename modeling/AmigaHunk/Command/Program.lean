import AmigaHunk.Command.Line
import AmigaHunk.Log.Config

/-! A run of the program: from its arguments to what it prints. -/
namespace AmigaHunk

/-- What a run ends with: its exit code, and the texts for the two outputs, each of which a line
feed follows. -/
structure Exit where
  code : Nat
  output : List String
  complaints : List String
  deriving DecidableEq, Repr

namespace Exit

/-- The end of a run whose arguments are in error. The parser says why. -/
def misuse : Exit := ⟨2, [], []⟩

def ofLogFailure : LogFailure → Exit
  | .error e => ⟨1, [], [s!"Failed to initialize logging: {e.message}"]⟩
  | .crash => ⟨101, [], []⟩

def ofReport : Report → Exit
  | .ok lines => ⟨0, lines, []⟩
  | .error message => ⟨1, [], [s!"Error: {message}"]⟩

end Exit

/-- What the program is given: a parser for its arguments, which may end the run at once, the set-up
of the log, which makes a writer of events, and the files of the host. -/
structure Platform (Args : Type) (m : Type → Type) where
  parse : Args → Except Exit CommandLine
  setUpLog : Option LogLevel → m (Except LogFailure (Event → m Unit))
  working : m (Except String HostText)
  has : HostText → m Bool
  read : HostText → m (Except String (List UInt8))

namespace Platform
variable {Args : Type} {m : Type → Type} [Monad m]

/-- The report of a command, in a session of its own. -/
def report (p : Platform Args m) (command : Command) (config : PathConfig)
    (tell : Event → m Unit) : m Report := do
  let query := command.report.run (.start [] config)
  return (← query.performBy ⟨p.has, p.read, tell⟩).1

def run (p : Platform Args m) (args : Args) : m Exit := do
  match p.parse args with
  | .error exit => return exit
  | .ok line =>
    match line.command? with
    | none => return .misuse
    | some command =>
      match ← p.setUpLog line.options.logLevel with
      | .error failure => return .ofLogFailure failure
      | .ok tell =>
        match line.options.paths (← p.working) with
        | .error cause => return .ofReport (.error cause)
        | .ok config => return .ofReport (← p.report command config tell)

end Platform
end AmigaHunk
