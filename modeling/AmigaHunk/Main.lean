import AmigaHunk.Platform.Machine
import Std.Time.Format

/-! The program on a real system. Paths are texts here, so a path that is none does not exist. -/
namespace AmigaHunk.Console

/-- The text of an error with the number that the system gives it. -/
def cause : IO.Error → String
  | .alreadyExists _ code text | .noFileOrDirectory _ code text | .inappropriateType _ code text
  | .permissionDenied _ code text | .invalidArgument _ code text | .interrupted _ code text
  | .resourceExhausted _ code text | .noSuchThing _ code text => s!"{text} (os error {code})"
  | .otherError code text | .resourceBusy code text | .illegalOperation code text
  | .unsupportedOperation code text | .hardwareFault code text => s!"{text} (os error {code})"
  | e => toString e

def refusal? (path : HostText) : Option Refusal :=
  (Refusal.ofText? path).or (if path.IsText then none else some .missing)

/-- Whether a path can be opened, or is there but refused. -/
def has (path : HostText) : IO Bool := do
  if (refusal? path).isSome then return false
  try
    let _ ← IO.FS.Handle.mk path.text .read
    return true
  catch e =>
    match e with
    | .permissionDenied .. => return true
    | _ => return false

def read (path : HostText) : IO (Except String (List UInt8)) := do
  if let some r := refusal? path then return .error r.message
  try
    return .ok (← IO.FS.readBinFile path.text).toList
  catch e => return .error (cause e)

/-- Makes one directory; one that is there already will do. -/
def makeOne (path : String) : IO Unit := do
  try IO.FS.createDir path
  catch e =>
    match e with
    | .alreadyExists .. => if !(← has (path ++ "/")) then throw e
    | _ => throw e

/-- Makes the first of the paths. If its place is missing, the paths behind it are made before. -/
def makeFirst : List String → IO Unit
  | [] => return
  | path :: above => do
    try makeOne path
    catch e =>
      match e with
      | .noFileOrDirectory .. => do
        makeFirst above
        makeOne path
      | _ => throw e

def today : IO String := do
  let day := (← Std.Time.Timestamp.now).toDaysSinceUnixEpoch
  return (Std.Time.PlainDate.ofEpochDay day).toSQLDateString

/-- Writes the events that a filter admits, each on a line of its own. -/
def write (stream : IO.FS.Stream) (filter : LogFilter) (style : LogStyle) (e : Event) :
    IO Unit := do
  if filter.admits e then stream.putStrLn (e.text style)

def logHost (getVariable : String → Option String) (date : String) : LogHost LogFilter IO where
  filters := LogFilter.library
  getVariable := getVariable
  date := date
  screen filter format e := do write (← IO.getStderr) filter format.onScreen e
  makeDirectory path := do
    try
      makeFirst (Path.ancestors path)
      return .ok ()
    catch e => return .error (cause e)
  openFile file filter format := do
    try
      let handle ← IO.FS.Handle.mk file.path .append
      return some (write (.ofHandle handle) filter format.inFile)
    catch _ => return none

def working : IO (Except String HostText) := do
  try
    return .ok (← IO.currentDir).toString
  catch e => return .error (cause e)

def platform : IO (Platform (List String) IO) := do
  let names := [LogConfig.directivesVariable, LogConfig.formatVariable, LogConfig.fileVariable]
  let values ← names.mapM fun name => do return (name, ← IO.getEnv name)
  let log := logHost (fun name => (values.lookup name).join) (← today)
  return ⟨Scan.parse, log.setUp, working, has, read⟩

end AmigaHunk.Console

open AmigaHunk Console in
def main (args : List String) : IO UInt32 := do
  let exit ← (← platform).run args
  exit.output.forM fun line => IO.println line
  exit.complaints.forM fun line => IO.eprintln line
  return UInt32.ofNat exit.code
