import AmigaHunk.Platform.Arguments
import AmigaHunk.Platform.Disk
import AmigaHunk.Platform.Log

/-! The program on a machine in memory. -/
namespace AmigaHunk

/-- The disk, and the texts shown on the screen so far, each of which a line feed follows. -/
structure Machine where
  disk : Disk
  screen : List String
  deriving DecidableEq, Repr

namespace Machine

def onDisk (change : Disk → Except Refusal Disk) : StateM Machine (Except String Unit) := do
  let machine ← get
  match change machine.disk with
  | .error r => return .error r.message
  | .ok disk =>
    set { machine with disk := disk }
    return .ok ()

def logHost (getVariable : String → Option String) (date : String) :
    LogHost LogFilter (StateM Machine) where
  filters := LogFilter.library
  getVariable := getVariable
  date := date
  screen filter format e := do
    if filter.admits e then
      modify fun machine => { machine with screen := machine.screen ++ [e.text format.onScreen] }
  makeDirectory path := onDisk (·.makeDirectory path)
  openFile file filter format := do
    match ← onDisk (·.touch file.path) with
    | .error _ => return none
    | .ok () => return some fun e => do
      if filter.admits e then
        let line := Utf8.encode (e.text format.inFile ++ "\n")
        modify fun machine => { machine with disk := machine.disk.append file.path line }

def platform (getVariable : String → Option String) (date : String) :
    Platform (List String) (StateM Machine) where
  parse := Scan.parse
  setUpLog := (logHost getVariable date).setUp
  working := do return .ok (← get).disk.workingPath
  has path := do return (← get).disk.has path
  read path := do return ((← get).disk.read path).mapError (·.message)

end Machine
end AmigaHunk
