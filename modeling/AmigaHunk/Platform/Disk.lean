import AmigaHunk.Host.Query

/-! A tree of directories and files, with paths as a POSIX system understands them. It stands in for
the files of a real host, so that the program can be run, and nothing is proved about it. -/
namespace AmigaHunk

/-- Why the system refuses a path. -/
inductive Refusal where
  | missing
  | denied
  | taken
  | notDirectory
  | isDirectory
  | nameTooLong
  | zeroInside
  deriving DecidableEq, Repr

def Refusal.message : Refusal → String
  | missing => "No such file or directory (os error 2)"
  | denied => "Permission denied (os error 13)"
  | taken => "File exists (os error 17)"
  | notDirectory => "Not a directory (os error 20)"
  | isDirectory => "Is a directory (os error 21)"
  | nameTooLong => "File name too long (os error 36)"
  | zeroInside => "file name contained an unexpected NUL byte"

/-- The most bytes that a path may have. -/
def longestPath : Nat := 4095

/-- Why a text is no path at all, wherever it leads. -/
def Refusal.ofText? (path : HostText) : Option Refusal :=
  if path.bytes.contains 0 then some .zeroInside
  else if path.bytes = [] then some .missing
  else if longestPath < path.bytes.length then some .nameTooLong
  else none

/-- The names on the way down from the root. -/
abbrev Trail := List HostText

/-- The directories below the root, the files, and the directory that relative paths start from. -/
structure Disk where
  directories : List Trail
  files : List (Trail × Content)
  working : Trail
  deriving DecidableEq, Repr

/-- Where a path leads: to a directory, to a file, or to nothing yet in a directory. -/
inductive Node where
  | directory (trail : Trail)
  | file (trail : Trail) (content : Content)
  | free (trail : Trail)
  deriving DecidableEq, Repr

namespace Disk

def node (d : Disk) (trail : Trail) : Node :=
  match d.files.lookup trail with
  | some content => .file trail content
  | none => if d.directories.contains trail then .directory trail else .free trail

/-- The most bytes that a name may have. -/
def longestName : Nat := 255

/-- One name further on a way, from a directory. -/
def step (d : Disk) (name : HostText) : Node → Except Refusal Node
  | .directory trail =>
    if name = .ofText "" ∨ name = .ofText "." then .ok (.directory trail)
    else if name = .ofText ".." then .ok (.directory trail.dropLast)
    else if longestName < name.bytes.length then .error .nameTooLong
    else .ok (d.node (trail ++ [name]))
  | .file .. => .error .notDirectory
  | .free _ => .error .missing

def names (path : HostText) : List HostText := (path.bytes.splitOn HostText.slash).map (⟨·⟩)

/-- Where a path starts, and the names on it. -/
def origin (d : Disk) (path : HostText) : Node :=
  .directory (if (names path).head? = some (.ofText "") then [] else d.working)

def walk (d : Disk) (path : HostText) : Except Refusal Node :=
  match Refusal.ofText? path with
  | some r => .error r
  | none => (names path).foldlM (fun node name => d.step name node) (d.origin path)

def has (d : Disk) (path : HostText) : Bool :=
  match d.walk path with
  | .ok (.directory _) | .ok (.file ..) => true
  | _ => false

def read (d : Disk) (path : HostText) : Except Refusal (List UInt8) :=
  match d.walk path with
  | .ok (.file _ (some bytes)) => .ok bytes
  | .ok (.file _ none) => .error .denied
  | .ok (.directory _) => .error .isDirectory
  | .ok (.free _) => .error .missing
  | .error r => .error r

/-- Puts a file at a trail, with the directories on the way to it. -/
def addFile (d : Disk) (trail : Trail) (content : Content) : Disk :=
  let above := (List.range trail.length).map trail.take
  { d with
    directories := d.directories ++ above.filter fun t => t ≠ [] && !d.directories.contains t
    files := d.files ++ [(trail, content)] }

/-- Makes one directory; one that is there already will do. -/
def makeOne (d : Disk) (path : HostText) : Except Refusal Disk := do
  match ← d.walk path with
  | .directory _ => return d
  | .file .. => throw .taken
  | .free trail => return { d with directories := d.directories ++ [trail] }

/-- Makes the first of the paths. If its place is missing, the paths behind it are made before. -/
def makeFirst (d : Disk) : List HostText → Except Refusal Disk
  | [] => .ok d
  | path :: above =>
    match d.makeOne path with
    | .error .missing => do (← d.makeFirst above).makeOne path
    | made => made

/-- Makes a directory, with those on the way to it as far as they are missing. -/
def makeDirectory (d : Disk) (path : String) : Except Refusal Disk :=
  d.makeFirst ((Path.ancestors path).map .ofText)

/-- Makes an empty file, unless there is a file already. -/
def touch (d : Disk) (path : HostText) : Except Refusal Disk := do
  match ← d.walk path with
  | .directory _ => throw .isDirectory
  | .file _ none => throw .denied
  | .file _ (some _) => return d
  | .free trail => return { d with files := d.files ++ [(trail, some [])] }

/-- Adds bytes to a file that is there. -/
def append (d : Disk) (path : HostText) (bytes : List UInt8) : Disk :=
  match d.walk path with
  | .ok (.file trail (some old)) =>
    { d with files := d.files.map fun (t, content) =>
        if t = trail then (t, some (old ++ bytes)) else (t, content) }
  | _ => d

/-- The path of the working directory. -/
def workingPath (d : Disk) : HostText :=
  ⟨HostText.slash :: [HostText.slash].intercalate (d.working.map (·.bytes))⟩

end Disk
end AmigaHunk
