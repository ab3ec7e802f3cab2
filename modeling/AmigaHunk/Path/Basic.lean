/-! Paths as texts, separated by slashes. -/
namespace AmigaHunk.Path

def isAbsolute (p : String) : Bool := p.toList.head? == some '/'

/-- Whether a segment names something: empty ones and single dots do not. -/
def isNaming (segment : List Char) : Bool := segment ≠ [] && segment ≠ ['.']

/-- The naming segments. A dot in front of a relative path counts as well. -/
def pieces (p : List Char) : List (List Char) :=
  match p.splitOn '/' with
  | ['.'] :: segments => ['.'] :: segments.filter isNaming
  | segments => segments.filter isNaming

/-- Appends a piece behind a slash, unless the text is empty or ends with one. -/
def push {α : Type} [DecidableEq α] (slash : α) (text piece : List α) : List α :=
  if text = [] ∨ text.getLast? = some slash then text ++ piece else text ++ slash :: piece

/-- The name of the file that a path leads to, if the path says it. -/
def lastName? (p : String) : Option (List Char) :=
  ((p.toList.splitOn '/').filter isNaming).getLast?.filter (· ≠ ['.', '.'])

/-- The text of the way down the segments, nearest first, without the segments at its end that name
nothing. The root, or a dot at the start of a relative path, stays. -/
def wayDown (segments : List (List Char)) : List Char :=
  match segments.dropWhile (!isNaming ·), segments.getLast? with
  | [], some first => if first = [] then ['/'] else first
  | named, _ => ['/'].intercalate named.reverse

/-- The way down each segment that names something, from the nearest segment to the farthest. -/
def waysDown : List (List Char) → List (List Char)
  | [] => []
  | segment :: above =>
    if isNaming segment then wayDown (segment :: above) :: waysDown above else waysDown above

/-- A path and the directories above it, as far as they have names of their own, from the longest
text to the shortest. -/
def ancestors (p : String) : List String :=
  (waysDown (p.toList.splitOn '/').reverse).map String.ofList

/-- The directory of the file that a path leads to, and its name. A path that does not say the name
of a file is a directory. -/
def splitLast (p : String) : String × Option String :=
  let segments := (p.toList.splitOn '/').reverse
  match segments.dropWhile (!isNaming ·) with
  | [] => (String.ofList (wayDown segments), none)
  | name :: above =>
    if name = ['.', '.'] then (String.ofList (wayDown segments), none)
    else (String.ofList (wayDown above), some (String.ofList name))

/-- Whether two names of sources mean the same file: absolute paths must be equal, otherwise the
last names decide. -/
def same (p q : String) : Bool :=
  if isAbsolute p && isAbsolute q then p == q else lastName? p == lastName? q

/-- Makes each run of backslashes one slash; `inRun` says that one is under way. -/
def collapse : Bool → List Char → List Char
  | _, [] => []
  | inRun, c :: cs =>
    if c = '\\' then (if inRun then collapse true cs else '/' :: collapse true cs)
    else c :: collapse false cs

def normalize (p : String) : String := String.ofList (collapse false p.toList)

end AmigaHunk.Path
