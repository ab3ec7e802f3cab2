import AmigaHunk.Host.Query

/-! The lines of source files, read when first asked for. A line ends with a line feed, a carriage
return, or the two together. -/
namespace AmigaHunk

namespace Lines

/-- The lines ended so far and the one under way, all backwards; `returned` says that the last
character was a carriage return. -/
structure State where
  ended : List String
  line : List Char
  returned : Bool
  deriving DecidableEq, Repr

def State.endLine (s : State) (returned : Bool) : State :=
  ⟨String.ofList s.line.reverse :: s.ended, [], returned⟩

/-- A line feed after a carriage return belongs to it. -/
def State.push (s : State) (c : Char) : State :=
  if c = '\r' then s.endLine true
  else if c = '\n' then (if s.returned then ⟨s.ended, s.line, false⟩ else s.endLine false)
  else ⟨s.ended, c :: s.line, false⟩

/-- The lines of `text`. A text that ends with a terminator has an empty last line. -/
def split (text : String) : List String :=
  ((text.toList.foldl State.push ⟨[], [], false⟩).endLine false).ended.reverse

end Lines

/-- The lines of the files read so far, by path. -/
structure TextCache where
  files : List (String × List String)
  deriving DecidableEq, Repr

namespace TextCache

def start : TextCache := ⟨[]⟩

/-- A file is read once; only a failed read is tried again. -/
def lines (path : String) : StateT TextCache Query (Except Error (List String)) := do
  let cache ← get
  match cache.files.lookup path with
  | some lines => return .ok lines
  | none =>
    match ← Query.contents path with
    | .error cause => return .error (.sourceUnreadable path cause)
    | .ok bytes =>
      let lines := Lines.split (Utf8.decode bytes)
      set (TextCache.mk ((path, lines) :: cache.files))
      return .ok lines

/-- The line at `index`, counted from zero, if the file has so many. -/
def line (path : String) (index : Nat) : StateT TextCache Query (Except Error (Option String)) := do
  return (← lines path).map (·[index]?)

end TextCache
end AmigaHunk
