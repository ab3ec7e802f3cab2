/-! Replacements of a part of a path. -/
namespace AmigaHunk

structure Replacement where
  pattern : String
  text : String
  deriving DecidableEq, Repr

namespace Replacement

/-- Replaces the leftmost occurrence of `pattern`, if there is one. -/
def splice? (pattern text : List Char) : List Char → Option (List Char)
  | [] => if pattern = [] then some text else none
  | c :: cs =>
    if pattern.isPrefixOf (c :: cs) then some (text ++ (c :: cs).drop pattern.length)
    else (splice? pattern text cs).map (c :: ·)

def replace? (r : Replacement) (path : String) : Option String :=
  (splice? r.pattern.toList r.text.toList path.toList).map String.ofList

/-- Reads `FROM=TO`. The first equals sign separates, and something stands in front of it. -/
def parse? (s : String) : Option Replacement :=
  let pattern := s.toList.takeWhile (· ≠ '=')
  match s.toList.dropWhile (· ≠ '=') with
  | _ :: text => if pattern = [] then none else some ⟨String.ofList pattern, String.ofList text⟩
  | [] => none

def parseMessage (s : String) : String := s!"Invalid path replacement: {s}. Use 'FROM=TO'"

def label (r : Replacement) : String := s!"{r.pattern}={r.text}"

/-- The first replacement that applies decides. -/
def applyFirst (rs : List Replacement) (path : String) : String :=
  (rs.findSome? (·.replace? path)).getD path

end Replacement
end AmigaHunk
