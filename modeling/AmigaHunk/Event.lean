import AmigaHunk.Log.Names
import AmigaHunk.Warning

/-! What is worth telling on the way to an answer: warnings, and that a binary has been taken up.
The single steps of the work, which are of use in debugging only, are not told. -/
namespace AmigaHunk

inductive Event where
  | warning (w : Warning)
  | loaded (path : String) (hunks : Nat)
  deriving DecidableEq, Repr

namespace Event

def warning? : Event → Option Warning
  | warning w => some w
  | loaded .. => none

def level : Event → LogLevel
  | warning _ => .warn
  | loaded .. => .info

/-- The part of the program that tells it, by the name that log filters know it by. -/
def target : Event → String
  | warning (.trailingBytes ..) => "hunkdbg_core::hunk::line_debug"
  | warning (.noSourceText _) | loaded .. => "hunkdbg_core::debug_info"
  | warning _ => "hunkdbg_core::hunk::parser"

def summary : Event → String
  | warning w => w.summary
  | loaded .. => "loaded debug info"

def details : Event → List Detail
  | warning w => w.details
  | loaded path hunks => [⟨"path", path⟩, ⟨"hunks", Numeral.decimal hunks⟩]

end Event
end AmigaHunk
