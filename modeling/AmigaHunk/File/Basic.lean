import AmigaHunk.File.Section

/-! Hunk files: an opening block, blocks up to the end, and the hunks that they describe. -/
namespace AmigaHunk
open Decoder

/-- How many hunks the blocks so far have opened, which one is open, and the name that waits for
the next one. -/
structure Progress where
  opened : Nat
  current : Option Nat
  pending : Option String
  deriving DecidableEq, Repr

namespace Progress

def start : Progress := ⟨0, none, none⟩

def after (p : Progress) : Block → Progress
  | .segment .. => ⟨p.opened + 1, some p.opened, none⟩
  | .close | .unit => { p with current := none }
  | .name name => { p with pending := some name }
  | _ => p

end Progress

namespace File

def readNext (opening : Opening) (p : Progress) : Decoder (Option (Block × Progress)) := do
  if ← atEnd then return none
  let block ← Block.read opening.kind p.current
  return some (block, p.after block)

/-- The blocks up to the end of the file. -/
def readBlocks (opening : Opening) : Decoder (List Block) := do
  collect (readNext opening) ((← remaining) + 1) .start

/-- What is odd about a file as a whole: a hunk open at its end, and, in a load file, another number
of hunks than the header declares. -/
def warnings (opening : Opening) (p : Progress) : List Warning :=
  (p.current.map Warning.endsOpen).toList ++
    if opening.kind = .load ∧ opening.declared.length ≠ p.opened then
      [.hunkCount opening.declared.length p.opened]
    else []

def hunks (opening : Opening) (blocks : List Block) : List Hunk :=
  (Section.ofBlocks none blocks).mapIdx fun id s => s.toHunk id opening.declared[id]?

def read : Decoder (List Hunk) := do
  let opening ← Opening.read
  let blocks ← readBlocks opening
  (warnings opening (blocks.foldl Progress.after .start)).forM warn
  return hunks opening blocks

def decode (bytes : List UInt8) : Outcome (List Hunk) := read (.start bytes)

end File
end AmigaHunk
