import AmigaHunk.Binary.Decoder
import AmigaHunk.LineTable.Basic

/-! Line tables as debug blocks hold them: a base offset, the layout, the name of the source, and
the entries in that layout. -/
namespace AmigaHunk.LineTable
open Decoder

inductive Layout where
  /-- Pairs of longwords, a line and an offset. -/
  | pairs
  /-- A count, and for each entry how far the line and the offset move on. -/
  | deltas
  deriving DecidableEq, Repr

/-- The word that names a layout: `LINE` or `HCLN` in ASCII. -/
def Layout.word : Layout → UInt32
  | pairs => 0x4C494E45
  | deltas => 0x48434C4E

def Layout.ofWord? (w : UInt32) : Option Layout :=
  if w = pairs.word then some pairs
  else if w = deltas.word then some deltas
  else none

/-- The sum of two longwords; a sum that is none is a fault at the cursor. -/
def sum (a b : UInt32) (fault : Fault) : Decoder UInt32 :=
  match Word.add? a b with
  | some c => pure c
  | none => fail fault

/-- The line is the low three bytes of its longword. -/
def readPair (base : UInt32) : Decoder LineEntry := do
  let line := UInt32.ofNat (Word.low24 (← word))
  let offset ← word
  return ⟨← sum base offset .offsetTooLarge, line⟩

def readPairs (base : UInt32) : Decoder (List LineEntry) := do
  let entries ← times ((← remaining) / 8) (readPair base)
  let extra ← remaining
  if extra ≠ 0 then warn (.trailingBytes extra (← offset))
  return entries

/-- A byte; or, behind a zero byte, two; or, behind three zero bytes, four. -/
def readDelta : Decoder UInt32 := do
  let short ← byte
  if short ≠ 0 then return UInt32.ofNat short
  let middle ← halfword
  if middle ≠ 0 then return UInt32.ofNat middle
  word

/-- The next entry after the one at `last`, whose offset counts from zero. -/
def readStep (base : UInt32) (last : LineEntry) : Decoder (Option (LineEntry × LineEntry)) := do
  let lineDelta ← readDelta
  let offsetDelta ← readDelta
  let line ← sum last.line lineDelta .lineTooLarge
  let offset ← sum last.offset offsetDelta .offsetTooLarge
  return some (⟨← sum base offset .offsetTooLarge, line⟩, ⟨offset, line⟩)

def readDeltas (base : UInt32) : Decoder (List LineEntry) := do
  let count := (← word).toNat
  let left ← remaining
  if left / 2 < count then fail (.entryCount count left)
  collect (readStep base) count ⟨0, 0⟩

def Layout.read : Layout → UInt32 → Decoder (List LineEntry)
  | pairs => readPairs
  | deltas => readDeltas

/-- The line table that fills the rest of a block, if it is one. -/
def read : Decoder (Option LineTable) := do
  if (← remaining) < 8 then return none
  let base ← word
  match Layout.ofWord? (← word) with
  | none => return none
  | some layout =>
    let name ← text
    return some (ofEntries name (← layout.read base))

end AmigaHunk.LineTable
