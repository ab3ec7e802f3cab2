import AmigaHunk.Block.Basic

/-! The first block of a file, which tells its kind. -/
namespace AmigaHunk
open Decoder

/-- What a header declares of one hunk. -/
structure HeaderEntry where
  memory : MemoryKind
  size : Nat
  deriving DecidableEq, Repr

structure Opening where
  kind : FileKind
  declared : List HeaderEntry
  deriving DecidableEq, Repr

namespace Opening

def skipResident : Decoder (Option Unit) := do
  let longs := (← word).toNat
  if longs = 0 then return none
  skipLongs longs
  return some ()

def readEntry : Decoder HeaderEntry := do
  let w ← word
  return ⟨← MemoryKind.read w, 4 * Word.low30 w⟩

/-- The resident names, the size of the hunk table, its first and last index, and its entries. -/
def readHeader : Decoder (List HeaderEntry) := do
  let _ ← many skipResident
  skip 4
  let first := (← word).toNat
  let last := (← word).toNat
  if last < first then fail (.hunkRange first last)
  let count := last - first + 1
  if (← remaining) / 4 < count then fail (.headerTooShort count)
  times count readEntry

def read : Decoder Opening := do
  let start ← offset
  let tag := Word.low30 (← word)
  if tag = Tag.header.number then return ⟨.load, ← readHeader⟩
  else if tag = Tag.unit.number then
    Block.readUnit
    return ⟨.object, []⟩
  else fun c => ⟨.error (.unknownBlock start (UInt32.ofNat tag)), c, []⟩

end Opening
end AmigaHunk
