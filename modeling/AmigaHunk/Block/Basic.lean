import AmigaHunk.Hunk.Basic
import AmigaHunk.LineTable.Decoder

/-! The blocks of a hunk file. A segment block opens a hunk, the blocks after it belong to the hunk
until one closes it, and relocations, references and overlays are only stepped over. -/
namespace AmigaHunk
open Decoder

inductive FileKind where
  /-- An executable, which starts with a header. -/
  | load
  /-- An object file, which starts with a unit. -/
  | object
  deriving DecidableEq, Repr

inductive Block where
  | segment (kind : HunkKind) (memory : MemoryKind) (size : Nat) (payload : List UInt8)
  | close
  | symbols (symbols : List Symbol)
  | debug (table : Option LineTable)
  | name (name : String)
  | unit
  | skipped
  deriving DecidableEq, Repr

/-- The memory request of `w`, whose attributes, if it has them, come next. -/
def MemoryKind.read (w : UInt32) : Decoder MemoryKind := do
  match MemoryKind.ofWord w with
  | attributes _ => return attributes (← word)
  | memory => return memory

namespace Block

/-- The memory request is that of the tag. A BSS segment has a size but no payload. -/
def readSegment (tag : UInt32) (kind : HunkKind) : Decoder Block := do
  let memory ← MemoryKind.read tag
  let longs := Word.low30 (← word)
  if kind = .bss then return segment kind memory (4 * longs) []
  expectLongs longs
  return segment kind memory (4 * longs) (← take (4 * longs))

def readSymbol : Decoder (Option Symbol) := do
  let longs := Word.low24 (← word)
  if longs = 0 then return none
  let name ← padded longs
  return some ⟨name, ← word⟩

/-- Relocations of one target hunk: a count, the target, and a longword for each. -/
def skipLongGroup : Decoder (Option Unit) := do
  let count := (← word).toNat
  if count = 0 then return none
  skip 4
  skipLongs count
  return some ()

/-- The same with halfwords. -/
def skipShortGroup : Decoder (Option Unit) := do
  let count ← halfword
  if count = 0 then return none
  skip 2
  skip (2 * count)
  return some ()

/-- A name followed by a value, or, from type 128 on, by a list of references; the two common types
have a size in front of the list. -/
def skipExternal : Decoder (Option Unit) := do
  let w ← word
  if w = 0 then return none
  skipLongs (Word.low24 w)
  let type := w.toNat / 0x1000000
  if type < 128 then skip 4
  else
    if type = 130 ∨ type = 137 then skip 4
    skipLongs (← word).toNat
  return some ()

def skipLongRelocations : Decoder Unit := do
  let _ ← many skipLongGroup

def skipShortRelocations : Decoder Unit := do
  let _ ← many skipShortGroup
  align

def skipExternals : Decoder Unit := do
  let _ ← many skipExternal

/-- A block that states its length. -/
def skipCounted : Decoder Unit := do
  skipLongs (← word).toNat

/-- An overlay table is a longword longer than it states. -/
def skipOverlay (start : Nat) : Decoder Unit := do
  let longs := (← word).toNat
  if longs + 1 = 0x100000000 then failAt start .overlayTooLong
  skipLongs (longs + 1)

/-- A unit's name is not kept. -/
def readUnit : Decoder Unit := do
  let _ ← text

def skipUnknown (start : Nat) (tag : UInt32) : Decoder Unit := do
  let longs := (← word).toNat
  if !Word.isAdvisory tag then warn (.unknownBlock start (Word.low29 tag) longs)
  skipLongs longs

/-- Symbols and debug data must belong to an open hunk. -/
def requireOpen (current : Option Nat) (start : Nat) (tag : Tag) : Decoder Unit :=
  if current.isSome then pure () else failAt start (.outsideHunk tag)

def readDebug (current : Option Nat) (start : Nat) : Decoder Block := do
  let longs := (← word).toNat
  expectLongs longs
  let place ← split (4 * longs)
  requireOpen current start .debug
  return debug (← inside place LineTable.read)

def warnOpen (current : Option Nat) : Decoder Unit :=
  match current with
  | some id => warn (.notClosed id)
  | none => pure ()

/-- What follows the tag at `start`, in a file of the given kind, with the hunk `current` open. The
three top bits of a tag do not tell its block. -/
def readBody (kind : FileKind) (current : Option Nat) (start : Nat) (tag : UInt32) :
    Decoder Block := do
  match Tag.ofNumber? (Word.low29 tag) with
  | some .code => do warnOpen current; readSegment tag .code
  | some .data => do warnOpen current; readSegment tag .data
  | some .bss => do warnOpen current; readSegment tag .bss
  | some .endHunk | some .endNode => return close
  | some .symbol => do requireOpen current start .symbol; return symbols (← many readSymbol)
  | some .debug => readDebug current start
  | some .reloc32 | some .reloc16 | some .reloc8 | some .drel16 | some .drel8
  | some .relReloc32 | some .absReloc16 => do skipLongRelocations; return skipped
  | some .drel32 => do
    if kind = .object then skipLongRelocations else skipShortRelocations
    return skipped
  | some .reloc32Short => do skipShortRelocations; return skipped
  | some .ext => do skipExternals; return skipped
  | some .name => return name (← text)
  | some .unit => do readUnit; return unit
  | some .overlay => do skipOverlay start; return skipped
  | some .lib => do skip 4; return skipped
  | some .index => do skipCounted; return skipped
  | some .header => failAt start .lateHeader
  | none => do skipUnknown start tag; return skipped

def read (kind : FileKind) (current : Option Nat) : Decoder Block := do
  let start ← offset
  let tag ← word
  readBody kind current start tag

end Block
end AmigaHunk
