import AmigaHunk.File.Basic
import AmigaHunk.Proofs.Grammar.Block
import Mathlib.Algebra.GroupWithZero.Nat
import Mathlib.Data.List.Sort

/-! Load files as values, the bytes that they are written as, and the hunks that they describe. A
value that the fields of a file cannot hold cannot be built. -/
namespace AmigaHunk

/-- A longword of two flag bits above a number. -/
def Word.pack (flags low : Nat) : UInt32 := UInt32.ofNat (flags * 0x40000000 + low)

namespace MemoryKind

/-- The two flags that ask for this memory. -/
def flags : MemoryKind → Nat
  | any => 0
  | chip => 1
  | fast => 2
  | attributes _ => 3

/-- What comes behind the longword with the flags. -/
def extra : MemoryKind → List UInt8
  | attributes bits => Word.bytes bits
  | _ => []

end MemoryKind

namespace Encoding

/-- The bytes filled up with zeros to a longword. -/
def padLong (bytes : List UInt8) : List UInt8 :=
  bytes ++ List.replicate ((4 - bytes.length % 4) % 4) 0

/-- The bytes behind their length in longwords. -/
def counted (bytes : List UInt8) : List UInt8 :=
  Word.bytes (UInt32.ofNat (bytes.length / 4)) ++ bytes

/-- A text that can be told from the zeros behind it. -/
structure Name where
  text : String
  text_tight : text.toList.getLast? ≠ some '\x00'

def Name.bytes (n : Name) : List UInt8 := padLong (Utf8.encode n.text)

/-- A symbol. A name of no longwords would end the list of them. -/
structure SymbolEntry where
  name : Name
  offset : UInt32
  name_nonempty : name.text ≠ ""
  name_lt : name.bytes.length / 4 < 0x1000000

namespace SymbolEntry

def symbol (e : SymbolEntry) : Symbol := ⟨e.name.text, e.offset⟩

def bytes (e : SymbolEntry) : List UInt8 := counted e.name.bytes ++ Word.bytes e.offset

end SymbolEntry

/-- The payload of a debug block whose entries are written as `rows`. -/
def tableBytes (layout : LineTable.Layout) (base : UInt32) (name : Name) (rows : List UInt8) :
    List UInt8 :=
  Word.bytes base ++ (Word.bytes layout.word ++ (counted name.bytes ++ rows))

def pairBytes (e : LineEntry) : List UInt8 := Word.bytes e.line ++ Word.bytes e.offset

/-- A line table in pairs, in any order. The offsets of its entries count from `base`. -/
structure PairTable where
  base : UInt32
  name : Name
  entries : List LineEntry
  line_lt : ∀ e ∈ entries, e.line.toNat < 0x1000000
  offset_lt : ∀ e ∈ entries, base.toNat + e.offset.toNat < 0x100000000
  length_lt :
    (tableBytes .pairs base name (entries.flatMap pairBytes)).length / 4 < 0x100000000

namespace PairTable

def bytes (t : PairTable) : List UInt8 :=
  tableBytes .pairs t.base t.name (t.entries.flatMap pairBytes)

/-- Entries with one offset stay in their order. -/
def table (t : PairTable) : LineTable :=
  ⟨t.name.text, (t.entries.map fun e => ⟨t.base + e.offset, e.line⟩).insertionSort
    (·.offset ≤ ·.offset)⟩

end PairTable

/-- A step of a number in one of its widths. -/
inductive Delta where
  | short (n : UInt8) (h : n ≠ 0)
  | middle (n : UInt16) (h : n ≠ 0)
  | long (n : UInt32)

namespace Delta

def value : Delta → Nat
  | short n _ => n.toNat
  | middle n _ => n.toNat
  | long n => n.toNat

def bytes : Delta → List UInt8
  | short n _ => [n]
  | middle n _ => [0] ++ bigEndianBytes 2 n.toNat
  | long n => [0] ++ ([0, 0] ++ Word.bytes n)

end Delta

/-- How far the line and the offset move on. -/
structure Step where
  line : Delta
  offset : Delta

namespace Step

def bytes (s : Step) : List UInt8 := s.line.bytes ++ s.offset.bytes

/-- The entries that the steps lead to, from a line and an offset on. -/
def entriesFrom (base line offset : Nat) : List Step → List LineEntry
  | [] => []
  | s :: steps =>
    ⟨UInt32.ofNat (base + (offset + s.offset.value)), UInt32.ofNat (line + s.line.value)⟩ ::
      entriesFrom base (line + s.line.value) (offset + s.offset.value) steps

end Step

def deltaBytes (steps : List Step) : List UInt8 :=
  Word.bytes (UInt32.ofNat steps.length) ++ padLong (steps.flatMap Step.bytes)

/-- A line table in steps. No sum on the way is larger than the last one. -/
structure DeltaTable where
  base : UInt32
  name : Name
  steps : List Step
  lines_lt : (steps.map (·.line.value)).sum < 0x100000000
  offsets_lt : base.toNat + (steps.map (·.offset.value)).sum < 0x100000000
  count_lt : steps.length < 0x100000000
  length_lt : (tableBytes .deltas base name (deltaBytes steps)).length / 4 < 0x100000000

namespace DeltaTable

def bytes (t : DeltaTable) : List UInt8 := tableBytes .deltas t.base t.name (deltaBytes t.steps)

def table (t : DeltaTable) : LineTable :=
  ⟨t.name.text, Step.entriesFrom t.base.toNat 0 0 t.steps⟩

end DeltaTable

/-- What may follow the segment block of a hunk. -/
inductive Part where
  | symbols (entries : List SymbolEntry)
  | pairs (t : PairTable)
  | deltas (t : DeltaTable)

namespace Part

def symbolList : Part → List Symbol
  | symbols entries => entries.map SymbolEntry.symbol
  | _ => []

def tableList : Part → List LineTable
  | symbols _ => []
  | pairs t => [t.table]
  | deltas t => [t.table]

def bytes : Part → List UInt8
  | symbols entries => Word.bytes (Word.pack 0 Tag.symbol.number) ++
    (entries.flatMap SymbolEntry.bytes ++ Word.bytes 0)
  | pairs t => Word.bytes (Word.pack 0 Tag.debug.number) ++ counted t.bytes
  | deltas t => Word.bytes (Word.pack 0 Tag.debug.number) ++ counted t.bytes

end Part

/-- A hunk, from the block that opens it to the one that closes it. -/
structure Segment where
  kind : HunkKind
  memory : MemoryKind
  longs : Nat
  payload : List UInt8
  parts : List Part
  longs_lt : longs < 0x40000000
  length_payload : payload.length = if kind = .bss then 0 else 4 * longs

def Segment.bytes (s : Segment) : List UInt8 :=
  Word.bytes (Word.pack s.memory.flags s.kind.tag.number) ++
    (s.memory.extra ++ (Word.bytes (UInt32.ofNat s.longs) ++ s.payload)) ++
  (s.parts.flatMap Part.bytes ++ Word.bytes (Word.pack 0 Tag.endHunk.number))

/-- What the header declares of a hunk. -/
structure Size where
  memory : MemoryKind
  longs : Nat
  longs_lt : longs < 0x40000000

namespace Size

def bytes (s : Size) : List UInt8 :=
  Word.bytes (Word.pack s.memory.flags s.longs) ++ s.memory.extra

def entry (s : Size) : HeaderEntry := ⟨s.memory, 4 * s.longs⟩

end Size

end Encoding

open Encoding in
/-- A load file without resident libraries. Its header may declare another number of hunks than it
has. -/
structure LoadFile where
  tableSize : UInt32
  first : UInt32
  last : UInt32
  sizes : List Size
  segments : List Segment
  sizes_nonempty : sizes ≠ []
  length_sizes : first.toNat + sizes.length = last.toNat + 1

namespace LoadFile
open Encoding

def headerBytes (f : LoadFile) : List UInt8 :=
  Word.bytes (Word.pack 0 Tag.header.number) ++ (Word.bytes 0 ++ (Word.bytes f.tableSize ++
    (Word.bytes f.first ++ (Word.bytes f.last ++ f.sizes.flatMap Size.bytes))))

def bytes (f : LoadFile) : List UInt8 := f.headerBytes ++ f.segments.flatMap Segment.bytes

/-- The hunk of a segment. Its memory is what the header declares, if it does, and its size the
larger of the two stated. -/
def hunk (f : LoadFile) (id : Nat) (s : Segment) : Hunk where
  id := id
  kind := s.kind
  memory := (f.sizes[id]?.map (·.memory)).getD s.memory
  size := 4 * max ((f.sizes[id]?.map (·.longs)).getD 0) s.longs
  name := none
  code := if s.kind = .code then some s.payload else none
  symbols := Section.nonempty? (s.parts.flatMap Part.symbolList)
  tables := Section.nonempty? (s.parts.flatMap Part.tableList)

def hunks (f : LoadFile) : List Hunk := f.segments.mapIdx f.hunk

end LoadFile
end AmigaHunk
