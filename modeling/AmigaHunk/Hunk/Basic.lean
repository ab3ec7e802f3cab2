import AmigaHunk.Binary.Word
import AmigaHunk.LineTable.Basic
import AmigaHunk.Text.Numeral

/-! Hunks: the units of a binary that a loader places in memory. -/
namespace AmigaHunk

inductive HunkKind where
  | code
  | data
  | bss
  deriving DecidableEq, Repr

def HunkKind.label : HunkKind → String
  | code => "CODE"
  | data => "DATA"
  | bss => "BSS"

/-- The memory a hunk asks for. -/
inductive MemoryKind where
  | any
  | chip
  | fast
  | attributes (bits : UInt32)
  deriving DecidableEq, Repr

/-- The request in the two top bits of a longword. With both set, the attributes are in a longword
of their own, and stand at zero here. -/
def MemoryKind.ofWord (w : UInt32) : MemoryKind :=
  match Word.flags w with
  | 1 => chip
  | 2 => fast
  | 3 => attributes 0
  | _ => any

def MemoryKind.label : MemoryKind → String
  | any => "any"
  | chip => "chip"
  | fast => "fast"
  | attributes bits => s!"attrs=0x{Numeral.hex8 bits}"

structure Symbol where
  name : String
  offset : UInt32
  deriving DecidableEq, Repr

def Symbol.label (s : Symbol) : String := s!"{s.name} @ 0x{Numeral.hex8 s.offset}"

/-- A hunk. Its `id` is its place among the hunks of its file; `symbols` and `tables` are absent
where the file has none for it. -/
structure Hunk where
  id : Nat
  kind : HunkKind
  memory : MemoryKind
  size : Nat
  name : Option String
  code : Option (List UInt8)
  symbols : Option (List Symbol)
  tables : Option (List LineTable)
  deriving DecidableEq, Repr

namespace Hunk

def symbolList (h : Hunk) : List Symbol := h.symbols.getD []

def tableList (h : Hunk) : List LineTable := h.tables.getD []

open Numeral in
def label (h : Hunk) : String :=
  let name := match h.name with
    | some name => s!" name={name}"
    | none => ""
  s!"#{decimal h.id} {h.kind.label} size={decimal h.size} mem={h.memory.label}{name}"

end Hunk
end AmigaHunk
