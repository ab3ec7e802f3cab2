import AmigaHunk.File.Opening

/-! Sections: a segment block with what the blocks after it say of its hunk. -/
namespace AmigaHunk

def Block.symbolList : Block → List Symbol
  | symbols s => s
  | _ => []

def Block.tableList : Block → List LineTable
  | debug (some t) => [t]
  | _ => []

/-- Whether the open hunk, if there is one, ends before this block. -/
def Block.endsSection : Block → Bool
  | segment .. | close | unit => true
  | _ => false

structure Section where
  name : Option String
  kind : HunkKind
  memory : MemoryKind
  size : Nat
  payload : List UInt8
  symbols : List Symbol
  tables : List LineTable
  deriving DecidableEq, Repr

namespace Section

/-- The sections of a list of blocks. A segment takes the last name since the segment before it, or
else `pending`. -/
def ofBlocks : Option String → List Block → List Section
  | _, [] => []
  | _, .name n :: blocks => ofBlocks (some n) blocks
  | pending, .segment kind memory size payload :: blocks =>
    let body := blocks.takeWhile (!·.endsSection)
    ⟨pending, kind, memory, size, payload, body.flatMap Block.symbolList,
      body.flatMap Block.tableList⟩ :: ofBlocks none blocks
  | pending, _ :: blocks => ofBlocks pending blocks

/-- A list, absent if it is empty. -/
def nonempty? {α : Type} (xs : List α) : Option (List α) := if xs.isEmpty then none else some xs

/-- The hunk of a section. What the header declares of it wins over the memory request of its tag,
and its size is the larger of the two stated. -/
def toHunk (id : Nat) (declared : Option HeaderEntry) (s : Section) : Hunk where
  id := id
  kind := s.kind
  memory := (declared.map (·.memory)).getD s.memory
  size := (declared.map fun e => max e.size s.size).getD s.size
  name := s.name
  code := if s.kind = .code then some s.payload else none
  symbols := nonempty? s.symbols
  tables := nonempty? s.tables

end Section
end AmigaHunk
