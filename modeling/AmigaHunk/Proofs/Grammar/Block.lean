import AmigaHunk.Block.Basic
import AmigaHunk.Proofs.Grammar.LineTable

/-! The grammar of blocks. Which blocks may come depends on the kind of the file and on whether a
hunk is open. The decoder of a block takes exactly the blocks of the grammar. -/
namespace AmigaHunk

/-- The tag of the segment block that opens a hunk of this kind. -/
def HunkKind.tag : HunkKind → Tag
  | code => .code
  | data => .data
  | bss => .bss

namespace Tag

/-- Whether a block lists relocations by longwords. In an object file one more does. -/
def listsLongs (kind : FileKind) : Tag → Bool
  | reloc32 | reloc16 | reloc8 | drel16 | drel8 | relReloc32 | absReloc16 => true
  | drel32 => kind = .object
  | _ => false

/-- Whether a block lists relocations by halfwords. -/
def listsHalfwords (kind : FileKind) : Tag → Bool
  | reloc32Short => true
  | drel32 => kind = .load
  | _ => false

end Tag

namespace Grammar

/-- The attributes of a memory request, where its two flags are both set. -/
inductive Memory (w : UInt32) : List UInt8 → MemoryKind → Prop where
  | flags (h : Word.flags w ≠ 3) : Memory w [] (.ofWord w)
  | attributes (bits : UInt32) (h : Word.flags w = 3) :
    Memory w (Word.bytes bits) (.attributes bits)

inductive SymbolEntry : List UInt8 → Option Symbol → Prop where
  | last (w : UInt32) (h : Word.low24 w = 0) : SymbolEntry (Word.bytes w) none
  | symbol (w offset : UInt32) {name : List UInt8} (h0 : Word.low24 w ≠ 0)
    (h : name.length = 4 * Word.low24 w) :
    SymbolEntry (Word.bytes w ++ (name ++ Word.bytes offset))
      (some ⟨Utf8.decode (Decoder.trimZeros name), offset⟩)

/-- A count that is not zero, the target hunk, and as many longwords. -/
inductive LongGroup : List UInt8 → Option Unit → Prop where
  | last : LongGroup (Word.bytes 0) none
  | group (count : UInt32) {target b : List UInt8} (h0 : count ≠ 0) (ht : target.length = 4)
    (h : b.length = 4 * count.toNat) : LongGroup (Word.bytes count ++ (target ++ b)) (some ())

/-- The same with halfwords. -/
inductive ShortGroup : List UInt8 → Option Unit → Prop where
  | last : ShortGroup [0, 0] none
  | group {count target b : List UInt8} (hc : count.length = 2) (h0 : bigEndian count ≠ 0)
    (ht : target.length = 2) (h : b.length = 2 * bigEndian count) :
    ShortGroup (count ++ (target ++ b)) (some ())

/-- The type of an entry is the top byte of its first longword. -/
def externalType (w : UInt32) : Nat := w.toNat / 0x1000000

/-- A definition has a value, all others have a list of references, and the two common types have a
size in front of it. -/
inductive External : List UInt8 → Option Unit → Prop where
  | last : External (Word.bytes 0) none
  | definition (w : UInt32) {name value : List UInt8} (h0 : w ≠ 0)
    (hn : name.length = 4 * Word.low24 w) (ht : externalType w < 128) (h : value.length = 4) :
    External (Word.bytes w ++ (name ++ value)) (some ())
  | reference (w count : UInt32) {name b : List UInt8} (hn : name.length = 4 * Word.low24 w)
    (ht : 128 ≤ externalType w) (hc : externalType w ≠ 130 ∧ externalType w ≠ 137)
    (h : b.length = 4 * count.toNat) :
    External (Word.bytes w ++ (name ++ (Word.bytes count ++ b))) (some ())
  | common (w count : UInt32) {name size b : List UInt8} (hn : name.length = 4 * Word.low24 w)
    (hc : externalType w = 130 ∨ externalType w = 137) (hs : size.length = 4)
    (h : b.length = 4 * count.toNat) :
    External (Word.bytes w ++ (name ++ (size ++ (Word.bytes count ++ b)))) (some ())

/-- A count, and as many longwords. -/
inductive Counted : List UInt8 → List UInt8 → Prop where
  | mk (longs : UInt32) {b : List UInt8} (h : b.length = 4 * longs.toNat) :
    Counted (Word.bytes longs ++ b) b

/-- What follows the tag of a block, in a file of the given kind, with or without an open hunk. The
three top bits of the tag do not tell the block, and a header is none. -/
inductive Body (kind : FileKind) (isOpen : Bool) (tag : UInt32) : List UInt8 → Block → Prop where
  | segment (h : HunkKind) (ht : Word.low29 tag = h.tag.number) (size : UInt32)
    {m payload : List UInt8} {memory : MemoryKind} (hm : Memory tag m memory)
    (hp : payload.length = if h = .bss then 0 else 4 * Word.low30 size) :
    Body kind isOpen tag (m ++ (Word.bytes size ++ payload))
      (.segment h memory (4 * Word.low30 size) payload)
  | close (ht : Word.low29 tag = Tag.endHunk.number ∨ Word.low29 tag = Tag.endNode.number) :
    Body kind isOpen tag [] .close
  | symbols (ht : Word.low29 tag = Tag.symbol.number) (ho : isOpen = true) {b : List UInt8}
    {symbols : List Symbol} (h : Many SymbolEntry b symbols) :
    Body kind isOpen tag b (.symbols symbols)
  | debug (ht : Word.low29 tag = Tag.debug.number) (ho : isOpen = true) {b payload : List UInt8}
    {table : Option LineTable} (hc : Counted b payload) (hp : Payload payload table) :
    Body kind isOpen tag b (.debug table)
  | longRelocations (t : Tag) (ht : Word.low29 tag = t.number) (hl : t.listsLongs kind = true)
    {b : List UInt8} {groups : List Unit} (h : Many LongGroup b groups) :
    Body kind isOpen tag b .skipped
  | shortRelocations (t : Tag) (ht : Word.low29 tag = t.number)
    (hs : t.listsHalfwords kind = true) {b padding : List UInt8} {groups : List Unit}
    (h : Many ShortGroup b groups) (hp : padding.length = (4 - b.length % 4) % 4) :
    Body kind isOpen tag (b ++ padding) .skipped
  | externals (ht : Word.low29 tag = Tag.ext.number) {b : List UInt8} {entries : List Unit}
    (h : Many External b entries) : Body kind isOpen tag b .skipped
  | name (ht : Word.low29 tag = Tag.name.number) {b : List UInt8} {s : String} (h : Text b s) :
    Body kind isOpen tag b (.name s)
  | unit (ht : Word.low29 tag = Tag.unit.number) {b : List UInt8} {s : String} (h : Text b s) :
    Body kind isOpen tag b .unit
  | overlay (ht : Word.low29 tag = Tag.overlay.number) (longs : UInt32)
    (hl : longs.toNat + 1 < 0x100000000) {b : List UInt8} (h : b.length = 4 * (longs.toNat + 1)) :
    Body kind isOpen tag (Word.bytes longs ++ b) .skipped
  | lib (ht : Word.low29 tag = Tag.lib.number) {b : List UInt8} (h : b.length = 4) :
    Body kind isOpen tag b .skipped
  | index (ht : Word.low29 tag = Tag.index.number) {b content : List UInt8}
    (h : Counted b content) : Body kind isOpen tag b .skipped
  | unknown (ht : ∀ t : Tag, Word.low29 tag ≠ t.number) {b content : List UInt8}
    (h : Counted b content) : Body kind isOpen tag b .skipped

inductive Block (kind : FileKind) (isOpen : Bool) : List UInt8 → AmigaHunk.Block → Prop where
  | mk (tag : UInt32) {b : List UInt8} {block : AmigaHunk.Block}
    (h : Body kind isOpen tag b block) :
    Block kind isOpen (Word.bytes tag ++ b) block

theorem SymbolEntry.ne_nil {b : List UInt8} {r : Option Symbol} (h : SymbolEntry b r) : b ≠ [] := by
  intro hb
  have := congrArg List.length hb
  cases h <;> simp at this

theorem LongGroup.ne_nil {b : List UInt8} {r : Option Unit} (h : LongGroup b r) : b ≠ [] := by
  intro hb
  have := congrArg List.length hb
  cases h <;> simp at this

theorem ShortGroup.ne_nil {b : List UInt8} {r : Option Unit} (h : ShortGroup b r) : b ≠ [] := by
  intro hb
  have := congrArg List.length hb
  cases h with
  | last => simp at this
  | group hc _ _ _ =>
    simp only [List.length_append, List.length_nil] at this
    omega

theorem External.ne_nil {b : List UInt8} {r : Option Unit} (h : External b r) : b ≠ [] := by
  intro hb
  have := congrArg List.length hb
  cases h <;> simp at this

end Grammar
end AmigaHunk
