import AmigaHunk.File.Basic
import AmigaHunk.Proofs.Grammar.BlockDecoder

/-! The grammar of files: an opening block, and blocks up to the end. All of it lies on longwords. -/
namespace AmigaHunk

/-- Whether a hunk is open behind a block. -/
def Block.leavesOpen : Block → Bool → Bool
  | segment .., _ => true
  | close, _ | unit, _ => false
  | _, isOpen => isOpen

namespace Grammar

/-- The name of a resident library, or the end of the list of them. -/
inductive Resident : List UInt8 → Option Unit → Prop where
  | last : Resident (Word.bytes 0) none
  | name (longs : UInt32) {b : List UInt8} (h0 : longs ≠ 0) (h : b.length = 4 * longs.toNat) :
    Resident (Word.bytes longs ++ b) (some ())

inductive SizeEntry : List UInt8 → HeaderEntry → Prop where
  | mk (w : UInt32) {m : List UInt8} {memory : MemoryKind} (hm : Memory w m memory) :
    SizeEntry (Word.bytes w ++ m) ⟨memory, 4 * Word.low30 w⟩

inductive Opening : List UInt8 → AmigaHunk.Opening → Prop where
  | header (tag : UInt32) (ht : Word.low30 tag = Tag.header.number) (first last : UInt32)
    (hl : first.toNat ≤ last.toNat) {names tableSize b : List UInt8} {residents : List Unit}
    {declared : List HeaderEntry} (hr : Many Resident names residents) (hs : tableSize.length = 4)
    (hn : declared.length = last.toNat - first.toNat + 1)
    (he : Chain (fun _ b e _ => SizeEntry b e) () b declared ()) :
    Opening (Word.bytes tag ++ (names ++ (tableSize ++
      (Word.bytes first ++ (Word.bytes last ++ b)))))
      ⟨.load, declared⟩
  | unit (tag : UInt32) (ht : Word.low30 tag = Tag.unit.number) {b : List UInt8} {s : String}
    (h : Text b s) : Opening (Word.bytes tag ++ b) ⟨.object, []⟩

/-- Blocks one after the other; `isOpen` says whether a hunk is open. -/
def Blocks (kind : FileKind) (isOpen : Bool) : List UInt8 → List AmigaHunk.Block → Bool → Prop :=
  Chain (fun isOpen b block after => Block kind isOpen b block ∧ after = block.leavesOpen isOpen)
    isOpen

/-- A file, with what its opening and its blocks say, and whether a hunk is open at its end. -/
inductive File (opening : AmigaHunk.Opening) (blocks : List AmigaHunk.Block) (isOpen : Bool) :
    List UInt8 → Prop where
  | mk {b bs : List UInt8} (ho : Opening b opening)
    (hb : Blocks opening.kind false bs blocks isOpen) :
    File opening blocks isOpen (b ++ bs)

theorem Text.dvd_length {b : List UInt8} {s : String} (h : Text b s) : 4 ∣ b.length := by
  cases h with
  | mk longs h =>
    rw [List.length_append, Word.length_bytes, h]
    omega

theorem Memory.dvd_length {w : UInt32} {b : List UInt8} {m : MemoryKind} (h : Memory w b m) :
    4 ∣ b.length := by
  cases h with
  | flags _ => exact Nat.dvd_zero 4
  | attributes bits _ => simp

theorem SymbolEntry.dvd_length {b : List UInt8} {r : Option Symbol} (h : SymbolEntry b r) :
    4 ∣ b.length := by
  cases h with
  | last w _ => simp
  | symbol w offset _ h =>
    simp only [List.length_append, Word.length_bytes, h]
    omega

theorem LongGroup.dvd_length {b : List UInt8} {r : Option Unit} (h : LongGroup b r) :
    4 ∣ b.length := by
  cases h with
  | last => simp
  | group count _ ht h =>
    simp only [List.length_append, Word.length_bytes, ht, h]
    omega

theorem External.dvd_length {b : List UInt8} {r : Option Unit} (h : External b r) :
    4 ∣ b.length := by
  cases h with
  | last => simp
  | definition w _ hn _ h =>
    simp only [List.length_append, Word.length_bytes, hn, h]
    omega
  | reference w count hn _ _ h =>
    simp only [List.length_append, Word.length_bytes, hn, h]
    omega
  | common w count hn _ hs h =>
    simp only [List.length_append, Word.length_bytes, hn, hs, h]
    omega

theorem Counted.dvd_length {b content : List UInt8} (h : Counted b content) : 4 ∣ b.length := by
  cases h with
  | mk longs h =>
    rw [List.length_append, Word.length_bytes, h]
    omega

theorem Body.dvd_length {kind : FileKind} {isOpen : Bool} {tag : UInt32} {b : List UInt8}
    {block : AmigaHunk.Block} (h : Body kind isOpen tag b block) : 4 ∣ b.length := by
  cases h with
  | segment k _ size hm hp =>
    have := hm.dvd_length
    simp only [List.length_append, Word.length_bytes, hp]
    split <;> omega
  | close _ => exact Nat.dvd_zero 4
  | symbols _ _ h => exact h.dvd_length fun _ _ => SymbolEntry.dvd_length
  | debug _ _ hc _ => exact hc.dvd_length
  | longRelocations t _ _ h => exact h.dvd_length fun _ _ => LongGroup.dvd_length
  | shortRelocations t _ _ _ hp =>
    rw [List.length_append, hp]
    omega
  | externals _ h => exact h.dvd_length fun _ _ => External.dvd_length
  | name _ h => exact h.dvd_length
  | unit _ h => exact h.dvd_length
  | overlay _ longs _ h =>
    rw [List.length_append, Word.length_bytes, h]
    omega
  | lib _ h => exact ⟨1, h⟩
  | index _ h => exact h.dvd_length
  | unknown _ h => exact h.dvd_length

theorem Block.dvd_length {kind : FileKind} {isOpen : Bool} {b : List UInt8}
    {block : AmigaHunk.Block} (h : Block kind isOpen b block) : 4 ∣ b.length := by
  cases h with
  | mk tag h =>
    rw [List.length_append, Word.length_bytes]
    exact Nat.dvd_add (Nat.dvd_refl 4) h.dvd_length

theorem Resident.dvd_length {b : List UInt8} {r : Option Unit} (h : Resident b r) :
    4 ∣ b.length := by
  cases h with
  | last => simp
  | name longs _ h =>
    simp only [List.length_append, Word.length_bytes, h]
    omega

theorem Resident.ne_nil {b : List UInt8} {r : Option Unit} (h : Resident b r) : b ≠ [] := by
  intro hb
  have := congrArg List.length hb
  cases h <;> simp at this

theorem SizeEntry.dvd_length {b : List UInt8} {e : HeaderEntry} (h : SizeEntry b e) :
    4 ∣ b.length := by
  cases h with
  | mk w hm =>
    rw [List.length_append, Word.length_bytes]
    exact Nat.dvd_add (Nat.dvd_refl 4) hm.dvd_length

theorem SizeEntry.four_le {b : List UInt8} {e : HeaderEntry} (h : SizeEntry b e) :
    4 ≤ b.length := by
  cases h with
  | mk w hm =>
    rw [List.length_append, Word.length_bytes]
    exact Nat.le_add_right _ _

theorem Text.four_le {b : List UInt8} {s : String} (h : Text b s) : 4 ≤ b.length := by
  cases h with
  | mk longs h => simp

theorem Opening.eight_le {b : List UInt8} {opening : AmigaHunk.Opening} (h : Opening b opening) :
    8 ≤ b.length := by
  cases h with
  | header tag _ first last _ _ hs _ _ =>
    simp only [List.length_append, Word.length_bytes, hs]
    omega
  | unit tag _ h =>
    have hname := h.four_le
    rw [List.length_append, Word.length_bytes]
    omega

theorem Opening.dvd_length {b : List UInt8} {o : AmigaHunk.Opening} (h : Opening b o) :
    4 ∣ b.length := by
  cases h with
  | header tag _ first last _ hr hs _ he =>
    have := hr.dvd_length fun _ _ => Resident.dvd_length
    have := he.dvd_length fun _ _ _ _ => SizeEntry.dvd_length
    simp only [List.length_append, Word.length_bytes, hs]
    omega
  | unit tag _ h =>
    rw [List.length_append, Word.length_bytes]
    exact Nat.dvd_add (Nat.dvd_refl 4) h.dvd_length

theorem File.dvd_length {opening : AmigaHunk.Opening} {blocks : List AmigaHunk.Block}
    {isOpen : Bool} {b : List UInt8} (h : File opening blocks isOpen b) : 4 ∣ b.length := by
  cases h with
  | mk ho hb =>
    rw [List.length_append]
    exact Nat.dvd_add ho.dvd_length (hb.dvd_length fun _ _ _ _ h => h.1.dvd_length)

/-- Blocks behind a file make a file with it. -/
theorem File.append_blocks {opening : AmigaHunk.Opening} {blocks more : List AmigaHunk.Block}
    {isOpen isOpen' : Bool} {b bs : List UInt8} (h : File opening blocks isOpen b)
    (hmore : Blocks opening.kind isOpen bs more isOpen') :
    File opening (blocks ++ more) isOpen' (b ++ bs) := by
  cases h with
  | mk ho hb =>
    rw [List.append_assoc]
    exact .mk ho (hb.append hmore)

/-- A block behind a file, and those behind the block, make a file with it. -/
theorem File.append_block {opening : AmigaHunk.Opening} {blocks more : List AmigaHunk.Block}
    {block : AmigaHunk.Block} {isOpen isOpen' : Bool} {tag : UInt32} {front b bs : List UInt8}
    (h : File opening blocks isOpen front) (hbody : Body opening.kind isOpen tag b block)
    (hafter : Blocks opening.kind (block.leavesOpen isOpen) bs more isOpen') :
    File opening (blocks ++ block :: more) isOpen' (front ++ (Word.bytes tag ++ (b ++ bs))) := by
  have hmore : Blocks opening.kind isOpen (Word.bytes tag ++ b ++ bs) (block :: more) isOpen' :=
    .cons ⟨.mk tag hbody, rfl⟩ hafter
  rw [List.append_assoc] at hmore
  exact h.append_blocks hmore

end Grammar
end AmigaHunk
