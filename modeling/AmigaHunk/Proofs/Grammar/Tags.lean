import AmigaHunk.Proofs.File.Section
import AmigaHunk.Proofs.Grammar.File

/-! What the tag of a block tells of it. -/
namespace AmigaHunk.Grammar
variable {kind : FileKind} {isOpen isOpen' : Bool} {tag : UInt32} {b rest : List UInt8}
  {block : AmigaHunk.Block} {more : List AmigaHunk.Block}

/-- What the decoder of blocks makes of a block of the grammar. -/
theorem Body.exists_reads (h : Body kind isOpen tag b block) :
    ∃ current : Option Nat, current.isSome = isOpen ∧
      Decoder.Reads (Block.readBody kind current 0 tag) 0 b block := by
  obtain ⟨current, rfl⟩ : ∃ current : Option Nat, current.isSome = isOpen := by
    cases isOpen with
    | false => exact ⟨none, rfl⟩
    | true => exact ⟨some 0, rfl⟩
  exact ⟨current, rfl, Block.reads_of_body (Nat.dvd_zero 4) h⟩

theorem Body.debug_of_tag (h : Body kind isOpen tag b block)
    (ht : Word.low29 tag = Tag.debug.number) :
    isOpen = true ∧ ∃ payload table, Counted b payload ∧ block = .debug table := by
  obtain ⟨current, rfl, hreads⟩ := h.exists_reads
  simp only [Block.readBody, Tag.ofNumber?_eq_some_iff.2 ht, Block.reads_readDebug] at hreads
  obtain ⟨hopen, payload, table, hc, -, rfl⟩ := hreads
  exact ⟨hopen, payload, table, hc, rfl⟩

theorem Body.segment_of_tag (h : Body kind isOpen tag b block) (k : HunkKind)
    (ht : Word.low29 tag = k.tag.number) : ∃ m size payload memory,
      b = m ++ (Word.bytes size ++ payload) ∧ Memory tag m memory ∧
      payload.length = (if k = .bss then 0 else 4 * Word.low30 size) ∧
      block = .segment k memory (4 * Word.low30 size) payload := by
  obtain ⟨current, -, hreads⟩ := h.exists_reads
  exact (Block.reads_readBody_segment k ht).1 hreads

theorem Body.isSegment_iff (h : Body kind isOpen tag b block) :
    block.isSegment = true ↔ ∃ k : HunkKind, Word.low29 tag = k.tag.number := by
  constructor
  · intro hsegment
    cases h with
    | segment k ht => exact ⟨k, ht⟩
    | _ => cases hsegment
  · intro hk
    obtain ⟨k, ht⟩ := hk
    obtain ⟨m, size, payload, memory, -, -, -, rfl⟩ := h.segment_of_tag k ht
    rfl

/-- Blocks that start with a tag fall into the block of that tag and others. -/
theorem Blocks.of_tag (h : Blocks kind isOpen (Word.bytes tag ++ rest) more isOpen') :
    ∃ b bs block after, rest = b ++ bs ∧ more = block :: after ∧ Body kind isOpen tag b block ∧
      Blocks kind (block.leavesOpen isOpen) bs after isOpen' := by
  generalize hbytes : Word.bytes tag ++ rest = bytes at h
  cases h with
  | nil _ =>
    have hlength := congrArg List.length hbytes
    simp at hlength
  | cons hfirst hafter =>
    obtain ⟨hblock, rfl⟩ := hfirst
    cases hblock with
    | mk tag' hbody =>
      rw [List.append_assoc] at hbytes
      obtain rfl := Word.bytes_append_inj hbytes
      exact ⟨_, _, _, _, List.append_cancel_left hbytes, rfl, hbody, hafter⟩

end AmigaHunk.Grammar
