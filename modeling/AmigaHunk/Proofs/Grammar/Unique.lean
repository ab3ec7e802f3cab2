import AmigaHunk.Proofs.Grammar.FileDecoder

/-! A file falls into an opening and blocks in one way only, and the first bytes of it do so as far
as they are a file. -/
namespace AmigaHunk

namespace Decoder

/-- Of the same bytes a decoder takes as many each time. -/
theorem Reads.unique {α : Type} {d : Decoder α} {offset : Nat} {b b' rest rest' : List UInt8}
    {a a' : α} (h : Reads d offset b a) (h' : Reads d offset b' a')
    (hbytes : b ++ rest = b' ++ rest') : b = b' ∧ a = a' ∧ rest = rest' := by
  obtain ⟨ws, h⟩ := h.apply rest
  obtain ⟨ws', h'⟩ := h'.apply rest'
  rw [hbytes, h', Outcome.mk.injEq, Except.ok.injEq, Cursor.mk.injEq] at h
  obtain ⟨rfl, ⟨-, rfl⟩, -⟩ := h
  exact ⟨List.append_cancel_right hbytes, rfl, rfl⟩

end Decoder

namespace Grammar
variable {kind : FileKind} {isOpen : Bool} {b b' rest rest' : List UInt8}

theorem Opening.unique {opening opening' : AmigaHunk.Opening} (h : Opening b opening)
    (h' : Opening b' opening') (hbytes : b ++ rest = b' ++ rest') :
    b = b' ∧ opening = opening' ∧ rest = rest' := by
  have hread : Decoder.Reads Opening.read 0 b opening := Opening.reads_read.2 h
  exact hread.unique (Opening.reads_read.2 h') hbytes

theorem Block.unique {block block' : AmigaHunk.Block} (h : Block kind isOpen b block)
    (h' : Block kind isOpen b' block') (hbytes : b ++ rest = b' ++ rest') :
    b = b' ∧ block = block' ∧ rest = rest' := by
  obtain ⟨current, rfl⟩ : ∃ current : Option Nat, current.isSome = isOpen := by
    cases isOpen with
    | false => exact ⟨none, rfl⟩
    | true => exact ⟨some 0, rfl⟩
  exact Decoder.Reads.unique ((Block.reads_read (Nat.dvd_zero 4)).2 h)
    ((Block.reads_read (Nat.dvd_zero 4)).2 h') hbytes

theorem Block.ne_nil {block : AmigaHunk.Block} (h : Block kind isOpen b block) : b ≠ [] := by
  intro hb
  have := congrArg List.length hb
  cases h
  simp at this

/-- Blocks that start with all bytes of others start with those blocks. -/
theorem Blocks.exists_more {blocks blocks' : List AmigaHunk.Block} {after after' : Bool}
    (h : Blocks kind isOpen b blocks after) (h' : Blocks kind isOpen b' blocks' after')
    (hbytes : b' = b ++ rest) :
    ∃ more, blocks' = blocks ++ more ∧ Blocks kind after rest more after' := by
  induction h generalizing b' blocks' with
  | nil _ =>
    subst hbytes
    exact ⟨blocks', rfl, h'⟩
  | cons hfirst _ ih =>
    obtain ⟨hfirst, rfl⟩ := hfirst
    cases h' with
    | nil _ =>
      have hnil := List.append_eq_nil_iff.1 hbytes.symm
      exact absurd (List.append_eq_nil_iff.1 hnil.1).1 hfirst.ne_nil
    | cons hfirst' hbehind =>
      obtain ⟨hfirst', rfl⟩ := hfirst'
      rw [List.append_assoc] at hbytes
      obtain ⟨rfl, rfl, hrest⟩ := hfirst'.unique hfirst hbytes
      obtain ⟨more, rfl, hmore⟩ := ih hbehind hrest
      exact ⟨more, rfl, hmore⟩

/-- A file that starts with all bytes of another starts with its opening and its blocks. -/
theorem File.exists_more {opening opening' : AmigaHunk.Opening}
    {blocks blocks' : List AmigaHunk.Block} {isOpen' : Bool} (h : File opening blocks isOpen b)
    (h' : File opening' blocks' isOpen' (b ++ rest)) : opening' = opening ∧
      ∃ more, blocks' = blocks ++ more ∧ Blocks opening.kind isOpen rest more isOpen' := by
  generalize hbytes : b ++ rest = bytes at h'
  cases h with
  | mk hopening hblocks =>
    cases h' with
    | mk hopening' hblocks' =>
      rw [List.append_assoc] at hbytes
      obtain ⟨rfl, rfl, hrest⟩ := hopening.unique hopening' hbytes
      exact ⟨rfl, hblocks.exists_more hblocks' hrest.symm⟩

end Grammar
end AmigaHunk
