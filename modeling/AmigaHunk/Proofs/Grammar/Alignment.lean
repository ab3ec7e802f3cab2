import AmigaHunk.Proofs.Grammar.FileDecoder

/-! Tags stand at longwords, also in bytes that turn out to be no file. The decoder comes to each tag
with a file behind it, and all of a file lies on longwords. -/
namespace AmigaHunk
open Decoder

namespace File
variable {opening : Opening} {bytes : List UInt8} {last : Nat} {p : Progress} {c : Cursor}

/-- The decoder stands at `c`, about to read a tag, after the opening or after one more block that it
could read. The tag before stands at `last`. -/
inductive AtTag (opening : Opening) (bytes : List UInt8) : Nat → Progress → Cursor → Prop where
  | first {c : Cursor} {ws : List Warning} (h : Opening.read (.start bytes) = ⟨.ok opening, c, ws⟩) :
    AtTag opening bytes 0 .start c
  | next {last : Nat} {p p' : Progress} {c c' : Cursor} {block : Block} {ws : List Warning}
    (h : AtTag opening bytes last p c)
    (hnext : readNext opening p c = ⟨.ok (some (block, p')), c', ws⟩) :
    AtTag opening bytes c.offset p' c'

/-- What the decoder has behind it is a file of its own. -/
theorem AtTag.exists_file (h : AtTag opening bytes last p c) :
    ∃ front blocks isOpen, bytes = front ++ c.rest ∧ c.offset = front.length ∧
      Grammar.File opening blocks isOpen front ∧ p.current.isSome = isOpen := by
  induction h with
  | first hopening =>
    obtain ⟨front, rest, hbytes, rfl, hread⟩ := Steady.split hopening
    have hfile := Grammar.File.mk (Opening.reads_read.1 hread) (.nil false)
    rw [List.append_nil] at hfile
    exact ⟨front, [], false, hbytes, Nat.zero_add _, hfile, rfl⟩
  | @next last p p' c c' block ws _ hnext ih =>
    obtain ⟨front, blocks, isOpen, hbytes, hoffset, hfile, rfl⟩ := ih
    obtain ⟨rfl, b, hrest, hoffset', hread⟩ := readNext_eq_some hnext
    rw [hoffset] at hread
    have hblock := (Block.reads_read hfile.dvd_length).1 hread
    refine ⟨front ++ b, blocks ++ [block], _, ?_, ?_,
      hfile.append_blocks (.single ⟨hblock, p.isSome_after block⟩), rfl⟩
    · rw [hbytes, hrest, List.append_assoc]
    · rw [hoffset', hoffset, List.length_append]

theorem AtTag.dvd_offset (h : AtTag opening bytes last p c) : 4 ∣ c.offset := by
  obtain ⟨front, blocks, isOpen, -, hoffset, hfile, -⟩ := h.exists_file
  rw [hoffset]
  exact hfile.dvd_length

/-- From one tag to the next it is a longword or more, the tag itself. -/
theorem AtTag.last_add_four_le (h : AtTag opening bytes last p c) : last + 4 ≤ c.offset := by
  cases h with
  | first hopening =>
    obtain ⟨front, rest, -, rfl, hread⟩ := Steady.split hopening
    have hlength := (Opening.reads_read.1 hread).eight_le
    change 0 + 4 ≤ 0 + front.length
    omega
  | next _ hnext =>
    obtain ⟨-, b, -, hoffset, hread⟩ := readNext_eq_some hnext
    rw [hoffset]
    exact Nat.add_le_add_left (four_le_of_reads_block hread) _

/-- Less than a longword is no block. -/
theorem blocksFrom_of_short {offset : Nat} {extra : List UInt8} (hne : extra ≠ [])
    (hlt : extra.length < 4) : blocksFrom opening p ⟨offset, extra⟩ =
      ⟨.error (.malformed offset (.short 4 extra.length)), ⟨offset, extra⟩, []⟩ := by
  have hword : word ⟨offset, extra⟩ =
      ⟨.error (.malformed offset (.short 4 extra.length)), ⟨offset, extra⟩, []⟩ := by
    rw [word, map_apply, take_of_lt (c := ⟨offset, extra⟩) hlt]
    rfl
  have hread : Block.read opening.kind p.current ⟨offset, extra⟩ =
      ⟨.error (.malformed offset (.short 4 extra.length)), ⟨offset, extra⟩, []⟩ := by
    rw [Block.read, bind_of_ok (rfl : Decoder.offset ⟨offset, extra⟩ = _), bind_of_error hword]
    rfl
  rw [blocksFrom_of_ne_nil (c := ⟨offset, extra⟩) hne, bind_of_error hread]

/-- Each tag stands at a longword, and behind the tag before it. So nothing decodes that is not of
whole longwords, and what is left over behind a file is a fault where the file ends. -/
theorem tags_aligned (bytes : List UInt8) :
    (∀ opening last p c, AtTag opening bytes last p c → 4 ∣ c.offset ∧ last + 4 ≤ c.offset) ∧
    (¬4 ∣ bytes.length → ∃ e, (decode bytes).result = .error e) ∧
    ∀ hs extra, (decode bytes).result = .ok hs → 0 < extra.length → extra.length < 4 →
      (decode (bytes ++ extra)).result =
        .error (.malformed bytes.length (.short 4 extra.length)) := by
  refine ⟨fun opening last p c h => ⟨h.dvd_offset, h.last_add_four_le⟩, fun hdvd => ?_, ?_⟩
  · cases hresult : (decode bytes).result with
    | error e => exact ⟨e, rfl⟩
    | ok hs =>
      obtain ⟨opening, blocks, isOpen, hfile, -⟩ := file_of_decode hresult
      exact absurd hfile.dvd_length hdvd
  · intro hs extra h hpos hlt
    obtain ⟨opening, blocks, isOpen, hfile, -⟩ := file_of_decode h
    rw [result_append hfile extra, blocksFrom_of_short (List.length_pos_iff.1 hpos) hlt]
    rfl

/-- A unit, and a code hunk of no bytes. -/
def unitAndCode : List UInt8 := [0x3E7, 0, 0x3E9, 0].flatMap Word.bytes

theorem tags_aligned_unitAndCode :
    (∃ p c, AtTag ⟨.object, []⟩ unitAndCode 8 p c ∧ c.offset = 16 ∧
      4 ∣ c.offset ∧ 8 + 4 ≤ c.offset) ∧
    (¬4 ∣ (unitAndCode.take 7).length ∧
      ∃ e, (decode (unitAndCode.take 7)).result = .error e) ∧
    (decode (unitAndCode ++ [0])).result = .error (.malformed 16 (.short 4 1)) := by
  have h : (decode unitAndCode).result = .ok [⟨0, .code, .any, 0, none, some [], none, none⟩] := by
    decide +kernel
  have hopening : Opening.read (.start unitAndCode) =
      ⟨.ok ⟨.object, []⟩, ⟨8, unitAndCode.drop 8⟩, []⟩ := rfl
  have hblock : readNext ⟨.object, []⟩ .start ⟨8, unitAndCode.drop 8⟩ =
      ⟨.ok (some (.segment .code .any 0 [], ⟨1, some 0, none⟩)), ⟨16, []⟩, []⟩ := rfl
  have hnext := AtTag.next (.first hopening) hblock
  have hdvd : ¬4 ∣ (unitAndCode.take 7).length := by decide
  obtain ⟨htags, -, hextra⟩ := tags_aligned unitAndCode
  obtain ⟨-, hshort, -⟩ := tags_aligned (unitAndCode.take 7)
  exact ⟨⟨_, _, hnext, rfl, htags _ _ _ _ hnext⟩, ⟨hdvd, hshort hdvd⟩,
    hextra _ [0] h (by decide) (by decide)⟩

end File
end AmigaHunk
