import AmigaHunk.Proofs.Grammar.Faults
import Mathlib.Data.Nat.Find

/-! Where a file that does not decode is at fault: behind everything of it that is a file. -/
namespace AmigaHunk
open Decoder

namespace File
variable {bytes : List UInt8} {e : DecodeError}

/-- The length of the longest beginning of the bytes that decodes, or 0 if none does. -/
def accepted (bytes : List UInt8) : Nat :=
  Nat.findGreatest (fun n => (decode (bytes.take n)).result.isOk = true) bytes.length

theorem result_of_isOk {bytes : List UInt8} (h : (decode bytes).result.isOk = true) :
    ∃ hs, (decode bytes).result = .ok hs := by
  cases hr : (decode bytes).result with
  | ok hs => exact ⟨hs, rfl⟩
  | error e =>
    rw [hr] at h
    cases h

/-- Behind the blocks of a file that the bytes start with, the decoder looks only at what follows. -/
theorem isFaultIn_of_take {n : Nat} {hs : List Hunk} (h : (decode bytes).result = .error e)
    (hn : n ≤ bytes.length) (htake : (decode (bytes.take n)).result = .ok hs) :
    e.IsFaultIn n bytes.length := by
  obtain ⟨opening, blocks, isOpen, hfile, -⟩ := file_of_decode htake
  have hresult := result_append hfile (bytes.drop n)
  rw [List.take_append_drop, List.length_take_of_le hn, h] at hresult
  have hc : (Cursor.mk n (bytes.drop n)).Within n bytes.length := by
    refine ⟨Nat.le_refl n, Nat.le_of_eq ?_⟩
    rw [List.length_drop, Nat.add_sub_cancel' hn]
  cases hb : (blocksFrom opening (blocks.foldl Progress.after .start) ⟨n, bytes.drop n⟩).result with
  | ok more =>
    rw [hb] at hresult
    cases hresult
  | error e' =>
    rw [hb] at hresult
    cases hresult
    exact Faulting.isFaultIn hc hb

/-- A fault lies behind the longest beginning of the file that decodes. -/
theorem accepted_le {offset : Nat} {fault : Fault}
    (h : (decode bytes).result = .error (.malformed offset fault)) : accepted bytes ≤ offset := by
  by_cases h0 : accepted bytes = 0
  · rw [h0]
    exact Nat.zero_le offset
  · have hok := Nat.findGreatest_of_ne_zero rfl h0
    obtain ⟨hs, htake⟩ := result_of_isOk hok
    obtain ⟨offset', fault', he, hle, -⟩ :=
      isFaultIn_of_take h (Nat.findGreatest_le bytes.length) htake
    cases he
    exact hle

theorem decode_of_unknown {first : UInt32} (rest : List UInt8)
    (hheader : Word.low30 first ≠ Tag.header.number) (hunit : Word.low30 first ≠ Tag.unit.number) :
    (decode (Word.bytes first ++ rest)).result =
      .error (.unknownBlock 0 (UInt32.ofNat (Word.low30 first))) := by
  have hword : Reads word 0 (Word.bytes first) first := reads_word.2 rfl
  obtain ⟨ws, hword⟩ := hword.apply rest
  have hopening : ∃ c ws, Opening.read (.start (Word.bytes first ++ rest)) =
      ⟨.error (.unknownBlock 0 (UInt32.ofNat (Word.low30 first))), c, ws⟩ := by
    rw [Opening.read_eq, bind_of_ok (rfl : Decoder.offset (.start _) = ⟨.ok 0, .start _, []⟩),
      Cursor.start, bind_of_ok hword, if_neg hheader, if_neg hunit]
    exact ⟨_, _, rfl⟩
  obtain ⟨c, ws, hopening⟩ := hopening
  rw [decode, read, bind_of_error hopening]

/-- Bytes are refused as a whole exactly for their first longword, which the error tells without its
two top bits. Any other error tells a fault that lies in the bytes, but not in front of the end of
their longest beginning that decodes. -/
theorem error_of_decode (h : (decode bytes).result = .error e) :
    ((∃ offset tag, e = .unknownBlock offset tag) ↔
      ∃ first rest, bytes = Word.bytes first ++ rest ∧
        Word.low30 first ≠ Tag.header.number ∧ Word.low30 first ≠ Tag.unit.number) ∧
    (∀ offset tag first rest, e = .unknownBlock offset tag → bytes = Word.bytes first ++ rest →
      offset = 0 ∧ tag.toNat = Word.low30 first) ∧
    ((¬∃ offset tag, e = .unknownBlock offset tag) →
      ∃ offset fault, e = .malformed offset fault ∧
        accepted bytes ≤ offset ∧ offset ≤ bytes.length) := by
  obtain ⟨offset, fault, rfl, -, hle⟩ | ⟨tag, rest, rfl, hheader, hunit, rfl⟩ :=
    isFaultIn_or_unknown h
  · refine ⟨⟨?_, ?_⟩, ?_, fun _ => ⟨offset, fault, rfl, accepted_le h, hle⟩⟩
    · rintro ⟨offset', tag, he⟩
      cases he
    · rintro ⟨first, rest, rfl, hheader, hunit⟩
      rw [decode_of_unknown rest hheader hunit] at h
      cases h
    · intro offset' tag first rest he
      cases he
  · refine ⟨⟨fun _ => ⟨tag, rest, rfl, hheader, hunit⟩, fun _ => ⟨_, _, rfl⟩⟩, ?_, ?_⟩
    · intro offset tag' first rest' he hbytes
      cases he
      obtain rfl := Word.bytes_append_inj hbytes
      refine ⟨rfl, Word.toNat_ofNat ?_⟩
      rw [Word.low30]
      omega
    · intro hnot
      exact absurd ⟨_, _, rfl⟩ hnot

/-- A unit with one hunk, and symbols behind the end of it. -/
def straySymbols : List UInt8 := [0x3E7, 0, 0x3E9, 0, 0x3F2, 0x3F0, 0].flatMap Word.bytes

/-- The fault is told where the block starts that cannot be there, as all in front of it decodes. -/
theorem error_of_decode_straySymbols :
    (decode straySymbols).result = .error (.malformed 20 (.outsideHunk .symbol)) ∧
    (¬∃ first rest, straySymbols = Word.bytes first ++ rest ∧
      Word.low30 first ≠ Tag.header.number ∧ Word.low30 first ≠ Tag.unit.number) ∧
    accepted straySymbols = 20 ∧ straySymbols.length = 28 := by
  have h : (decode straySymbols).result = .error (.malformed 20 (.outsideHunk .symbol)) := by
    decide +kernel
  have htake : (decode (straySymbols.take 20)).result.isOk = true := by decide +kernel
  obtain ⟨hunknown, -, hfault⟩ := error_of_decode h
  have hnot : ¬∃ offset tag, DecodeError.malformed 20 (.outsideHunk .symbol) =
      .unknownBlock offset tag := by
    rintro ⟨offset, tag, he⟩
    cases he
  obtain ⟨offset, fault, he, hle, -⟩ := hfault hnot
  cases he
  exact ⟨h, fun hfirst => hnot (hunknown.2 hfirst),
    Nat.le_antisymm hle (Nat.le_findGreatest (by decide) htake), by decide⟩

end File
end AmigaHunk
