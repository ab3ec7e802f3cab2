import AmigaHunk.Binary.Decoder
import AmigaHunk.Proofs.Text.Utf8
import Mathlib.Algebra.Group.Nat.Defs
import Mathlib.Data.List.Induction

/-! How texts of bytes end. A character of one byte is read from that byte alone, so it is the last
one of a text only if its byte is. Bytes without zeros at their end have a text without a NUL at its
end. -/
namespace AmigaHunk

def Tight (s : String) : Prop := s.toList.getLast? ≠ some '\x00'

namespace Utf8

theorem toNat_ofNat {n : Nat} (h : n.isValidChar) : (Char.ofNat n).toNat = n := by
  rw [Char.ofNat, dif_pos h]
  rfl

/-- The numbers that the sequence can end with are past those of one byte, and are those of
characters: all are below the surrogates, or all are between them and the last character. -/
structure Owing.Proper (o : Owing) : Prop where
  count_pos : 0 < o.count
  low_le : 0x80 ≤ o.low
  le_high : o.high ≤ 0xBF
  past : 0x80 ≤ (o.bits * 64 + o.low % 64) * 64 ^ (o.count - 1)
  valid : (o.bits * 64 + o.high % 64 + 1) * 64 ^ (o.count - 1) ≤ 0xD800 ∨
    0xE000 ≤ (o.bits * 64 + o.low % 64) * 64 ^ (o.count - 1) ∧
      (o.bits * 64 + o.high % 64 + 1) * 64 ^ (o.count - 1) ≤ 0x110000

namespace Owing.Proper
variable {o : Owing} {b : Nat}

/-- Another byte narrows the numbers down. -/
theorem next (h : o.Proper) (hl : o.low ≤ b) (hh : b ≤ o.high) (hc : o.count ≠ 1) :
    Owing.Proper ⟨o.count - 1, 0x80, 0xBF, o.bits * 64 + b % 64⟩ := by
  have hcount := h.count_pos
  have h80 := h.low_le
  have hBF := h.le_high
  have hpow : 64 ^ (o.count - 1) = 64 * 64 ^ (o.count - 1 - 1) := by
    rw [← Nat.pow_succ', Nat.succ_eq_add_one]
    congr 1
    omega
  have hlow : o.bits * 64 + o.low % 64 ≤ o.bits * 64 + b % 64 := by omega
  have hhigh : o.bits * 64 + b % 64 + 1 ≤ o.bits * 64 + o.high % 64 + 1 := by omega
  have hleast := Nat.mul_le_mul_right (64 ^ (o.count - 1)) hlow
  have hmost := Nat.mul_le_mul_right (64 ^ (o.count - 1)) hhigh
  have hfirst : ((o.bits * 64 + b % 64) * 64 + 0x80 % 64) * 64 ^ (o.count - 1 - 1) =
      (o.bits * 64 + b % 64) * 64 ^ (o.count - 1) := by
    rw [hpow, ← Nat.mul_assoc, Nat.add_zero]
  have hlast : ((o.bits * 64 + b % 64) * 64 + 0xBF % 64 + 1) * 64 ^ (o.count - 1 - 1) =
      (o.bits * 64 + b % 64 + 1) * 64 ^ (o.count - 1) := by
    rw [hpow, ← Nat.mul_assoc, Nat.add_mul (o.bits * 64 + b % 64) 1 64]
  have hpast := h.past
  have hvalid := h.valid
  refine ⟨by dsimp only; omega, Nat.le_refl _, Nat.le_refl _, ?_, ?_⟩
  · dsimp only
    rw [hfirst]
    omega
  · dsimp only
    rw [hfirst, hlast]
    omega

theorem last (h : o.Proper) (hl : o.low ≤ b) (hh : b ≤ o.high) (hc : o.count = 1) :
    0x80 ≤ (Char.ofNat (o.bits * 64 + b % 64)).toNat := by
  have h80 := h.low_le
  have hBF := h.le_high
  have hpast := h.past
  have hvalid := h.valid
  rw [hc] at hpast hvalid
  have hchar : (o.bits * 64 + b % 64).isValidChar := by
    unfold Nat.isValidChar
    omega
  rw [toNat_ofNat hchar]
  omega

end Owing.Proper

/-- The table of well-formed sequences excludes all others. The cases are its rows. -/
theorem Start.proper_of_longer {b : Nat} {o : Owing} (h : Start.ofByte b = .longer o) :
    o.Proper := by
  by_cases h1 : b < 0x80
  · rw [ofByte_one h1] at h
    cases h
  by_cases hstray : b < 0xC2 ∨ 0xF5 ≤ b
  · rw [ofByte_stray (by omega) hstray] at h
    cases h
  by_cases h2 : b < 0xE0
  · rw [ofByte_two (by omega) h2] at h
    cases h
    exact ⟨Nat.one_pos, Nat.le_refl _, Nat.le_refl _, by dsimp only; omega, by dsimp only; omega⟩
  by_cases h3 : b < 0xF0
  · rw [ofByte_three (by omega) h3] at h
    cases h
    refine ⟨Nat.succ_pos _, ?_, ?_, ?_, ?_⟩ <;> dsimp only <;> repeat' split
    all_goals omega
  · rw [ofByte_four (by omega) (by omega)] at h
    cases h
    refine ⟨Nat.succ_pos _, ?_, ?_, ?_, ?_⟩ <;> dsimp only <;> repeat' split
    all_goals omega

theorem Start.toNat_of_whole {b : Nat} {c : Char} (h : Start.ofByte b = .whole c) :
    c.toNat = b := by
  by_cases h1 : b < 0x80
  · rw [ofByte_one h1] at h
    cases h
    exact toNat_ofNat (.inl (by omega))
  by_cases hstray : b < 0xC2 ∨ 0xF5 ≤ b
  · rw [ofByte_stray (by omega) hstray] at h
    cases h
  by_cases h2 : b < 0xE0
  · rw [ofByte_two (by omega) h2] at h
    cases h
  by_cases h3 : b < 0xF0
  · rw [ofByte_three (by omega) h3] at h
    cases h
  · rw [ofByte_four (by omega) (by omega)] at h
    cases h

namespace State

/-- The sequence under way, if there is one, can only end in a character. -/
def Proper (s : State) : Prop := ∀ o, s.owing = some o → o.Proper

theorem proper_begin (text : List Char) (b : Nat) : (State.begin text b).Proper := by
  intro o ho
  unfold State.begin at ho
  cases hb : Start.ofByte b with
  | whole c =>
    rw [hb] at ho
    cases ho
  | longer o' =>
    rw [hb] at ho
    cases ho
    exact Start.proper_of_longer hb
  | stray =>
    rw [hb] at ho
    cases ho

theorem Proper.push {s : State} (h : s.Proper) (byte : UInt8) : (s.push byte).Proper := by
  obtain ⟨text, owing⟩ := s
  cases owing with
  | none => exact proper_begin text byte.toNat
  | some o =>
    have ho : o.Proper := h o rfl
    by_cases hb : o.low ≤ byte.toNat ∧ byte.toNat ≤ o.high
    · by_cases hc : o.count = 1
      · simp only [State.push, if_pos hb, if_pos hc]
        intro o' ho'
        cases ho'
      · simp only [State.push, if_pos hb, if_neg hc]
        intro o' ho'
        cases ho'
        exact ho.next hb.1 hb.2 hc
    · simp only [State.push, if_neg hb]
      exact proper_begin _ byte.toNat

theorem getLast?_finish_begin {text : List Char} {b : Nat} {c : Char}
    (h : (State.begin text b).finish.getLast? = some c) (hc : c.toNat < 0x80) : b = c.toNat := by
  unfold State.begin at h
  cases hs : Start.ofByte b with
  | whole c' =>
    obtain rfl : c' = c := by simpa [hs, State.finish] using h
    exact (Start.toNat_of_whole hs).symm
  | longer o =>
    obtain rfl : replacement = c := by simpa [hs, State.finish] using h
    exact absurd hc (by decide)
  | stray =>
    obtain rfl : replacement = c := by simpa [hs, State.finish] using h
    exact absurd hc (by decide)

/-- A last character of one byte is read from the last byte. -/
theorem Proper.getLast?_finish_push {s : State} (h : s.Proper) {byte : UInt8} {c : Char}
    (hlast : (s.push byte).finish.getLast? = some c) (hc : c.toNat < 0x80) :
    byte.toNat = c.toNat := by
  obtain ⟨text, owing⟩ := s
  cases owing with
  | none => exact getLast?_finish_begin hlast hc
  | some o =>
    have ho : o.Proper := h o rfl
    by_cases hb : o.low ≤ byte.toNat ∧ byte.toNat ≤ o.high
    · by_cases hcount : o.count = 1
      · obtain rfl : Char.ofNat (o.bits * 64 + byte.toNat % 64) = c := by
          simpa [State.push, hb, hcount, State.finish] using hlast
        have hpast := ho.last hb.1 hb.2 hcount
        omega
      · obtain rfl : replacement = c := by
          simpa [State.push, hb, hcount, State.finish] using hlast
        exact absurd hc (by decide)
    · simp only [State.push, if_neg hb] at hlast
      exact getLast?_finish_begin hlast hc

theorem proper_foldl (bytes : List UInt8) {s : State} (h : s.Proper) :
    (bytes.foldl State.push s).Proper := by
  induction bytes generalizing s with
  | nil => exact h
  | cons byte bytes ih => exact ih (h.push byte)

end State

theorem proper_start : State.Proper ⟨[], none⟩ := fun _ ho => by cases ho

theorem getLast?_of_decode {bytes : List UInt8} {c : Char}
    (h : (decode bytes).toList.getLast? = some c) (hc : c.toNat < 0x80) :
    ∃ byte, bytes.getLast? = some byte ∧ byte.toNat = c.toNat := by
  rw [decode, String.toList_ofList] at h
  cases bytes using List.reverseRecOn with
  | nil => cases h
  | append_singleton bytes byte =>
    rw [List.foldl_append] at h
    have hproper := State.proper_foldl bytes proper_start
    exact ⟨byte, List.getLast?_concat, hproper.getLast?_finish_push h hc⟩

theorem tight_decode {bytes : List UInt8} (h : bytes.getLast? ≠ some 0) : Tight (decode bytes) := by
  intro hnul
  obtain ⟨byte, hbyte, hzero⟩ := getLast?_of_decode hnul (by decide)
  obtain rfl : byte = 0 := UInt8.toNat_inj.1 hzero
  exact h hbyte

end Utf8

theorem Decoder.getLast?_trimZeros (bytes : List UInt8) : (trimZeros bytes).getLast? ≠ some 0 := by
  have hhead := List.head?_dropWhile_not (fun b : UInt8 => decide (b = 0)) bytes.reverse
  rw [trimZeros, List.getLast?_reverse]
  intro h
  rw [h] at hhead
  cases hhead

/-- A text behind which zeros are trimmed. -/
theorem Decoder.tight_trimZeros (bytes : List UInt8) : Tight (Utf8.decode (trimZeros bytes)) :=
  Utf8.tight_decode (getLast?_trimZeros bytes)

end AmigaHunk
