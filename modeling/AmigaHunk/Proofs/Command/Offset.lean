import AmigaHunk.Proofs.Text.Digits

/-! Which texts are offsets, and what is wrong with the others. -/
namespace AmigaHunk.Operand
open Numeral
variable {s : String} {n : UInt32}

/-- The text starts as a hexadecimal offset does. -/
def isHex (s : String) : Bool := ['0', 'x'].isPrefixOf s.toList || ['0', 'X'].isPrefixOf s.toList

def radix (s : String) : Nat := if isHex s then 16 else 10

/-- What has to be a numeral in the radix. -/
def numeral (s : String) : List Char := if isHex s then s.toList.drop 2 else s.toList

theorem isHex_iff : isHex s = true ↔ ['0', 'x'] <+: s.toList ∨ ['0', 'X'] <+: s.toList := by
  simp [isHex]

theorem offset_eq (s : String) :
    offset s = (read (radix s) 0x100000000 (numeral s)).map UInt32.ofNat := by
  cases h : isHex s with
  | true =>
    rw [radix, numeral, if_pos h, if_pos h, offset]
    obtain ⟨digits, hs⟩ | ⟨digits, hs⟩ := isHex_iff.1 h <;> rw [← hs] <;> rfl
  | false =>
    have hnot : ¬(['0', 'x'] <+: s.toList ∨ ['0', 'X'] <+: s.toList) := by
      rw [← isHex_iff, h]
      exact Bool.false_ne_true
    rw [radix, numeral, h, offset]
    split
    · exact absurd (.inl ⟨_, Eq.symm ‹_›⟩) hnot
    · exact absurd (.inr ⟨_, Eq.symm ‹_›⟩) hnot
    · rfl

theorem radix_pos (s : String) : 0 < radix s := by
  unfold radix
  split <;> decide

theorem radix_le (s : String) : radix s ≤ 16 := by
  unfold radix
  split <;> decide

theorem offset_eq_ok_iff : offset s = .ok n ↔ unsigned (numeral s) ≠ [] ∧
    ∃ ds, Writes (radix s) (unsigned (numeral s)) ds ∧ number (radix s) ds = n.toNat := by
  have hiff {m : Nat} : read (radix s) 0x100000000 (numeral s) = .ok m ↔ _ :=
    read_eq_ok_iff (radix_pos s) (radix_le s) (by decide)
  have hread : offset s = .ok n ↔ read (radix s) 0x100000000 (numeral s) = .ok n.toNat := by
    rw [offset_eq]
    cases h : read (radix s) 0x100000000 (numeral s) with
    | error fault => simp [Except.map]
    | ok m =>
      obtain ⟨-, ds, -, -, hlt⟩ := hiff.1 h
      simp only [Except.map, Except.ok.injEq]
      rw [← UInt32.toNat_inj, UInt32.toNat_ofNat_of_lt' hlt]
  simp [hread, hiff, n.toNat_lt]

theorem offset_eq_error_iff {fault : Numeral.Fault} :
    offset s = .error fault ↔ read (radix s) 0x100000000 (numeral s) = .error fault := by
  rw [offset_eq]
  cases read (radix s) 0x100000000 (numeral s) <;> simp [Except.map]

theorem offset_decimal (n : UInt32) : offset (decimal n.toNat) = .ok n := by
  have hread : readDigits 10 0x100000000 0 (Nat.toDigits 10 n.toNat) = .ok n.toNat :=
    readDigits_toDigits (by decide) (by decide) n.toNat_lt
  have hdigits := (isDecimal_decimal n.toNat).2
  have hplain : isHex (decimal n.toNat) = false := by
    rw [Bool.eq_false_iff, Ne, isHex_iff]
    rintro (⟨digits, hs⟩ | ⟨digits, hs⟩) <;> simp [← hs] at hdigits
  rw [offset_eq, radix, numeral, hplain]
  simp [decimal, read_of_readDigits Nat.toDigits_ne_nil hread, Except.map]

/-- An offset is a numeral, in hexadecimal digits behind its mark and in decimal ones otherwise,
whose number fits. If there is nothing at all, it is empty; a sign alone is a bad digit. Of the
others, one has a bad digit if that comes before the digits reach the bound. -/
theorem offset_iff_numeral :
    (∀ s : String,
      (∀ n : UInt32, offset s = .ok n ↔ unsigned (numeral s) ≠ [] ∧
        ∃ ds, Writes (radix s) (unsigned (numeral s)) ds ∧ number (radix s) ds = n.toNat) ∧
      (offset s = .error .empty ↔ numeral s = []) ∧
      (offset s = .error .invalidDigit ↔ numeral s = ['+'] ∨ ∃ front c rest ds,
        unsigned (numeral s) = front ++ c :: rest ∧ Writes (radix s) front ds ∧
          number (radix s) ds < 0x100000000 ∧ ∀ d, ¬IsDigit (radix s) c d) ∧
      (offset s = .error .tooLarge ↔ ∃ front rest ds, unsigned (numeral s) = front ++ rest ∧
        Writes (radix s) front ds ∧ 0x100000000 ≤ number (radix s) ds)) ∧
    ∀ n : UInt32, offset (decimal n.toNat) = .ok n ∧
      ∀ k, offset ("0x" ++ String.ofList (List.replicate k '0') ++ hex n.toNat) = .ok n := by
  refine ⟨fun s => ⟨fun n => offset_eq_ok_iff, ?_, ?_, ?_⟩,
    fun n => ⟨offset_decimal n, (offset_hex · n)⟩⟩
  · rw [offset_eq_error_iff, read_eq_empty_iff (radix_pos s) (radix_le s) (by decide)]
  · rw [offset_eq_error_iff, read_eq_invalidDigit_iff (radix_pos s) (radix_le s) (by decide)]
  · rw [offset_eq_error_iff, read_eq_tooLarge_iff (radix_pos s) (radix_le s) (by decide)]

end AmigaHunk.Operand
