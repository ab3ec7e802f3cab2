import AmigaHunk.Command.Line
import Mathlib.Tactic.IntervalCases

/-! Numbers that are printed and read back. -/
namespace AmigaHunk

namespace Numeral
variable {radix bound n : Nat}

theorem digit?_digitChar {d : Nat} (h16 : d < 16) (hd : d < radix) :
    digit? radix d.digitChar = some d := by
  have hvalue : (if d.digitChar.isDigit then some (d.digitChar.toNat - '0'.toNat)
      else if d.digitChar.isLower then some (d.digitChar.toNat - 'a'.toNat + 10)
      else if d.digitChar.isUpper then some (d.digitChar.toNat - 'A'.toNat + 10)
      else none) = some d := by
    interval_cases d <;> rfl
  rw [digit?, hvalue]
  exact Option.filter_some_pos (decide_eq_true hd)

theorem readDigits_append (value : Nat) (cs ds : List Char) :
    readDigits radix bound value (cs ++ ds) =
      readDigits radix bound value cs >>= fun n => readDigits radix bound n ds := by
  induction cs generalizing value with
  | nil => rfl
  | cons c cs ih =>
    rw [List.cons_append, readDigits, readDigits]
    split
    · rfl
    · split
      · exact ih _
      · rfl

theorem readDigits_singleton {d : Nat} (h16 : d < 16) (hd : d < radix) {value : Nat}
    (h : value * radix + d < bound) :
    readDigits radix bound value [d.digitChar] = .ok (value * radix + d) := by
  rw [readDigits, digit?_digitChar h16 hd]
  exact if_pos h

/-- The digits in front of the last one are those of a smaller number. -/
theorem readDigits_toDigits (hradix : 1 < radix) (h16 : radix ≤ 16) (h : n < bound) :
    readDigits radix bound 0 (Nat.toDigits radix n) = .ok n := by
  induction n using Nat.strongRecOn with
  | ind n ih =>
    by_cases hn : n < radix
    · rw [Nat.toDigits_of_lt_base hn]
      have hlast : readDigits radix bound 0 [n.digitChar] = .ok (0 * radix + n) :=
        readDigits_singleton (by omega) hn (by omega)
      rwa [Nat.zero_mul, Nat.zero_add] at hlast
    · have hlt := Nat.div_lt_self (by omega : 0 < n) hradix
      have hmod := Nat.mod_lt n (by omega : 0 < radix)
      have hsum : n / radix * radix + n % radix = n := Nat.div_add_mod' n radix
      rw [Nat.toDigits_of_base_le hradix (by omega), readDigits_append, ih _ hlt (by omega)]
      have hlast : readDigits radix bound (n / radix) [(n % radix).digitChar] =
          .ok (n / radix * radix + n % radix) := readDigits_singleton (by omega) hmod (by omega)
      rwa [hsum] at hlast

theorem readDigits_zeros (hradix : 0 < radix) (hbound : 0 < bound) (k : Nat) (cs : List Char) :
    readDigits radix bound 0 (List.replicate k '0' ++ cs) = readDigits radix bound 0 cs := by
  induction k with
  | zero => rfl
  | succ k ih =>
    have hzero : digit? radix '0' = some 0 := digit?_digitChar (d := 0) (by decide) hradix
    rw [List.replicate_succ, List.cons_append, readDigits, hzero, ← ih]
    simp [hbound]

theorem digit?_of_readDigits {value : Nat} {cs : List Char}
    (h : readDigits radix bound value cs = .ok n) : ∀ c ∈ cs, (digit? radix c).isSome = true := by
  induction cs generalizing value with
  | nil => exact nofun
  | cons c cs ih =>
    rw [readDigits] at h
    cases hc : digit? radix c with
    | none =>
      rw [hc] at h
      cases h
    | some d =>
      simp only [hc] at h
      refine List.forall_mem_cons.2 ⟨by rw [hc]; rfl, ?_⟩
      split at h
      · exact ih h
      · cases h

/-- A sign is no digit. -/
theorem read_of_readDigits {cs : List Char} (hne : cs ≠ [])
    (h : readDigits radix bound 0 cs = .ok n) : read radix bound cs = .ok n := by
  unfold read
  split
  · exact absurd rfl hne
  · rw [readDigits, show digit? radix '+' = none from rfl] at h
    cases h
  · rw [readDigits, show digit? radix '+' = none from rfl] at h
    cases h
  · exact h

theorem toList_hex8 (w : UInt32) : (hex8 w).toList =
    List.replicate (8 - (Nat.toDigits 16 w.toNat).length) '0' ++ Nat.toDigits 16 w.toNat := by
  rw [hex8, String.toList_ofList]
  rfl

theorem readDigits_hex8 (w : UInt32) :
    readDigits 16 0x100000000 0 (hex8 w).toList = .ok w.toNat := by
  rw [toList_hex8, readDigits_zeros (by decide) (by decide)]
  exact readDigits_toDigits (by decide) (by decide) w.toNat_lt

/-- A text of decimal digits alone. -/
def IsDecimal (s : String) : Prop := s ≠ "" ∧ ∀ c ∈ s.toList, c.isDigit = true

/-- A text of eight hexadecimal digits. -/
def IsHex8 (s : String) : Prop :=
  s.toList.length = 8 ∧ ∀ c ∈ s.toList, (digit? 16 c).isSome = true

theorem isDecimal_decimal (n : Nat) : IsDecimal (decimal n) := by
  rw [IsDecimal, ← String.toList_inj.ne, decimal, String.toList_ofList]
  exact ⟨Nat.toDigits_ne_nil, fun c => Nat.isDigit_of_mem_toDigits (by decide) (by decide)⟩

theorem length_hex8 (w : UInt32) : (hex8 w).toList.length = 8 := by
  have hle : (Nat.toDigits 16 w.toNat).length ≤ 8 :=
    (Nat.length_toDigits_le_iff (by decide) (by decide)).2 w.toNat_lt
  rw [toList_hex8, List.length_append, List.length_replicate]
  omega

theorem isHex8_hex8 (w : UInt32) : IsHex8 (hex8 w) :=
  ⟨length_hex8 w, digit?_of_readDigits (readDigits_hex8 w)⟩

end Numeral

namespace Operand

theorem segment?_decimal {n : Nat} (h : n < 0x10000000000000000) :
    segment? (Numeral.decimal n) = some n := by
  have hread : Numeral.readDigits 10 0x10000000000000000 0 (Nat.toDigits 10 n) = .ok n :=
    Numeral.readDigits_toDigits (by decide) (by decide) h
  rw [segment?, Numeral.decimal, String.toList_ofList,
    Numeral.read_of_readDigits Nat.toDigits_ne_nil hread]
  rfl

/-- Zeros in front of the digits do not matter. -/
theorem offset_hex (k : Nat) (n : UInt32) :
    offset ("0x" ++ String.ofList (List.replicate k '0') ++ Numeral.hex n.toNat) = .ok n := by
  have hread : Numeral.readDigits 16 0x100000000 0
      (List.replicate k '0' ++ Nat.toDigits 16 n.toNat) = .ok n.toNat := by
    rw [Numeral.readDigits_zeros (by decide) (by decide)]
    exact Numeral.readDigits_toDigits (by decide) (by decide) n.toNat_lt
  have hne : List.replicate k '0' ++ Nat.toDigits 16 n.toNat ≠ [] := by
    simp [Nat.toDigits_ne_nil]
  simp only [offset, Numeral.hex, String.toList_append, String.toList_ofList, List.append_assoc]
  change (Numeral.read 16 0x100000000
    (List.replicate k '0' ++ Nat.toDigits 16 n.toNat)).map UInt32.ofNat = _
  rw [Numeral.read_of_readDigits hne hread, Except.map, UInt32.ofNat_toNat]

theorem offset_hex8 (w : UInt32) : offset ("0x" ++ Numeral.hex8 w) = .ok w := by
  have hzeros : "0x" ++ Numeral.hex8 w = "0x" ++ String.ofList
      (List.replicate (8 - (Nat.toDigits 16 w.toNat).length) '0') ++ Numeral.hex w.toNat := by
    rw [← String.toList_inj]
    simp [Numeral.toList_hex8, Numeral.hex]
  rw [hzeros, offset_hex]

end Operand
end AmigaHunk
