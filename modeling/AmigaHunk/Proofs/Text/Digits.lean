import AmigaHunk.Proofs.Text.Numeral
import Mathlib.Data.List.Forall2
import Mathlib.Data.List.Induction
import Mathlib.Data.Nat.Digits.Defs

/-! Which texts are numerals. Digits are read from the left, and the first character that is no
digit, or the digit with which the number reaches the bound, decides why a text is none. -/
namespace AmigaHunk.Numeral
variable {radix bound value n : Nat} {cs front : List Char} {ds : List Nat} {c : Char}

/-- The characters for a digit; letters stand for it in either case. -/
def IsDigit (radix : Nat) (c : Char) (d : Nat) : Prop :=
  d < radix ∧ (c = d.digitChar ∨ c = d.digitChar.toUpper)

theorem toNat_digitChar {d : Nat} (h : d < 16) :
    d.digitChar.toNat = if d < 10 then d + 48 else d + 87 := by
  interval_cases d <;> rfl

theorem toNat_toUpper_digitChar {d : Nat} (h : d < 16) :
    d.digitChar.toUpper.toNat = if d < 10 then d + 48 else d + 55 := by
  interval_cases d <;> rfl

theorem isLower_iff : c.isLower = true ↔ 97 ≤ c.toNat ∧ c.toNat ≤ 122 := by
  change (decide (c.val ≥ 97) && decide (c.val ≤ 122)) = true ↔ _
  simp [UInt32.le_iff_toNat_le]

theorem isUpper_iff : c.isUpper = true ↔ 65 ≤ c.toNat ∧ c.toNat ≤ 90 := by
  change decide (c.val ≥ 65 ∧ c.val ≤ 90) = true ↔ _
  simp [UInt32.le_iff_toNat_le]

theorem digit?_eq_some_iff (h16 : radix ≤ 16) {d : Nat} :
    digit? radix c = some d ↔ IsDigit radix c d := by
  rw [digit?, Option.filter_eq_some_iff, decide_eq_true_iff, and_comm, IsDigit]
  refine and_congr_right fun hd => ?_
  have hlower := toNat_digitChar (d := d) (by omega)
  have hupper := toNat_toUpper_digitChar (d := d) (by omega)
  rw [← Char.toNat_inj, ← Char.toNat_inj, hlower, hupper]
  simp only [Char.isDigit_iff_toNat, isLower_iff, isUpper_iff, Char.reduceToNat]
  grind

/-- The characters are those of the digits, one by one. -/
def Writes (radix : Nat) : List Char → List Nat → Prop := List.Forall₂ (IsDigit radix)

/-- The number that digits make, the highest first. -/
def number (radix : Nat) (ds : List Nat) : Nat := Nat.ofDigits radix ds.reverse

theorem number_eq_foldl (ds : List Nat) :
    number radix ds = ds.foldl (fun n d => n * radix + d) 0 := by
  simp [number, Nat.ofDigits_eq_foldr, Nat.add_comm, Nat.mul_comm]

theorem Writes.concat {d : Nat} (h : Writes radix cs ds) (hd : IsDigit radix c d) :
    Writes radix (cs ++ [c]) (ds ++ [d]) :=
  List.rel_append h (.cons hd .nil)

theorem le_foldl (hradix : 0 < radix) (value : Nat) (ds : List Nat) :
    value ≤ ds.foldl (fun n d => n * radix + d) value := by
  induction ds generalizing value with
  | nil => exact le_rfl
  | cons d ds ih =>
    have hstep : value ≤ value * radix + d := by nlinarith
    exact hstep.trans (ih _)

/-- Digits that stay below the bound are read to their end. -/
theorem readDigits_of_lt (hradix : 0 < radix) (h16 : radix ≤ 16) (h : Writes radix cs ds)
    (hlt : ds.foldl (fun n d => n * radix + d) value < bound) :
    readDigits radix bound value cs = .ok (ds.foldl (fun n d => n * radix + d) value) := by
  induction h generalizing value with
  | nil => rfl
  | @cons c d cs ds hc _ ih =>
    have hle := le_foldl hradix (value * radix + d) ds
    rw [readDigits, (digit?_eq_some_iff h16).2 hc]
    simp only [List.foldl_cons] at hlt ⊢
    rw [if_pos (by omega), ih hlt]

/-- Digits that reach the bound are not read to their end. -/
theorem readDigits_of_le (h16 : radix ≤ 16) (h : Writes radix front ds) (hvalue : value < bound)
    (hle : bound ≤ ds.foldl (fun n d => n * radix + d) value) (rest : List Char) :
    readDigits radix bound value (front ++ rest) = .error .tooLarge := by
  induction h generalizing value with
  | nil =>
    simp only [List.foldl_nil] at hle
    omega
  | @cons c d cs ds hc _ ih =>
    rw [List.cons_append, readDigits, (digit?_eq_some_iff h16).2 hc]
    simp only [List.foldl_cons] at hle ⊢
    split
    · exact ih ‹_› hle
    · rfl

/-- What reading digits comes to, as the text decides it. -/
inductive Verdict (radix bound : Nat) (cs : List Char) : Except Fault Nat → Prop
  | ok {ds : List Nat} (digits : Writes radix cs ds) (lt : number radix ds < bound) :
    Verdict radix bound cs (.ok (number radix ds))
  | invalidDigit {front : List Char} {c : Char} {rest : List Char} {ds : List Nat}
    (split : cs = front ++ c :: rest) (digits : Writes radix front ds)
    (lt : number radix ds < bound) (not_digit : ∀ d, ¬IsDigit radix c d) :
    Verdict radix bound cs (.error .invalidDigit)
  | tooLarge {front rest : List Char} {ds : List Nat} (split : cs = front ++ rest)
    (digits : Writes radix front ds) (le : bound ≤ number radix ds) :
    Verdict radix bound cs (.error .tooLarge)

theorem Verdict.readDigits_eq (hradix : 0 < radix) (h16 : radix ≤ 16) (hbound : 0 < bound)
    {r : Except Fault Nat} (h : Verdict radix bound cs r) : readDigits radix bound 0 cs = r := by
  cases h with
  | @ok ds hcs hlt =>
    rw [number_eq_foldl] at hlt ⊢
    exact readDigits_of_lt hradix h16 hcs hlt
  | @invalidDigit front c rest ds hsplit hfront hlt hnone =>
    rw [number_eq_foldl] at hlt
    have hc : digit? radix c = none := by
      simpa [Option.eq_none_iff_forall_ne_some, digit?_eq_some_iff h16] using hnone
    rw [hsplit, readDigits_append, readDigits_of_lt hradix h16 hfront hlt]
    change readDigits radix bound _ (c :: rest) = _
    rw [readDigits, hc]
  | @tooLarge front rest ds hsplit hfront hle =>
    rw [number_eq_foldl] at hle
    rw [hsplit, readDigits_of_le h16 hfront hbound hle]

/-- Induction from the right, along which the front stays the same once the text is no number. -/
theorem exists_verdict (radix : Nat) (hbound : 0 < bound) (cs : List Char) :
    ∃ r, Verdict radix bound cs r := by
  induction cs using List.reverseRecOn with
  | nil => exact ⟨_, .ok .nil hbound⟩
  | append_singleton cs c ih =>
    obtain ⟨r, hr⟩ := ih
    cases hr with
    | @ok ds hcs hlt =>
      by_cases hc : ∃ d, IsDigit radix c d
      · obtain ⟨d, hd⟩ := hc
        by_cases hle : bound ≤ number radix (ds ++ [d])
        · exact ⟨_, .tooLarge (List.append_nil _).symm (hcs.concat hd) hle⟩
        · exact ⟨_, .ok (hcs.concat hd) (by omega)⟩
      · exact ⟨_, .invalidDigit rfl hcs hlt (not_exists.1 hc)⟩
    | invalidDigit hsplit hfront hlt hnone =>
      exact ⟨_, .invalidDigit (by rw [hsplit, List.append_assoc, List.cons_append]) hfront hlt
        hnone⟩
    | tooLarge hsplit hfront hle =>
      exact ⟨_, .tooLarge (by rw [hsplit, List.append_assoc]) hfront hle⟩

theorem verdict_iff (hradix : 0 < radix) (h16 : radix ≤ 16) (hbound : 0 < bound)
    {r : Except Fault Nat} : Verdict radix bound cs r ↔ readDigits radix bound 0 cs = r := by
  refine ⟨Verdict.readDigits_eq hradix h16 hbound, ?_⟩
  rintro rfl
  obtain ⟨r, hr⟩ := exists_verdict radix hbound cs
  rwa [hr.readDigits_eq hradix h16 hbound]

/-- A numeral without the sign in front of it. -/
def unsigned : List Char → List Char
  | '+' :: digits => digits
  | digits => digits

theorem read_eq (cs : List Char) : read radix bound cs =
    if cs = [] then .error .empty else if unsigned cs = [] then .error .invalidDigit
    else readDigits radix bound 0 (unsigned cs) := by
  unfold read unsigned
  split <;> simp_all

theorem unsigned_eq_nil_iff : unsigned cs = [] ↔ cs = [] ∨ cs = ['+'] := by
  unfold unsigned
  split <;> simp_all

/-- A text with something behind the sign is read for its digits. -/
theorem read_of_unsigned_ne_nil (h : unsigned cs ≠ []) :
    read radix bound cs = readDigits radix bound 0 (unsigned cs) := by
  have hcs : cs ≠ [] := fun hnil => h (unsigned_eq_nil_iff.2 (.inl hnil))
  rw [read_eq, if_neg hcs, if_neg h]

section
variable (hradix : 0 < radix) (h16 : radix ≤ 16) (hbound : 0 < bound)
include hradix h16 hbound

theorem read_eq_ok_iff : read radix bound cs = .ok n ↔ unsigned cs ≠ [] ∧
    ∃ ds, Writes radix (unsigned cs) ds ∧ number radix ds = n ∧ n < bound := by
  by_cases h : unsigned cs = []
  · obtain rfl | rfl := unsigned_eq_nil_iff.1 h <;> simp [read, unsigned]
  · rw [read_of_unsigned_ne_nil h, ← verdict_iff hradix h16 hbound, and_iff_right h]
    constructor
    · rintro ⟨hdigits, hlt⟩
      exact ⟨_, hdigits, rfl, hlt⟩
    · rintro ⟨ds, hdigits, rfl, hlt⟩
      exact .ok hdigits hlt

theorem read_eq_empty_iff : read radix bound cs = .error .empty ↔ cs = [] := by
  by_cases h : unsigned cs = []
  · obtain rfl | rfl := unsigned_eq_nil_iff.1 h <;> simp [read]
  · rw [read_of_unsigned_ne_nil h, ← verdict_iff hradix h16 hbound]
    exact ⟨nofun, fun hnil => absurd (unsigned_eq_nil_iff.2 (.inl hnil)) h⟩

theorem read_eq_invalidDigit_iff : read radix bound cs = .error .invalidDigit ↔ cs = ['+'] ∨
    ∃ front c rest ds, unsigned cs = front ++ c :: rest ∧ Writes radix front ds ∧
      number radix ds < bound ∧ ∀ d, ¬IsDigit radix c d := by
  by_cases h : unsigned cs = []
  · obtain rfl | rfl := unsigned_eq_nil_iff.1 h <;> simp [read, unsigned]
  · rw [read_of_unsigned_ne_nil h, ← verdict_iff hradix h16 hbound]
    constructor
    · rintro (_ | ⟨hsplit, hdigits, hlt, hnot⟩)
      exact .inr ⟨_, _, _, _, hsplit, hdigits, hlt, hnot⟩
    · rintro (hsign | ⟨front, c, rest, ds, hsplit, hdigits, hlt, hnot⟩)
      · exact absurd (unsigned_eq_nil_iff.2 (.inr hsign)) h
      · exact .invalidDigit hsplit hdigits hlt hnot

theorem read_eq_tooLarge_iff : read radix bound cs = .error .tooLarge ↔
    ∃ front rest ds, unsigned cs = front ++ rest ∧ Writes radix front ds ∧
      bound ≤ number radix ds := by
  by_cases h : unsigned cs = []
  · have hnot : ¬bound ≤ number radix [] := Nat.not_le.2 hbound
    obtain rfl | rfl := unsigned_eq_nil_iff.1 h <;> simpa [read, unsigned, Writes] using hnot
  · rw [read_of_unsigned_ne_nil h, ← verdict_iff hradix h16 hbound]
    constructor
    · rintro (_ | _ | ⟨hsplit, hdigits, hle⟩)
      exact ⟨_, _, _, hsplit, hdigits, hle⟩
    · rintro ⟨front, rest, ds, hsplit, hdigits, hle⟩
      exact .tooLarge hsplit hdigits hle

end

end AmigaHunk.Numeral
