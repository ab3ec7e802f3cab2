import AmigaHunk.Text.Utf8

/-! The text of the bytes of a text is the text itself. -/
namespace AmigaHunk.Utf8

theorem Start.ofByte_one {n : Nat} (h : n < 0x80) : Start.ofByte n = .whole (Char.ofNat n) := by
  rw [Start.ofByte, if_pos h]

theorem Start.ofByte_two {n : Nat} (h : 0xC2 ≤ n) (h' : n < 0xE0) :
    Start.ofByte n = .longer ⟨1, 0x80, 0xBF, n - 0xC0⟩ := by
  have h1 : ¬n < 0x80 := by omega
  have h2 : ¬n < 0xC2 := by omega
  rw [Start.ofByte, if_neg h1, if_neg h2, if_pos h']

theorem Start.ofByte_three {n : Nat} (h : 0xE0 ≤ n) (h' : n < 0xF0) :
    Start.ofByte n = .longer ⟨2, if n = 0xE0 then 0xA0 else 0x80, if n = 0xED then 0x9F else 0xBF,
      n - 0xE0⟩ := by
  have h1 : ¬n < 0x80 := by omega
  have h2 : ¬n < 0xC2 := by omega
  have h3 : ¬n < 0xE0 := by omega
  rw [Start.ofByte, if_neg h1, if_neg h2, if_neg h3]
  by_cases hE0 : n = 0xE0
  · subst hE0
    rfl
  · by_cases hED : n = 0xED
    · subst hED
      rfl
    · rw [if_neg hE0, if_neg hED, if_pos h', if_neg hE0, if_neg hED]

theorem Start.ofByte_four {n : Nat} (h : 0xF0 ≤ n) (h' : n < 0xF5) :
    Start.ofByte n = .longer ⟨3, if n = 0xF0 then 0x90 else 0x80, if n = 0xF4 then 0x8F else 0xBF,
      n - 0xF0⟩ := by
  have hn : n = 0xF0 ∨ n = 0xF1 ∨ n = 0xF2 ∨ n = 0xF3 ∨ n = 0xF4 := by omega
  obtain rfl | rfl | rfl | rfl | rfl := hn <;> rfl

/-- No character starts with a byte that continues one, nor with one past all others. -/
theorem Start.ofByte_stray {n : Nat} (h : 0x80 ≤ n) (h' : n < 0xC2 ∨ 0xF5 ≤ n) :
    Start.ofByte n = .stray := by
  have h1 : ¬n < 0x80 := by omega
  cases h' with
  | inl h' => rw [Start.ofByte, if_neg h1, if_pos h']
  | inr h' =>
    have h2 : ¬n < 0xC2 ∧ ¬n < 0xE0 := by omega
    have h3 : n ≠ 0xE0 ∧ n ≠ 0xED ∧ ¬n < 0xF0 := by omega
    have h4 : n ≠ 0xF0 ∧ ¬n < 0xF4 ∧ n ≠ 0xF4 := by omega
    rw [Start.ofByte, if_neg h1, if_neg h2.1, if_neg h2.2, if_neg h3.1, if_neg h3.2.1,
      if_neg h3.2.2, if_neg h4.1, if_neg h4.2.1, if_neg h4.2.2]

namespace State
variable {text : List Char} {n low high bits k : Nat}

theorem push_first (text : List Char) (hn : n < 256) :
    push ⟨text, none⟩ (UInt8.ofNat n) = begin text n := by
  have hb : (UInt8.ofNat n).toNat = n := UInt8.toNat_ofNat_of_lt' hn
  change begin text (UInt8.ofNat n).toNat = _
  rw [hb]

theorem push_last (hn : n < 256) (hl : low ≤ n) (hh : n ≤ high) :
    push ⟨text, some ⟨1, low, high, bits⟩⟩ (UInt8.ofNat n) =
      ⟨Char.ofNat (bits * 64 + n % 64) :: text, none⟩ := by
  have hb : (UInt8.ofNat n).toNat = n := UInt8.toNat_ofNat_of_lt' hn
  simp only [push, hb, if_pos (And.intro hl hh), if_true]

theorem push_owed (hn : n < 256) (hl : low ≤ n) (hh : n ≤ high) :
    push ⟨text, some ⟨k + 2, low, high, bits⟩⟩ (UInt8.ofNat n) =
      ⟨text, some ⟨k + 1, 0x80, 0xBF, bits * 64 + n % 64⟩⟩ := by
  have hb : (UInt8.ofNat n).toNat = n := UInt8.toNat_ofNat_of_lt' hn
  have hk : ¬k + 2 = 1 := by omega
  simp only [push, hb, if_pos (And.intro hl hh), if_neg hk]
  rfl

/-- The bytes of a character are read as that character. The cases are those of its encoding. -/
theorem foldl_push_char (c : Char) (text : List Char) :
    (String.utf8EncodeChar c).foldl push ⟨text, none⟩ = ⟨c :: text, none⟩ := by
  have hv : c.val.toNat < 0xD800 ∨ 0xDFFF < c.val.toNat ∧ c.val.toNat < 0x110000 := c.valid
  have hc : Char.ofNat c.val.toNat = c := Char.ofNat_toNat c
  rw [String.utf8EncodeChar]
  generalize c.val.toNat = v at hv hc
  by_cases h1 : v ≤ 0x7F
  · have hlt : v < 0x80 := by omega
    simp only [if_pos h1, List.foldl_cons, List.foldl_nil]
    rw [push_first text (by omega), begin, Start.ofByte_one hlt, hc]
  by_cases h2 : v ≤ 0x7FF
  · have hlead : v / 64 % 32 + 0xC0 - 0xC0 = v / 64 := by omega
    have hbits : v / 64 * 64 + (v % 64 + 0x80) % 64 = v := by omega
    simp only [if_neg h1, if_pos h2, List.foldl_cons, List.foldl_nil]
    rw [push_first text (by omega), begin, Start.ofByte_two (by omega) (by omega), hlead,
      push_last (by omega) (by omega) (by omega), hbits, hc]
  by_cases h3 : v ≤ 0xFFFF
  · have hlead : v / 4096 % 16 + 0xE0 - 0xE0 = v / 4096 := by omega
    have hmiddle : v / 4096 * 64 + (v / 64 % 64 + 0x80) % 64 = v / 64 := by omega
    have hbits : v / 64 * 64 + (v % 64 + 0x80) % 64 = v := by omega
    simp only [if_neg h1, if_neg h2, if_pos h3, List.foldl_cons, List.foldl_nil]
    rw [push_first text (by omega), begin, Start.ofByte_three (by omega) (by omega), hlead,
      push_owed (by omega) (by split <;> omega) (by split <;> omega), hmiddle,
      push_last (by omega) (by omega) (by omega), hbits, hc]
  · have hlead : v / 262144 % 8 + 0xF0 - 0xF0 = v / 262144 := by omega
    have hsecond : v / 262144 * 64 + (v / 4096 % 64 + 0x80) % 64 = v / 4096 := by omega
    have hthird : v / 4096 * 64 + (v / 64 % 64 + 0x80) % 64 = v / 64 := by omega
    have hbits : v / 64 * 64 + (v % 64 + 0x80) % 64 = v := by omega
    simp only [if_neg h1, if_neg h2, if_neg h3, List.foldl_cons, List.foldl_nil]
    rw [push_first text (by omega), begin, Start.ofByte_four (by omega) (by omega), hlead,
      push_owed (by omega) (by split <;> omega) (by split <;> omega), hsecond,
      push_owed (by omega) (by omega) (by omega), hthird,
      push_last (by omega) (by omega) (by omega), hbits, hc]

theorem foldl_push_text (cs text : List Char) :
    (cs.flatMap String.utf8EncodeChar).foldl push ⟨text, none⟩ = ⟨cs.reverse ++ text, none⟩ := by
  induction cs generalizing text with
  | nil => rfl
  | cons c cs ih =>
    rw [List.flatMap_cons, List.foldl_append, foldl_push_char, ih, List.reverse_cons,
      List.append_assoc, List.singleton_append]

end State

theorem decode_encode (s : String) : decode (encode s) = s := by
  rw [decode, encode, State.foldl_push_text, State.finish]
  simp only [List.append_nil, List.reverse_reverse, String.ofList_toList]

theorem getLast?_encodeChar {c : Char} (h : c ≠ '\x00') :
    (String.utf8EncodeChar c).getLast? ≠ some 0 := by
  have hc : Char.ofNat c.val.toNat = c := Char.ofNat_toNat c
  have hv : c.val.toNat ≠ 0 := by
    intro h0
    rw [h0] at hc
    exact h hc.symm
  have hz : ∀ n, n < 256 → n ≠ 0 → UInt8.ofNat n ≠ 0 := by
    intro n hn h0 he
    have ht := congrArg UInt8.toNat he
    rw [UInt8.toNat_ofNat_of_lt' hn] at ht
    exact h0 ht
  rw [String.utf8EncodeChar]
  generalize c.val.toNat = v at hv
  by_cases h1 : v ≤ 0x7F
  · simpa only [if_pos h1, List.getLast?_singleton, ne_eq, Option.some.injEq] using
      hz v (by omega) hv
  · have hlast := hz (v % 64 + 0x80) (by omega) (by omega)
    simp only [if_neg h1]
    split
    · simpa using hlast
    · split <;> simpa using hlast

/-- Only a text that ends in a NUL has a zero byte at its end. -/
theorem getLast?_encode {s : String} (h : s.toList.getLast? ≠ some '\x00') :
    (encode s).getLast? ≠ some 0 := by
  rw [encode]
  cases hs : s.toList.getLast? with
  | none =>
    rw [List.getLast?_eq_none_iff.1 hs]
    simp
  | some c =>
    obtain ⟨cs, hcs⟩ := List.getLast?_eq_some_iff.1 hs
    have hc : c ≠ '\x00' := by
      intro he
      exact h (he ▸ hs)
    rw [hcs, List.flatMap_append, List.flatMap_singleton, List.getLast?_append]
    cases hl : (String.utf8EncodeChar c).getLast? with
    | none =>
      have hlength := String.length_utf8EncodeChar c
      have hpos := c.utf8Size_pos
      rw [List.getLast?_eq_none_iff.1 hl, List.length_nil] at hlength
      omega
    | some b =>
      have hb := getLast?_encodeChar hc
      rwa [hl] at hb

end AmigaHunk.Utf8
