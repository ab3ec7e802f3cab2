import AmigaHunk.Proofs.Binary.Reads
import Mathlib.Algebra.Group.Nat.Defs
import Mathlib.Data.List.Induction
import Mathlib.Tactic.Simproc.ExistsAndEq

/-! The fields of a binary as bytes, and what each of the basic decoders takes. -/
namespace AmigaHunk

/-- The last `width` digits of `n` to the base 256, most significant first. -/
def bigEndianBytes : Nat → Nat → List UInt8
  | 0, _ => []
  | width + 1, n => bigEndianBytes width (n / 256) ++ [UInt8.ofNat n]

theorem bigEndian_concat (bytes : List UInt8) (b : UInt8) :
    bigEndian (bytes ++ [b]) = bigEndian bytes * 256 + b.toNat := by
  simp [bigEndian]

@[simp] theorem length_bigEndianBytes (width n : Nat) :
    (bigEndianBytes width n).length = width := by
  induction width generalizing n with
  | zero => rfl
  | succ width ih => simp [bigEndianBytes, ih]

theorem bigEndian_bigEndianBytes (width n : Nat) :
    bigEndian (bigEndianBytes width n) = n % 256 ^ width := by
  induction width generalizing n with
  | zero => simp [bigEndianBytes, bigEndian, Nat.mod_one]
  | succ width ih =>
    rw [bigEndianBytes, bigEndian_concat, ih, Nat.pow_succ', Nat.mod_mul, UInt8.toNat_ofNat']
    omega

theorem bigEndian_lt (bytes : List UInt8) : bigEndian bytes < 256 ^ bytes.length := by
  induction bytes using List.reverseRecOn with
  | nil => simp [bigEndian]
  | append_singleton bytes b ih =>
    have hb := b.toNat_lt
    rw [bigEndian_concat, List.length_append, List.length_singleton, Nat.pow_succ]
    omega

theorem bigEndianBytes_bigEndian (bytes : List UInt8) :
    bigEndianBytes bytes.length (bigEndian bytes) = bytes := by
  induction bytes using List.reverseRecOn with
  | nil => rfl
  | append_singleton bytes b ih =>
    have hb := b.toNat_lt
    have hd : (bigEndian bytes * 256 + b.toNat) / 256 = bigEndian bytes := by omega
    have hm : UInt8.ofNat (bigEndian bytes * 256 + b.toNat) = b := by
      apply UInt8.toNat_inj.1
      rw [UInt8.toNat_ofNat']
      omega
    rw [bigEndian_concat, List.length_append, List.length_singleton, bigEndianBytes, hd, hm, ih]

theorem bigEndian_eq_zero {b : List UInt8} {n : Nat} (hl : b.length = n) (h : bigEndian b = 0) :
    b = bigEndianBytes n 0 := by
  subst hl
  rw [← h, bigEndianBytes_bigEndian]

theorem Word.toNat_ofNat {n : Nat} (h : n < 0x100000000) : (UInt32.ofNat n).toNat = n :=
  UInt32.toNat_ofNat_of_lt' h

theorem Word.toNat_eq_zero {w : UInt32} : w.toNat = 0 ↔ w = 0 :=
  UInt32.toNat_inj (b := 0)

/-- A longword as it is written. -/
def Word.bytes (w : UInt32) : List UInt8 := bigEndianBytes 4 w.toNat

@[simp] theorem Word.length_bytes (w : UInt32) : (Word.bytes w).length = 4 :=
  length_bigEndianBytes 4 w.toNat

theorem Word.ofNat_bigEndian_bytes (w : UInt32) : UInt32.ofNat (bigEndian (Word.bytes w)) = w := by
  have hw := w.toNat_lt
  rw [Word.bytes, bigEndian_bigEndianBytes, Nat.mod_eq_of_lt (by omega), UInt32.ofNat_toNat]

theorem Word.eq_bytes_iff {bytes : List UInt8} {w : UInt32} :
    bytes = Word.bytes w ↔ bytes.length = 4 ∧ w = UInt32.ofNat (bigEndian bytes) := by
  constructor
  · intro h
    subst h
    exact ⟨Word.length_bytes w, (Word.ofNat_bigEndian_bytes w).symm⟩
  · intro h
    obtain ⟨hl, rfl⟩ := h
    have hb := bigEndian_lt bytes
    rw [hl] at hb
    rw [Word.bytes, Word.toNat_ofNat (by simpa using hb), ← hl, bigEndianBytes_bigEndian]

theorem Word.bytes_append_inj {v w : UInt32} {bs bs' : List UInt8}
    (h : Word.bytes v ++ bs = Word.bytes w ++ bs') : v = w := by
  have hword := (List.append_inj h (by rw [length_bytes, length_bytes])).1
  rw [← ofNat_bigEndian_bytes v, hword, ofNat_bigEndian_bytes]

namespace Decoder
variable {α β σ : Type}

theorem fail_bind (fault : Fault) (f : α → Decoder β) : (fail fault >>= f) = fail fault := rfl

theorem failAt_bind (offset : Nat) (fault : Fault) (f : α → Decoder β) :
    (failAt offset fault >>= f) = failAt offset fault := rfl

instance (a : α) : Steady (pure a : Decoder α) where
  reads {c c' b ws} h := by
    cases h
    exact ⟨[], rfl, [], fun _ => rfl⟩

theorem reads_pure {a b : α} {offset : Nat} {bytes : List UInt8} :
    Reads (pure a) offset bytes b ↔ bytes = [] ∧ b = a := by
  constructor
  · intro h
    obtain ⟨ws, h⟩ := h.apply []
    simp only [pure_apply, Outcome.mk.injEq, Except.ok.injEq, Cursor.mk.injEq,
      List.append_eq_nil_iff] at h
    exact ⟨h.2.1.2.1, h.1.symm⟩
  · intro h
    obtain ⟨rfl, rfl⟩ := h
    exact ⟨[], fun _ => rfl⟩

instance (f : α → β) (d : Decoder α) [Steady d] : Steady (f <$> d) := by
  rw [map_eq_pure_bind]
  infer_instance

theorem reads_map {f : α → β} {d : Decoder α} [Steady d] {offset : Nat} {bytes : List UInt8}
    {b : β} : Reads (f <$> d) offset bytes b ↔ ∃ a, b = f a ∧ Reads d offset bytes a := by
  rw [map_eq_pure_bind, reads_bind]
  constructor
  · intro h
    obtain ⟨a, left, right, rfl, hd, hp⟩ := h
    obtain ⟨rfl, rfl⟩ := reads_pure.1 hp
    exact ⟨a, rfl, by rwa [List.append_nil]⟩
  · intro h
    obtain ⟨a, rfl, hd⟩ := h
    exact ⟨a, bytes, [], (List.append_nil _).symm, hd, reads_pure.2 ⟨rfl, rfl⟩⟩

theorem reads_bind_pure {f : α → β} {d : Decoder α} [Steady d] {offset : Nat} {bytes : List UInt8}
    {b : β} :
    Reads (d >>= fun a => pure (f a)) offset bytes b ↔ ∃ a, b = f a ∧ Reads d offset bytes a := by
  rw [bind_pure_comp]
  exact reads_map

instance (p : Prop) [Decidable p] (d d' : Decoder α) [Steady d] [Steady d'] :
    Steady (if p then d else d') := by
  split <;> infer_instance

theorem reads_ite {p : Prop} [Decidable p] {d d' : Decoder α} {offset : Nat} {bytes : List UInt8}
    {a : α} : Reads (if p then d else d') offset bytes a ↔
      (p ∧ Reads d offset bytes a) ∨ (¬p ∧ Reads d' offset bytes a) := by
  by_cases h : p <;> simp [h]

instance (offset : Nat) (fault : Fault) : Steady (failAt offset fault : Decoder α) where
  reads h := by cases h

instance (fault : Fault) : Steady (fail fault : Decoder α) where
  reads h := by cases h

theorem not_reads_failAt {at' offset : Nat} {fault : Fault} {bytes : List UInt8} {a : α} :
    ¬Reads (failAt at' fault) offset bytes a := by
  intro h
  obtain ⟨ws, h⟩ := h.apply []
  cases h

theorem not_reads_fail {offset : Nat} {fault : Fault} {bytes : List UInt8} {a : α} :
    ¬Reads (fail fault) offset bytes a := by
  intro h
  obtain ⟨ws, h⟩ := h.apply []
  cases h

/-- A decoder that moves nowhere and cannot fail is steady if its answer is in the offset alone. -/
theorem Steady.of_still {d : Decoder α} {g : Nat → α} {w : Nat → List Warning}
    (h : ∀ c, d c = ⟨.ok (g c.offset), c, w c.offset⟩) : Steady d where
  reads {c c' a ws} hd := by
    rw [h] at hd
    cases hd
    exact ⟨[], rfl, w c.offset, fun rest => h ⟨c.offset, rest⟩⟩

theorem reads_of_still {d : Decoder α} {g : Nat → α} {w : Nat → List Warning}
    (h : ∀ c, d c = ⟨.ok (g c.offset), c, w c.offset⟩) {offset : Nat} {bytes : List UInt8} {a : α} :
    Reads d offset bytes a ↔ bytes = [] ∧ a = g offset := by
  constructor
  · intro hr
    obtain ⟨ws, hr⟩ := hr.apply []
    simp only [h, Outcome.mk.injEq, Except.ok.injEq, Cursor.mk.injEq,
      List.append_eq_nil_iff] at hr
    exact ⟨hr.2.1.2.1, hr.1.symm⟩
  · intro h
    obtain ⟨rfl, rfl⟩ := h
    exact ⟨w offset, fun rest => h ⟨offset, rest⟩⟩

instance (w : Warning) : Steady (warn w) :=
  Steady.of_still (g := fun _ => ()) (w := fun _ => [w]) fun _ => rfl

theorem reads_warn {w : Warning} {offset : Nat} {bytes : List UInt8} {u : Unit} :
    Reads (warn w) offset bytes u ↔ bytes = [] := by
  simp [reads_of_still (g := fun _ => ()) (w := fun _ => [w]) (fun _ => rfl : ∀ c, warn w c = _)]

instance : Steady offset :=
  Steady.of_still (g := id) (w := fun _ => []) fun _ => rfl

theorem reads_offset {start : Nat} {bytes : List UInt8} {n : Nat} :
    Reads offset start bytes n ↔ bytes = [] ∧ n = start :=
  reads_of_still (g := id) (w := fun _ => []) fun _ => rfl

instance (n : Nat) : Steady (take n) where
  reads {c c' a ws} h := by
    by_cases hn : n ≤ c.rest.length
    · rw [take_of_le hn] at h
      cases h
      refine ⟨c.rest.take n, (List.take_append_drop n c.rest).symm, [], fun rest => ?_⟩
      rw [take_append c.offset (List.length_take_of_le hn), List.length_take_of_le hn]
    · rw [take_of_lt (Nat.lt_of_not_le hn)] at h
      cases h

theorem reads_take {n offset : Nat} {bytes a : List UInt8} :
    Reads (take n) offset bytes a ↔ a = bytes ∧ bytes.length = n := by
  constructor
  · intro h
    obtain ⟨ws, h⟩ := h.apply []
    rw [List.append_nil] at h
    by_cases hn : n ≤ bytes.length
    · rw [take_of_le (c := ⟨offset, bytes⟩) hn] at h
      simp only [Outcome.mk.injEq, Except.ok.injEq, Cursor.mk.injEq, List.drop_eq_nil_iff] at h
      obtain ⟨ha, ⟨-, hd⟩, -⟩ := h
      exact ⟨by rw [← ha, List.take_of_length_le hd], Nat.le_antisymm hd hn⟩
    · rw [take_of_lt (c := ⟨offset, bytes⟩) (Nat.lt_of_not_le hn)] at h
      cases h
  · intro h
    obtain ⟨rfl, rfl⟩ := h
    exact ⟨[], fun rest => take_append offset rfl⟩

instance (n : Nat) : Steady (skip n) := inferInstanceAs (Steady (take n >>= fun _ => pure ()))

theorem reads_skip {n offset : Nat} {bytes : List UInt8} {u : Unit} :
    Reads (skip n) offset bytes u ↔ bytes.length = n := by
  change Reads (take n >>= fun _ => pure ()) offset bytes u ↔ _
  simp [reads_map, reads_take]

instance (longs : Nat) : Steady (skipLongs longs) := inferInstanceAs (Steady (skip (4 * longs)))

theorem reads_skipLongs {longs offset : Nat} {bytes : List UInt8} {u : Unit} :
    Reads (skipLongs longs) offset bytes u ↔ bytes.length = 4 * longs := reads_skip

instance : Steady byte := inferInstanceAs (Steady (bigEndian <$> take 1))

theorem reads_byte {offset n : Nat} {bytes : List UInt8} :
    Reads byte offset bytes n ↔ bytes.length = 1 ∧ n = bigEndian bytes := by
  simp [byte, reads_map, reads_take, and_comm]

instance : Steady halfword := inferInstanceAs (Steady (bigEndian <$> take 2))

theorem reads_halfword {offset n : Nat} {bytes : List UInt8} :
    Reads halfword offset bytes n ↔ bytes.length = 2 ∧ n = bigEndian bytes := by
  simp [halfword, reads_map, reads_take, and_comm]

instance : Steady word := inferInstanceAs (Steady ((UInt32.ofNat ∘ bigEndian) <$> take 4))

theorem reads_word {offset : Nat} {bytes : List UInt8} {w : UInt32} :
    Reads word offset bytes w ↔ bytes = Word.bytes w := by
  simp [word, reads_map, reads_take, Word.eq_bytes_iff, and_comm]

instance (longs : Nat) : Steady (padded longs) :=
  inferInstanceAs (Steady ((Utf8.decode ∘ trimZeros) <$> take (4 * longs)))

theorem reads_padded {longs offset : Nat} {bytes : List UInt8} {s : String} :
    Reads (padded longs) offset bytes s ↔
      bytes.length = 4 * longs ∧ s = Utf8.decode (trimZeros bytes) := by
  simp [padded, reads_map, reads_take, and_comm]

instance : Steady text := inferInstanceAs (Steady (word >>= fun w => padded w.toNat))

instance : Steady align :=
  inferInstanceAs (Steady (offset >>= fun o => skip ((4 - o % 4) % 4)))

theorem reads_align {start : Nat} {bytes : List UInt8} {u : Unit} :
    Reads align start bytes u ↔ bytes.length = (4 - start % 4) % 4 := by
  change Reads (offset >>= fun o => skip ((4 - o % 4) % 4)) start bytes u ↔ _
  simp [reads_bind, reads_offset, reads_skip]

instance (n : Nat) : Steady (split n) :=
  inferInstanceAs (Steady (offset >>= fun start => take n >>= fun bytes =>
    pure (Cursor.mk start bytes)))

theorem reads_split {n start : Nat} {bytes : List UInt8} {place : Cursor} :
    Reads (split n) start bytes place ↔ place = ⟨start, bytes⟩ ∧ bytes.length = n := by
  change Reads (offset >>= fun o => take n >>= fun b => pure (Cursor.mk o b)) start bytes place ↔ _
  simp [reads_bind, reads_offset, reads_map, reads_take, and_comm]

instance (place : Cursor) (d : Decoder α) : Steady (inside place d) where
  reads {c c' a ws} h := by
    simp only [inside, Outcome.mk.injEq] at h
    obtain ⟨hr, rfl, rfl⟩ := h
    refine ⟨[], rfl, (d place).warnings, fun rest => ?_⟩
    simp only [inside, hr]
    rfl

theorem reads_inside {place : Cursor} {d : Decoder α} {offset : Nat} {bytes : List UInt8} {a : α} :
    Reads (inside place d) offset bytes a ↔ bytes = [] ∧ Fills d place.offset place.rest a := by
  constructor
  · intro h
    obtain ⟨ws, h⟩ := h.apply []
    simp only [inside, Outcome.mk.injEq, Cursor.mk.injEq, List.append_eq_nil_iff] at h
    exact ⟨h.2.1.2.1, (d place).cursor, (d place).warnings, by rw [← h.1]⟩
  · intro h
    obtain ⟨rfl, c, ws, h⟩ := h
    refine ⟨ws, fun rest => ?_⟩
    simp only [inside, h]
    rfl

end Decoder
end AmigaHunk
