import AmigaHunk.Binary.Places
import AmigaHunk.Proofs.Binary.Fields
import Mathlib.Data.List.DropRight
import Mathlib.Data.Nat.Digits.Defs

/-! Reading through a window on a buffer. A read within the window answers what the buffer holds at
the offsets that it moves over, and a read past its end leaves it where it is. Most steps are one
such read; how many bytes each step takes and what it makes of them is told here without decoders. -/
namespace AmigaHunk

/-- A part of a buffer, and how far its reader has come. Offsets count from the start of the
buffer. -/
structure Window where
  base : Nat
  length : Nat
  offset : Nat
  deriving DecidableEq, Repr

namespace Window
variable {bytes : List UInt8} {v w : Window} {n : Nat}

def stop (w : Window) : Nat := w.base + w.length

/-- How many bytes of the window are ahead. -/
def left (w : Window) : Nat := w.stop - w.offset

def forward (w : Window) (n : Nat) : Window := { w with offset := w.offset + n }

/-- The next `n` bytes as a window of their own. -/
def part (w : Window) (n : Nat) : Window := ⟨w.offset, n, w.offset⟩

def place (bytes : List UInt8) (w : Window) : Cursor := ⟨w.offset, bytes.extract w.offset w.stop⟩

theorem left_forward (w : Window) (n : Nat) : (w.forward n).left = w.left - n := by
  simp only [forward, left, stop]
  omega

theorem forward_forward (w : Window) (m n : Nat) : (w.forward m).forward n = w.forward (m + n) := by
  simp only [forward, Nat.add_assoc]

/-- The window is a part of the buffer, and its reader is not outside of it. -/
structure InBounds (bytes : List UInt8) (w : Window) : Prop where
  base_le : w.base ≤ w.offset
  offset_le : w.offset ≤ w.base + w.length
  stop_le : w.base + w.length ≤ bytes.length

/-- The upper window lies in the lower one, which has come to where the upper one ends. -/
structure Nested (v w : Window) : Prop where
  base_le : w.base ≤ v.base
  stop_eq : v.base + v.length = w.offset

theorem InBounds.forward (h : w.InBounds bytes) (hn : n ≤ w.left) :
    (w.forward n).InBounds bytes where
  base_le := Nat.le_add_right_of_le h.base_le
  offset_le := by
    have hstop := h.offset_le
    simp only [Window.forward, left, stop] at hn ⊢
    omega
  stop_le := h.stop_le

theorem InBounds.part (h : w.InBounds bytes) (hn : n ≤ w.left) : (w.part n).InBounds bytes where
  base_le := Nat.le_refl _
  offset_le := Nat.le_add_right _ _
  stop_le := by
    have hstop := h.offset_le
    have hend := h.stop_le
    simp only [Window.part, left, stop] at hn ⊢
    omega

theorem InBounds.nested_part (h : w.InBounds bytes) (n : Nat) : (w.part n).Nested (w.forward n) where
  base_le := h.base_le
  stop_eq := rfl

theorem Nested.forward (h : v.Nested w) (n : Nat) : (v.forward n).Nested w where
  base_le := h.base_le
  stop_eq := h.stop_eq

theorem InBounds.length_rest (h : w.InBounds bytes) : (w.place bytes).rest.length = w.left := by
  have hend := h.stop_le
  simp only [place, left, stop, List.length_take, List.length_drop]
  omega

theorem InBounds.length_extract (h : w.InBounds bytes) (hn : n ≤ w.left) :
    (bytes.extract w.offset (w.offset + n)).length = n := by
  have hend := h.stop_le
  simp only [left, stop] at hn
  simp only [List.length_take, List.length_drop]
  omega

theorem rest_forward (bytes : List UInt8) (w : Window) (n : Nat) :
    (w.place bytes).rest.drop n = ((w.forward n).place bytes).rest := by
  simp only [place, forward, stop, List.drop_take, List.drop_drop]
  congr 1
  omega

/-- A read within the window answers what the buffer holds there. -/
theorem InBounds.take_of_le (h : w.InBounds bytes) (hn : n ≤ w.left) :
    Decoder.take n (w.place bytes) = ⟨.ok (bytes.extract w.offset (w.offset + n)),
      (w.forward n).place bytes, []⟩ := by
  have hbytes : (w.place bytes).rest.take n = bytes.extract w.offset (w.offset + n) := by
    simp only [place, left, List.take_take] at hn ⊢
    congr 1
    omega
  rw [Decoder.take_of_le (by rwa [h.length_rest]), hbytes, rest_forward]
  rfl

/-- A read past the end of the window fails, whatever the buffer holds behind it. -/
theorem InBounds.take_of_lt (h : w.InBounds bytes) (hn : w.left < n) :
    Decoder.take n (w.place bytes) =
      ⟨.error (.malformed w.offset (.short n w.left)), w.place bytes, []⟩ := by
  rw [Decoder.take_of_lt (by rwa [h.length_rest]), h.length_rest]
  rfl

end Window

theorem bigEndian_eq_ofDigits (bytes : List UInt8) :
    bigEndian bytes = Nat.ofDigits 256 (bytes.map UInt8.toNat).reverse := by
  induction bytes using List.reverseRecOn with
  | nil => rfl
  | append_singleton bytes b ih =>
    rw [bigEndian_concat, List.map_append, List.reverse_append, ih]
    simp only [List.map_cons, List.map_nil, List.reverse_cons, List.reverse_nil, List.nil_append,
      List.cons_append, Nat.ofDigits_cons]
    omega

/-- The bytes behind the first `m` of a part of a buffer. -/
theorem drop_extract (bytes : List UInt8) (start m n : Nat) :
    (bytes.extract start (start + (m + n))).drop m =
      bytes.extract (start + m) (start + m + n) := by
  simp only [List.drop_take, List.drop_drop]
  congr 1
  omega

namespace Step

/-- The length of a text in longwords, as it stands in front of the text. -/
def textLongs (bytes : List UInt8) (offset : Nat) : Nat :=
  Nat.ofDigits 256 ((bytes.extract offset (offset + 4)).map UInt8.toNat).reverse

/-- How many bytes of the buffer a step moves over from an offset on. -/
def size (bytes : List UInt8) (offset : Nat) : Step → Nat
  | byte => 1
  | halfword => 2
  | word => 4
  | take n | skip n | split n => n
  | skipLongs longs | padded longs => 4 * longs
  | text => 4 + 4 * textLongs bytes offset
  | align => (offset + 3) / 4 * 4 - offset
  | leave => 0

/-- What a step answers about the bytes that it moves over. -/
def reading (taken : List UInt8) : Step → Reading
  | byte | halfword | word => .number (Nat.ofDigits 256 (taken.map UInt8.toNat).reverse)
  | take _ => .bytes taken
  | padded _ => .text (Utf8.decode (taken.rdropWhile (· = 0)))
  | text => .text (Utf8.decode ((taken.drop 4).rdropWhile (· = 0)))
  | skip _ | skipLongs _ | align | split _ | leave => .nothing

/-- How far a step gets that has too few bytes ahead of it: past the length of a text, if at least
that is there. -/
def lost (left : Nat) : Step → Nat
  | text => if 4 ≤ left then 4 else 0
  | _ => 0

theorem lost_le (left : Nat) (s : Step) : s.lost left ≤ left := by
  cases s with
  | text =>
    rw [lost]
    split
    · assumption
    · exact Nat.zero_le _
  | _ => exact Nat.zero_le _

theorem lost_eq (left : Nat) (s : Step) : s.lost left = 0 ∨ s = text ∧ s.lost left = 4 := by
  cases s with
  | text =>
    rw [lost]
    split
    · exact .inr ⟨rfl, rfl⟩
    · exact .inl rfl
  | _ => exact .inl rfl

/-- How many bytes at a time a step wants that has too few ahead of it. -/
def wanted (size left : Nat) : Step → Nat
  | text => if 4 ≤ left then size - 4 else 4
  | _ => size

/-- A step that reads a single field at the top. -/
def IsField : Step → Prop
  | text | split _ | leave => False
  | _ => True

end Step

theorem Outcome.after_nil {α : Type} (o : Outcome α) : o.after [] = o := rfl

namespace Decoder

theorem map_take_congr {α : Type} {f g : List UInt8 → α} {n : Nat}
    (h : ∀ bytes : List UInt8, bytes.length = n → f bytes = g bytes) : f <$> take n = g <$> take n := by
  funext c
  rw [map_apply, map_apply]
  by_cases hn : n ≤ c.rest.length
  · have hfg := h (c.rest.take n) (List.length_take_of_le hn)
    simp only [take_of_le hn, Outcome.map, Except.map, hfg]
  · rw [take_of_lt (Nat.lt_of_not_le hn)]
    rfl

theorem skip_eq_map (n : Nat) : skip n = (fun _ => ()) <$> take n := (map_eq_pure_bind _ _).symm

theorem split_apply (n : Nat) (c : Cursor) : split n c = (take n c).map (Cursor.mk c.offset) := by
  rw [← map_apply, map_eq_pure_bind]
  rfl

theorem align_apply (c : Cursor) : align c = skip ((c.offset + 3) / 4 * 4 - c.offset) c := by
  have hround : (4 - c.offset % 4) % 4 = (c.offset + 3) / 4 * 4 - c.offset := by omega
  rw [← hround]
  rfl

end Decoder

theorem Word.toNat_ofNat_bigEndian {bytes : List UInt8} (h : bytes.length = 4) :
    (UInt32.ofNat (bigEndian bytes)).toNat = Nat.ofDigits 256 (bytes.map UInt8.toNat).reverse := by
  have hlt := bigEndian_lt bytes
  rw [h] at hlt
  rw [Word.toNat_ofNat hlt, bigEndian_eq_ofDigits]

namespace Step

theorem run_align (p : Places) :
    align.run p = (skip ((p.top.offset + 3) / 4 * 4 - p.top.offset)).run p := by
  simp only [run, atTop, Decoder.map_apply, Decoder.align_apply]

theorem run_of_isField {s : Step} (h : s.IsField) (bytes : List UInt8) (p : Places) :
    s.run p = atTop ((s.reading ·) <$> Decoder.take (s.size bytes p.top.offset)) p := by
  cases s with
  | text | split | leave => exact h.elim
  | byte | halfword =>
    simp only [run, Decoder.byte, Decoder.halfword, Functor.map_map, bigEndian_eq_ofDigits]
    rfl
  | word =>
    simp only [run, Decoder.word, Functor.map_map]
    rw [size, Decoder.map_take_congr fun taken hlength => ?_]
    exact congrArg Reading.number (Word.toNat_ofNat_bigEndian hlength)
  | take => rfl
  | skip n | skipLongs longs | padded longs =>
    simp only [run, Decoder.skipLongs, Decoder.skip_eq_map, Decoder.padded, Functor.map_map]
    rfl
  | align =>
    rw [run_align]
    simp only [run, Decoder.skip_eq_map, Functor.map_map]
    rfl

end Step

end AmigaHunk
