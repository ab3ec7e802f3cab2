import AmigaHunk.Binary.Lemmas

/-! Decoders that fail only with a fault inside the bytes, and do not refuse them as a whole. Between
two offsets they stay where they are given bytes from there only, and their faults lie there too. -/
namespace AmigaHunk
variable {α β σ : Type}

/-- A place, with all its bytes, from the offset `lo` up to `hi`. -/
structure Cursor.Within (c : Cursor) (lo hi : Nat) : Prop where
  low_le : lo ≤ c.offset
  end_le : c.offset + c.rest.length ≤ hi

namespace Cursor.Within
variable {c : Cursor} {lo hi : Nat}

theorem offset_le (h : c.Within lo hi) : c.offset ≤ hi := by
  have := h.end_le
  omega

theorem le (h : c.Within lo hi) : lo ≤ hi := Nat.le_trans h.low_le h.offset_le

theorem from_offset (h : c.Within lo hi) : c.Within c.offset hi := ⟨Nat.le_refl _, h.end_le⟩

end Cursor.Within

/-- Whether an error tells a fault and its place. -/
def DecodeError.IsFault (e : DecodeError) : Prop := ∃ offset fault, e = malformed offset fault

/-- Whether an error tells a fault at an offset from `lo` to `hi`. -/
def DecodeError.IsFaultIn (e : DecodeError) (lo hi : Nat) : Prop :=
  ∃ offset fault, e = malformed offset fault ∧ lo ≤ offset ∧ offset ≤ hi

theorem DecodeError.IsFaultIn.isFault {e : DecodeError} {lo hi : Nat} (h : e.IsFaultIn lo hi) :
    e.IsFault := by
  obtain ⟨offset, fault, he, -⟩ := h
  exact ⟨offset, fault, he⟩

theorem DecodeError.IsFaultIn.mono {e : DecodeError} {lo lo' hi : Nat} (h : e.IsFaultIn lo hi)
    (hlo : lo' ≤ lo) : e.IsFaultIn lo' hi := by
  obtain ⟨offset, fault, he, hl, hh⟩ := h
  exact ⟨offset, fault, he, Nat.le_trans hlo hl, hh⟩

namespace Decoder
variable {lo hi : Nat}

class Faulting (lo hi : Nat) (d : Decoder α) : Prop where
  within {c c' : Cursor} {a : α} {ws : List Warning} :
    c.Within lo hi → d c = ⟨.ok a, c', ws⟩ → c'.Within lo hi
  isFaultIn {c : Cursor} {e : DecodeError} :
    c.Within lo hi → (d c).result = .error e → e.IsFaultIn lo hi

/-- A decoder that moves nowhere and cannot fail. -/
theorem Faulting.of_still {d : Decoder α} (h : ∀ c, ∃ a ws, d c = ⟨.ok a, c, ws⟩) :
    Faulting lo hi d where
  within {c c' a ws} hc hd := by
    obtain ⟨a', ws', ho⟩ := h c
    rw [ho] at hd
    cases hd
    exact hc
  isFaultIn {c e} hc he := by
    obtain ⟨a, ws, ho⟩ := h c
    rw [ho] at he
    cases he

/-- A fault at the offset where the bytes start that a decoder may look at. -/
instance (start : Nat) (fault : Fault) : Faulting start hi (failAt start fault : Decoder α) where
  within _ hd := by cases hd
  isFaultIn hc he := by
    cases he
    exact ⟨start, fault, rfl, Nat.le_refl _, hc.le⟩

instance (fault : Fault) : Faulting lo hi (fail fault : Decoder α) where
  within _ hd := by cases hd
  isFaultIn {c e} hc he := by
    cases he
    exact ⟨c.offset, fault, rfl, hc.low_le, hc.offset_le⟩

instance (a : α) : Faulting lo hi (pure a : Decoder α) := .of_still fun _ => ⟨a, [], rfl⟩

/-- Only the answers that the first decoder can give count. -/
theorem Faulting.bind {d : Decoder α} {f : α → Decoder β} [Faulting lo hi d] {p : α → Prop}
    (hp : ∀ {c a c' ws}, c.Within lo hi → d c = ⟨.ok a, c', ws⟩ → p a)
    (hf : ∀ a, p a → Faulting lo hi (f a)) : Faulting lo hi (d >>= f) where
  within {c c' b ws} hc h := by
    rw [bind_apply] at h
    cases hd : d c with
    | mk result c₁ ws₁ =>
      rw [hd] at h
      cases result with
      | error e => cases h
      | ok a =>
        have := hf a (hp hc hd)
        cases hb : f a c₁ with
        | mk result c₂ ws₂ =>
          simp only [hb, Outcome.after, Outcome.mk.injEq] at h
          obtain ⟨rfl, rfl, -⟩ := h
          exact Faulting.within (Faulting.within hc hd) hb
  isFaultIn {c e} hc h := by
    rw [bind_apply] at h
    cases hd : d c with
    | mk result c₁ ws₁ =>
      rw [hd] at h
      cases result with
      | error e' =>
        cases h
        exact Faulting.isFaultIn (d := d) hc (by rw [hd])
      | ok a =>
        have := hf a (hp hc hd)
        exact Faulting.isFaultIn (d := f a) (Faulting.within hc hd) h

instance (d : Decoder α) (f : α → Decoder β) [Faulting lo hi d] [hf : ∀ a, Faulting lo hi (f a)] :
    Faulting lo hi (d >>= f) :=
  Faulting.bind (p := fun _ => True) (fun _ _ => trivial) fun a _ => hf a

instance (f : α → β) (d : Decoder α) [Faulting lo hi d] : Faulting lo hi (f <$> d) := by
  rw [map_eq_pure_bind]
  infer_instance

instance (p : Prop) [Decidable p] (d d' : Decoder α) [Faulting lo hi d] [Faulting lo hi d'] :
    Faulting lo hi (if p then d else d') := by
  split <;> infer_instance

instance (w : Warning) : Faulting lo hi (warn w) := .of_still fun _ => ⟨(), [w], rfl⟩

instance : Faulting lo hi offset := .of_still fun c => ⟨c.offset, [], rfl⟩

instance : Faulting lo hi remaining := .of_still fun c => ⟨c.rest.length, [], rfl⟩

instance : Faulting lo hi atEnd := .of_still fun c => ⟨c.rest.isEmpty, [], rfl⟩

instance (n : Nat) : Faulting lo hi (take n) where
  within {c c' a ws} hc h := by
    by_cases hn : n ≤ c.rest.length
    · rw [take_of_le hn] at h
      cases h
      have hend := hc.end_le
      refine ⟨Nat.le_trans hc.low_le (Nat.le_add_right _ _), ?_⟩
      simp only [List.length_drop]
      omega
    · rw [take_of_lt (Nat.lt_of_not_le hn)] at h
      cases h
  isFaultIn {c e} hc h := by
    by_cases hn : n ≤ c.rest.length
    · rw [take_of_le hn] at h
      cases h
    · rw [take_of_lt (Nat.lt_of_not_le hn)] at h
      cases h
      exact ⟨_, _, rfl, hc.low_le, hc.offset_le⟩

instance (longs : Nat) : Faulting lo hi (expectLongs longs) where
  within {c c' a ws} hc h := by
    by_cases hn : 4 * longs ≤ c.rest.length
    · rw [expectLongs_of_le hn] at h
      cases h
      exact hc
    · rw [expectLongs_of_lt (Nat.lt_of_not_le hn)] at h
      cases h
  isFaultIn {c e} hc h := by
    by_cases hn : 4 * longs ≤ c.rest.length
    · rw [expectLongs_of_le hn] at h
      cases h
    · rw [expectLongs_of_lt (Nat.lt_of_not_le hn)] at h
      cases h
      exact ⟨_, _, rfl, hc.low_le, hc.offset_le⟩

instance (n : Nat) : Faulting lo hi (skip n) :=
  inferInstanceAs (Faulting lo hi (take n >>= fun _ => pure ()))

instance (longs : Nat) : Faulting lo hi (skipLongs longs) :=
  inferInstanceAs (Faulting lo hi (skip (4 * longs)))

instance : Faulting lo hi byte := inferInstanceAs (Faulting lo hi (bigEndian <$> take 1))

instance : Faulting lo hi halfword := inferInstanceAs (Faulting lo hi (bigEndian <$> take 2))

instance : Faulting lo hi word :=
  inferInstanceAs (Faulting lo hi ((UInt32.ofNat ∘ bigEndian) <$> take 4))

instance (longs : Nat) : Faulting lo hi (padded longs) :=
  inferInstanceAs (Faulting lo hi ((Utf8.decode ∘ trimZeros) <$> take (4 * longs)))

instance : Faulting lo hi text :=
  inferInstanceAs (Faulting lo hi (word >>= fun w => padded w.toNat))

instance : Faulting lo hi align :=
  inferInstanceAs (Faulting lo hi (offset >>= fun o => skip ((4 - o % 4) % 4)))

/-- What is read behind an offset may tell a fault there. -/
theorem Faulting.offset_bind {f : Nat → Decoder β} (h : ∀ o, Faulting o hi (f o)) :
    Faulting lo hi (offset >>= f) where
  within {c c' b ws} hc hd := by
    have hstart := h c.offset
    rw [bind_of_ok (rfl : offset c = _)] at hd
    cases hf : f c.offset c with
    | mk result c₁ ws₁ =>
      simp only [hf, Outcome.after, Outcome.mk.injEq] at hd
      obtain ⟨rfl, rfl, -⟩ := hd
      have hwithin := Faulting.within hc.from_offset hf
      exact ⟨Nat.le_trans hc.low_le hwithin.low_le, hwithin.end_le⟩
  isFaultIn {c e} hc he := by
    have hstart := h c.offset
    rw [bind_of_ok (rfl : offset c = _)] at he
    have hfault : e.IsFaultIn c.offset hi := Faulting.isFaultIn (d := f c.offset) hc.from_offset he
    exact hfault.mono hc.low_le

instance (n : Nat) : Faulting lo hi (split n) :=
  inferInstanceAs (Faulting lo hi (offset >>= fun start => take n >>= fun bytes =>
    pure (Cursor.mk start bytes)))

/-- A place that is split off lies between the same offsets. -/
theorem Faulting.split_bind {n : Nat} {f : Cursor → Decoder β}
    (h : ∀ place, place.Within lo hi → Faulting lo hi (f place)) :
    Faulting lo hi (split n >>= f) := by
  refine Faulting.bind (p := fun place => place.Within lo hi) ?_ h
  intro c place c' ws hc hs
  replace hs : (take n >>= fun bytes => pure (Cursor.mk c.offset bytes)) c =
      ⟨.ok place, c', ws⟩ := hs
  by_cases hn : n ≤ c.rest.length
  · rw [bind_of_ok (take_of_le hn)] at hs
    cases hs
    have hend := hc.end_le
    refine ⟨hc.low_le, ?_⟩
    simp only [List.length_take]
    omega
  · rw [bind_of_error (take_of_lt (Nat.lt_of_not_le hn))] at hs
    cases hs

theorem Faulting.inside {place : Cursor} (hplace : place.Within lo hi) (d : Decoder α)
    [Faulting lo hi d] : Faulting lo hi (inside place d) where
  within {c c' a ws} hc hd := by
    rw [Decoder.inside, Outcome.mk.injEq] at hd
    obtain ⟨-, rfl, -⟩ := hd
    exact hc
  isFaultIn _ he := Faulting.isFaultIn (d := d) hplace he

instance (item : σ → Decoder (Option (α × σ))) [∀ s, Faulting lo hi (item s)] (limit : Nat)
    (s : σ) : Faulting lo hi (collect item limit s) := by
  induction limit generalizing s with
  | zero => exact inferInstanceAs (Faulting lo hi (pure []))
  | succ limit ih =>
    have hmore : ∀ r : Option (α × σ), Faulting lo hi (match r with
        | none => (pure [] : Decoder (List α))
        | some (a, s') => (a :: ·) <$> collect item limit s') := by
      intro r
      cases r <;> infer_instance
    rw [collect_succ]
    infer_instance

instance (n : Nat) (item : Decoder α) [Faulting lo hi item] : Faulting lo hi (times n item) :=
  inferInstanceAs (Faulting lo hi (collect (fun _ => (fun a => some (a, ())) <$> item) n ()))

instance (item : Decoder (Option α)) [Faulting lo hi item] : Faulting lo hi (many item) :=
  inferInstanceAs (Faulting lo hi (remaining >>= fun n =>
    collect (fun _ => Option.map (·, ()) <$> item) (n + 1) ()))

end Decoder
end AmigaHunk
