import AmigaHunk.Binary.Lemmas

/-! Moving bytes to another offset. A decoder that does the same there moves the offsets that it
answers, and those of its warnings and errors, by as much. Since some blocks are padded to a longword,
only moves by whole longwords are considered. -/
namespace AmigaHunk
variable {α β σ : Type}

def Cursor.shift (k : Nat) (c : Cursor) : Cursor := ⟨c.offset + k, c.rest⟩

def DecodeError.shift (k : Nat) : DecodeError → DecodeError
  | malformed offset fault => malformed (offset + k) fault
  | unknownBlock offset tag => unknownBlock (offset + k) tag

def Warning.shift (k : Nat) : Warning → Warning
  | unknownBlock offset tag longs => unknownBlock (offset + k) tag longs
  | trailingBytes extra offset => trailingBytes extra (offset + k)
  | w => w

def Outcome.shift (k : Nat) (o : Outcome α) : Outcome α :=
  ⟨o.result.mapError (·.shift k), o.cursor.shift k, o.warnings.map (·.shift k)⟩

theorem Outcome.shift_after (k : Nat) (o : Outcome α) (ws : List Warning) :
    (o.after ws).shift k = (o.shift k).after (ws.map (·.shift k)) := by
  simp [shift, after]

theorem Outcome.shift_map (k : Nat) (f : α → β) (o : Outcome α) :
    (o.map f).shift k = (o.shift k).map f := by
  cases o with
  | mk result c ws => cases result <;> rfl

namespace Decoder

/-- The second decoder does `k` bytes further on what the first one does. -/
def Shifts (k : Nat) (d d' : Decoder α) : Prop := ∀ c, d' (c.shift k) = (d c).shift k

class Uniform (d : Decoder α) : Prop where
  shifts : ∀ {k : Nat}, 4 ∣ k → Shifts k d d

theorem Shifts.bind {k : Nat} {d d' : Decoder α} {f f' : α → Decoder β} (hd : Shifts k d d')
    (hf : ∀ a, Shifts k (f a) (f' a)) : Shifts k (d >>= f) (d' >>= f') := by
  intro c
  rw [bind_apply, bind_apply, hd]
  cases d c with
  | mk result c' ws =>
    cases result with
    | error e => rfl
    | ok a =>
      change ((f' a) (c'.shift k)).after _ = _
      rw [hf a c', Outcome.shift_after]

theorem Shifts.map {k : Nat} {d d' : Decoder α} (f : α → β) (hd : Shifts k d d') :
    Shifts k (f <$> d) (f <$> d') := by
  intro c
  rw [map_apply, map_apply, hd, Outcome.shift_map]

theorem Shifts.ite {k : Nat} {p : Prop} [Decidable p] {d d' e e' : Decoder α}
    (hd : Shifts k d d') (he : Shifts k e e') :
    Shifts k (if p then d else e) (if p then d' else e') := by
  split
  · exact hd
  · exact he

/-- What is read behind an offset may depend on it. -/
theorem Shifts.offset_bind {k : Nat} {f f' : Nat → Decoder β}
    (h : ∀ o, Shifts k (f o) (f' (o + k))) : Shifts k (offset >>= f) (offset >>= f') := by
  intro c
  rw [bind_of_ok (rfl : offset c = _), bind_of_ok (rfl : offset (c.shift k) = _)]
  change (f' (c.offset + k) (c.shift k)).after [] = _
  rw [h, Outcome.shift_after]
  rfl

theorem Shifts.failAt (k start : Nat) (fault : Fault) :
    Shifts k (failAt start fault : Decoder α) (failAt (start + k) fault) := fun _ => rfl

theorem Shifts.warn (k : Nat) (w : Warning) : Shifts k (warn w) (warn (w.shift k)) := fun _ => rfl

theorem Shifts.inside {k : Nat} {d d' : Decoder α} (h : Shifts k d d') (place : Cursor) :
    Shifts k (inside place d) (inside (place.shift k) d') := by
  intro c
  change (⟨(d' (place.shift k)).result, c.shift k, (d' (place.shift k)).warnings⟩ : Outcome α) = _
  rw [h place]
  rfl

theorem Shifts.collect {k : Nat} {item item' : σ → Decoder (Option (α × σ))}
    (h : ∀ s, Shifts k (item s) (item' s)) (n : Nat) (s : σ) :
    Shifts k (collect item n s) (collect item' n s) := by
  induction n generalizing s with
  | zero => exact fun _ => rfl
  | succ n ih =>
    rw [collect_succ, collect_succ]
    refine (h s).bind fun r => ?_
    cases r with
    | none => exact fun _ => rfl
    | some p => exact (ih p.2).map _

instance (a : α) : Uniform (pure a : Decoder α) := ⟨fun _ _ => rfl⟩

instance (d : Decoder α) (f : α → Decoder β) [Uniform d] [∀ a, Uniform (f a)] :
    Uniform (d >>= f) :=
  ⟨fun hk => (Uniform.shifts hk).bind fun _ => Uniform.shifts hk⟩

instance (f : α → β) (d : Decoder α) [Uniform d] : Uniform (f <$> d) :=
  ⟨fun hk => (Uniform.shifts hk).map f⟩

instance (p : Prop) [Decidable p] (d d' : Decoder α) [Uniform d] [Uniform d'] :
    Uniform (if p then d else d') :=
  ⟨fun hk => (Uniform.shifts hk).ite (Uniform.shifts hk)⟩

instance (fault : Fault) : Uniform (fail fault : Decoder α) := ⟨fun _ _ => rfl⟩

instance : Uniform remaining := ⟨fun _ _ => rfl⟩

instance : Uniform atEnd := ⟨fun _ _ => rfl⟩

instance (n : Nat) : Uniform (take n) where
  shifts {k} _ c := by
    by_cases hn : n ≤ c.rest.length
    · have hs : n ≤ (c.shift k).rest.length := hn
      have hoffset : c.offset + k + n = c.offset + n + k := Nat.add_right_comm c.offset k n
      rw [take_of_le hn, take_of_le hs]
      exact congrArg (fun o => Outcome.mk (.ok (c.rest.take n)) ⟨o, c.rest.drop n⟩ []) hoffset
    · have hs : (c.shift k).rest.length < n := Nat.lt_of_not_le hn
      rw [take_of_lt (Nat.lt_of_not_le hn), take_of_lt hs]
      rfl

instance (longs : Nat) : Uniform (expectLongs longs) where
  shifts {k} _ c := by
    by_cases hn : 4 * longs ≤ c.rest.length
    · have hs : 4 * longs ≤ (c.shift k).rest.length := hn
      rw [expectLongs_of_le hn, expectLongs_of_le hs]
      rfl
    · have hs : (c.shift k).rest.length < 4 * longs := Nat.lt_of_not_le hn
      rw [expectLongs_of_lt (Nat.lt_of_not_le hn), expectLongs_of_lt hs]
      rfl

instance (n : Nat) : Uniform (skip n) := inferInstanceAs (Uniform (take n >>= fun _ => pure ()))

instance (longs : Nat) : Uniform (skipLongs longs) := inferInstanceAs (Uniform (skip (4 * longs)))

instance : Uniform byte := inferInstanceAs (Uniform (bigEndian <$> take 1))

instance : Uniform halfword := inferInstanceAs (Uniform (bigEndian <$> take 2))

instance : Uniform word := inferInstanceAs (Uniform ((UInt32.ofNat ∘ bigEndian) <$> take 4))

instance : Uniform text := inferInstanceAs (Uniform (word >>= fun w =>
  (Utf8.decode ∘ trimZeros) <$> take (4 * w.toNat)))

instance (longs : Nat) : Uniform (padded longs) :=
  inferInstanceAs (Uniform ((Utf8.decode ∘ trimZeros) <$> take (4 * longs)))

instance : Uniform align where
  shifts {k} hk := by
    refine Shifts.offset_bind (f := fun o => skip ((4 - o % 4) % 4)) fun o => ?_
    have hm : (o + k) % 4 = o % 4 := by omega
    simp only [hm]
    exact Uniform.shifts hk

instance (item : σ → Decoder (Option (α × σ))) (n : Nat) (s : σ) [∀ s, Uniform (item s)] :
    Uniform (collect item n s) :=
  ⟨fun hk => Shifts.collect (fun _ => Uniform.shifts hk) n s⟩

instance (n : Nat) (item : Decoder α) [Uniform item] : Uniform (times n item) :=
  inferInstanceAs (Uniform (collect (fun _ => (fun a => some (a, ())) <$> item) n ()))

instance (item : Decoder (Option α)) [Uniform item] : Uniform (many item) :=
  inferInstanceAs (Uniform (remaining >>= fun n =>
    collect (fun _ => Option.map (·, ()) <$> item) (n + 1) ()))

/-- A place that is split off moves along. -/
theorem Shifts.split_bind {k : Nat} (hk : 4 ∣ k) (n : Nat) {f f' : Cursor → Decoder β}
    (h : ∀ place, Shifts k (f place) (f' (place.shift k))) :
    Shifts k (split n >>= f) (split n >>= f') := by
  change Shifts k ((offset >>= fun o => take n >>= fun b => pure (Cursor.mk o b)) >>= f)
    ((offset >>= fun o => take n >>= fun b => pure (Cursor.mk o b)) >>= f')
  simp only [bind_assoc, pure_bind]
  exact Shifts.offset_bind fun o => (Uniform.shifts hk).bind fun b => h ⟨o, b⟩

end Decoder
end AmigaHunk
