import AmigaHunk.Binary.Decoder

/-! Decoders that give only warnings of one kind, whatever else comes of them. -/
namespace AmigaHunk.Decoder
variable {α β σ : Type} {p : Warning → Prop}

class Warns (p : Warning → Prop) (d : Decoder α) : Prop where
  of_mem {c : Cursor} {w : Warning} : w ∈ (d c).warnings → p w

theorem Warns.of_ok {d : Decoder α} [Warns p d] {c c' : Cursor} {a : α} {ws : List Warning}
    (h : d c = ⟨.ok a, c', ws⟩) : ∀ w ∈ ws, p w := by
  intro w hw
  refine Warns.of_mem (d := d) (c := c) ?_
  rwa [h]

/-- A decoder that gives no warning. -/
theorem Warns.of_silent {d : Decoder α} (h : ∀ c, (d c).warnings = []) : Warns p d where
  of_mem {c w} hw := by
    rw [h c] at hw
    cases hw

theorem Warns.warn {w : Warning} (h : p w) : Warns p (warn w) where
  of_mem hw := by rwa [List.mem_singleton.1 hw]

instance (a : α) : Warns p (pure a : Decoder α) := .of_silent fun _ => rfl

instance (start : Nat) (fault : Fault) : Warns p (failAt start fault : Decoder α) :=
  .of_silent fun _ => rfl

instance (fault : Fault) : Warns p (fail fault : Decoder α) := .of_silent fun _ => rfl

instance : Warns p offset := .of_silent fun _ => rfl

instance : Warns p remaining := .of_silent fun _ => rfl

instance (n : Nat) : Warns p (take n) := .of_silent fun c => by
  rw [take]
  split <;> rfl

instance (longs : Nat) : Warns p (expectLongs longs) := .of_silent fun c => by
  rw [expectLongs]
  split <;> rfl

instance (d : Decoder α) (f : α → Decoder β) [Warns p d] [∀ a, Warns p (f a)] :
    Warns p (d >>= f) where
  of_mem {c w} hw := by
    rw [bind_apply] at hw
    cases hd : d c with
    | mk result c₁ ws =>
      rw [hd] at hw
      cases result with
      | error e =>
        refine Warns.of_mem (d := d) (c := c) ?_
        rwa [hd]
      | ok a =>
        obtain hw | hw := List.mem_append.1 hw
        · exact Warns.of_ok hd w hw
        · exact Warns.of_mem hw

instance (f : α → β) (d : Decoder α) [Warns p d] : Warns p (f <$> d) := by
  rw [map_eq_pure_bind]
  infer_instance

instance (q : Prop) [Decidable q] (d d' : Decoder α) [Warns p d] [Warns p d'] :
    Warns p (if q then d else d') := by
  split <;> infer_instance

instance (n : Nat) : Warns p (skip n) := inferInstanceAs (Warns p (take n >>= fun _ => pure ()))

instance (longs : Nat) : Warns p (skipLongs longs) := inferInstanceAs (Warns p (skip (4 * longs)))

instance : Warns p byte := inferInstanceAs (Warns p (bigEndian <$> take 1))

instance : Warns p halfword := inferInstanceAs (Warns p (bigEndian <$> take 2))

instance : Warns p word := inferInstanceAs (Warns p ((UInt32.ofNat ∘ bigEndian) <$> take 4))

instance (longs : Nat) : Warns p (padded longs) :=
  inferInstanceAs (Warns p ((Utf8.decode ∘ trimZeros) <$> take (4 * longs)))

instance : Warns p text := inferInstanceAs (Warns p (word >>= fun w => padded w.toNat))

instance : Warns p align :=
  inferInstanceAs (Warns p (offset >>= fun o => skip ((4 - o % 4) % 4)))

instance (n : Nat) : Warns p (split n) :=
  inferInstanceAs (Warns p (offset >>= fun start => take n >>= fun bytes =>
    pure (Cursor.mk start bytes)))

instance (place : Cursor) (d : Decoder α) [Warns p d] : Warns p (inside place d) where
  of_mem hw := Warns.of_mem (d := d) (c := place) hw

instance (item : σ → Decoder (Option (α × σ))) [∀ s, Warns p (item s)] (limit : Nat) (s : σ) :
    Warns p (collect item limit s) := by
  induction limit generalizing s with
  | zero => exact inferInstanceAs (Warns p (pure []))
  | succ limit ih =>
    have hmore : ∀ r : Option (α × σ), Warns p (match r with
        | none => (pure [] : Decoder (List α))
        | some (a, s') => (a :: ·) <$> collect item limit s') := by
      intro r
      cases r <;> infer_instance
    rw [collect_succ]
    infer_instance

instance (n : Nat) (item : Decoder α) [Warns p item] : Warns p (times n item) :=
  inferInstanceAs (Warns p (collect (fun _ => (fun a => some (a, ())) <$> item) n ()))

instance (item : Decoder (Option α)) [Warns p item] : Warns p (many item) :=
  inferInstanceAs (Warns p (remaining >>= fun n =>
    collect (fun _ => Option.map (·, ()) <$> item) (n + 1) ()))

end AmigaHunk.Decoder
