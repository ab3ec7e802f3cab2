import AmigaHunk.Binary.Lemmas

/-! What decoders take and answer, as a relation on bytes. A decoder is steady if its answer depends
on nothing behind the bytes that it takes. Steady decoders compose, so that the relation of a
decoder is computed from those of its parts. -/
namespace AmigaHunk.Decoder
variable {α β σ : Type}

/-- At `offset` the decoder takes `bytes`, whatever comes after them, and answers `a`. -/
def Reads (d : Decoder α) (offset : Nat) (bytes : List UInt8) (a : α) : Prop :=
  ∃ ws, ∀ rest, d ⟨offset, bytes ++ rest⟩ = ⟨.ok a, ⟨offset + bytes.length, rest⟩, ws⟩

/-- The decoder stops without a fault on a place that holds `bytes`, and answers `a`. -/
def Fills (d : Decoder α) (offset : Nat) (bytes : List UInt8) (a : α) : Prop :=
  ∃ c ws, d ⟨offset, bytes⟩ = ⟨.ok a, c, ws⟩

class Steady (d : Decoder α) : Prop where
  reads {c c' : Cursor} {a : α} {ws : List Warning} :
    d c = ⟨.ok a, c', ws⟩ → ∃ bytes, c.rest = bytes ++ c'.rest ∧ Reads d c.offset bytes a

theorem Reads.apply {d : Decoder α} {offset : Nat} {bytes : List UInt8} {a : α}
    (h : Reads d offset bytes a) (rest : List UInt8) :
    ∃ ws, d ⟨offset, bytes ++ rest⟩ = ⟨.ok a, ⟨offset + bytes.length, rest⟩, ws⟩ := by
  obtain ⟨ws, h⟩ := h
  exact ⟨ws, h rest⟩

theorem Steady.split {d : Decoder α} [Steady d] {offset : Nat} {bytes : List UInt8} {a : α}
    {c' : Cursor} {ws : List Warning} (h : d ⟨offset, bytes⟩ = ⟨.ok a, c', ws⟩) :
    ∃ taken rest, bytes = taken ++ rest ∧ c' = ⟨offset + taken.length, rest⟩ ∧
      Reads d offset taken a := by
  obtain ⟨taken, hb, hr⟩ := Steady.reads h
  replace hb : bytes = taken ++ c'.rest := hb
  obtain ⟨ws', he⟩ := hr.apply c'.rest
  rw [hb] at h
  have hc := congrArg Outcome.cursor (h.symm.trans he)
  exact ⟨taken, c'.rest, hb, hc, hr⟩

/-- All of a place that a decoder of this kind stops in is what it takes. -/
theorem Steady.reads_of_end {d : Decoder α} [Steady d] {offset : Nat} {bytes : List UInt8} {a : α}
    {c' : Cursor} {ws : List Warning} (h : d ⟨offset, bytes⟩ = ⟨.ok a, c', ws⟩)
    (hc : c'.rest = []) : Reads d offset bytes a := by
  obtain ⟨taken, rest, rfl, rfl, hr⟩ := Steady.split h
  replace hc : rest = [] := hc
  rwa [hc, List.append_nil]

theorem bind_eq_ok {d : Decoder α} {f : α → Decoder β} {c c' : Cursor} {b : β} {ws : List Warning} :
    (d >>= f) c = ⟨.ok b, c', ws⟩ ↔ ∃ a c₁ ws₁ ws₂, d c = ⟨.ok a, c₁, ws₁⟩ ∧
      f a c₁ = ⟨.ok b, c', ws₂⟩ ∧ ws = ws₁ ++ ws₂ := by
  rw [bind_apply]
  constructor
  · intro h
    cases hd : d c with
    | mk result c₁ ws₁ =>
      rw [hd] at h
      cases result with
      | error e => cases h
      | ok a =>
        cases hf : f a c₁ with
        | mk result c₂ ws₂ =>
          simp only [hf, Outcome.after, Outcome.mk.injEq] at h
          obtain ⟨rfl, rfl, rfl⟩ := h
          exact ⟨a, c₁, ws₁, ws₂, rfl, hf, rfl⟩
  · intro h
    obtain ⟨a, c₁, ws₁, ws₂, hd, hf, rfl⟩ := h
    simp only [hd, hf, Outcome.after]

theorem Reads.bind {d : Decoder α} {f : α → Decoder β} {offset : Nat} {bytes bytes' : List UInt8}
    {a : α} {b : β} (h : Reads d offset bytes a)
    (h' : Reads (f a) (offset + bytes.length) bytes' b) :
    Reads (d >>= f) offset (bytes ++ bytes') b := by
  obtain ⟨ws, h⟩ := h
  obtain ⟨ws', h'⟩ := h'
  refine ⟨ws ++ ws', fun rest => ?_⟩
  rw [List.append_assoc, bind_of_ok (h (bytes' ++ rest)), h' rest, List.length_append,
    ← Nat.add_assoc]
  rfl

instance Steady.bind (d : Decoder α) (f : α → Decoder β) [Steady d] [∀ a, Steady (f a)] :
    Steady (d >>= f) where
  reads {c c' b ws} h := by
    obtain ⟨a, c₁, ws₁, ws₂, hd, hf, -⟩ := bind_eq_ok.1 h
    obtain ⟨taken, rest, hb, rfl, hr⟩ := Steady.split hd
    obtain ⟨taken', hb', hr'⟩ := Steady.reads hf
    replace hb' : rest = taken' ++ c'.rest := hb'
    exact ⟨taken ++ taken', by rw [hb, hb', List.append_assoc], hr.bind hr'⟩

theorem reads_bind {d : Decoder α} {f : α → Decoder β} [Steady d] [∀ a, Steady (f a)]
    {offset : Nat} {bytes : List UInt8} {b : β} :
    Reads (d >>= f) offset bytes b ↔ ∃ a left right, bytes = left ++ right ∧
      Reads d offset left a ∧ Reads (f a) (offset + left.length) right b := by
  constructor
  · intro h
    obtain ⟨ws, h⟩ := h.apply []
    rw [List.append_nil] at h
    obtain ⟨a, c₁, ws₁, ws₂, hd, hf, -⟩ := bind_eq_ok.1 h
    obtain ⟨left, right, rfl, rfl, hr⟩ := Steady.split hd
    exact ⟨a, left, right, rfl, hr, Steady.reads_of_end hf rfl⟩
  · intro h
    obtain ⟨a, left, right, rfl, hd, hf⟩ := h
    exact hd.bind hf

/-- Behind a steady decoder anything may come, if the end of the place is in sight. -/
theorem fills_bind {d : Decoder α} {f : α → Decoder β} [Steady d] {offset : Nat}
    {bytes : List UInt8} {b : β} :
    Fills (d >>= f) offset bytes b ↔ ∃ a left right, bytes = left ++ right ∧
      Reads d offset left a ∧ Fills (f a) (offset + left.length) right b := by
  constructor
  · intro h
    obtain ⟨c, ws, h⟩ := h
    obtain ⟨a, c₁, ws₁, ws₂, hd, hf, -⟩ := bind_eq_ok.1 h
    obtain ⟨left, right, rfl, rfl, hr⟩ := Steady.split hd
    exact ⟨a, left, right, rfl, hr, c, ws₂, hf⟩
  · intro h
    obtain ⟨a, left, right, rfl, hd, c, ws, hf⟩ := h
    obtain ⟨ws', hd⟩ := hd.apply right
    exact ⟨c, ws' ++ ws, bind_eq_ok.2 ⟨a, _, ws', ws, hd, hf, rfl⟩⟩

theorem fills_iff {d : Decoder α} [Steady d] {offset : Nat} {bytes : List UInt8} {a : α} :
    Fills d offset bytes a ↔ ∃ taken extra, bytes = taken ++ extra ∧ Reads d offset taken a := by
  constructor
  · intro h
    obtain ⟨c, ws, h⟩ := h
    obtain ⟨taken, extra, rfl, -, hr⟩ := Steady.split h
    exact ⟨taken, extra, rfl, hr⟩
  · intro h
    obtain ⟨taken, extra, rfl, h⟩ := h
    obtain ⟨ws, h⟩ := h.apply extra
    exact ⟨_, ws, h⟩

theorem fills_remaining {f : Nat → Decoder β} {offset : Nat} {bytes : List UInt8} {b : β} :
    Fills (remaining >>= f) offset bytes b ↔ Fills (f bytes.length) offset bytes b := by
  have h : ∀ c, (remaining >>= f) c = f c.rest.length c := fun c => by
    rw [bind_of_ok (d := remaining) (c := c) rfl]
    rfl
  simp only [Fills, h]

/-- The decoders stop without a fault on the same places, and do the same there. -/
def Agrees (d d' : Decoder α) : Prop :=
  ∀ c a c' ws, d c = ⟨.ok a, c', ws⟩ ↔ d' c = ⟨.ok a, c', ws⟩

theorem Agrees.refl (d : Decoder α) : Agrees d d := fun _ _ _ _ => Iff.rfl

theorem Agrees.bind {d : Decoder α} {f f' : α → Decoder β} (h : ∀ a, Agrees (f a) (f' a)) :
    Agrees (d >>= f) (d >>= f') := by
  intro c b c' ws
  have hf : ∀ a c₁ ws₂, f a c₁ = ⟨.ok b, c', ws₂⟩ ↔ f' a c₁ = ⟨.ok b, c', ws₂⟩ :=
    fun a c₁ ws₂ => h a c₁ b c' ws₂
  simp only [bind_eq_ok, hf]

theorem Agrees.reads_iff {d d' : Decoder α} (h : Agrees d d') {offset : Nat} {bytes : List UInt8}
    {a : α} : Reads d offset bytes a ↔ Reads d' offset bytes a := by
  have hd : ∀ c c' ws, d c = ⟨.ok a, c', ws⟩ ↔ d' c = ⟨.ok a, c', ws⟩ := fun c c' ws => h c a c' ws
  simp only [Reads, hd]

theorem Agrees.fills_iff {d d' : Decoder α} (h : Agrees d d') {offset : Nat} {bytes : List UInt8}
    {a : α} : Fills d offset bytes a ↔ Fills d' offset bytes a := by
  have hd : ∀ c c' ws, d c = ⟨.ok a, c', ws⟩ ↔ d' c = ⟨.ok a, c', ws⟩ := fun c c' ws => h c a c' ws
  simp only [Fills, hd]

theorem Agrees.steady {d d' : Decoder α} [Steady d'] (h : Agrees d d') : Steady d where
  reads {c c' a ws} hd := by
    obtain ⟨bytes, hb, hr⟩ := Steady.reads ((h c a c' ws).1 hd)
    exact ⟨bytes, hb, h.reads_iff.2 hr⟩

/-- An early check that enough bytes are left rejects nothing that the reading behind it accepts. -/
theorem agrees_of_enough {d d' : Decoder α} [Steady d'] {n : Nat}
    (enough : ∀ c : Cursor, n ≤ c.rest.length → d c = d' c)
    (short : ∀ c : Cursor, c.rest.length < n → ∃ e, d c = ⟨.error e, c, []⟩)
    (hn : ∀ offset bytes a, Reads d' offset bytes a → n ≤ bytes.length) : Agrees d d' := by
  intro c a c' ws
  by_cases hc : n ≤ c.rest.length
  · rw [enough c hc]
  · constructor
    · intro h
      obtain ⟨e, he⟩ := short c (Nat.lt_of_not_le hc)
      rw [he] at h
      cases h
    · intro h
      obtain ⟨bytes, hb, hr⟩ := Steady.reads h
      have hl := hn _ _ _ hr
      rw [hb, List.length_append] at hc
      omega

/-- A count of entries is checked against the room for them, which is `k` bytes or more each. -/
theorem agrees_of_room {d : Decoder α} [Steady d] {k n : Nat} (fault : Nat → Fault) (hk : 0 < k)
    (hn : ∀ offset bytes a, Reads d offset bytes a → k * n ≤ bytes.length) :
    Agrees (remaining >>= fun left =>
      if left / k < n then fail (fault left) >>= fun _ : Unit => d else d) d := by
  refine agrees_of_enough (n := k * n) (fun c hc => ?_) (fun c hc => ?_) hn
  · have hlt : ¬c.rest.length / k < n := by
      rwa [Nat.div_lt_iff_lt_mul hk, Nat.not_lt, Nat.mul_comm]
    rw [bind_of_ok (d := remaining) (c := c) rfl]
    simp only [if_neg hlt]
    rfl
  · have hlt : c.rest.length / k < n := by
      rwa [Nat.div_lt_iff_lt_mul hk, Nat.mul_comm]
    refine ⟨.malformed c.offset (fault c.rest.length), ?_⟩
    rw [bind_of_ok (d := remaining) (c := c) rfl]
    simp only [if_pos hlt]
    rfl

end AmigaHunk.Decoder
