import AmigaHunk.Binary.Decoder

/-! Laws of the decoders: what a read takes and what it leaves, and that the bound of `many` never
cuts a list short. -/
namespace AmigaHunk.Decoder
variable {α β σ : Type}

theorem take_of_le {n : Nat} {c : Cursor} (h : n ≤ c.rest.length) :
    take n c = ⟨.ok (c.rest.take n), ⟨c.offset + n, c.rest.drop n⟩, []⟩ := by
  simp [take, Nat.min_eq_left h]

/-- A read that wants too much leaves the cursor where it is. -/
theorem take_of_lt {n : Nat} {c : Cursor} (h : c.rest.length < n) :
    take n c = ⟨.error (.malformed c.offset (.short n c.rest.length)), c, []⟩ := by
  have hn : min n c.rest.length ≠ n := by omega
  simp [take, fail, failAt, hn]

theorem take_append {n : Nat} {bytes rest : List UInt8} (offset : Nat) (h : bytes.length = n) :
    take n ⟨offset, bytes ++ rest⟩ = ⟨.ok bytes, ⟨offset + n, rest⟩, []⟩ := by
  subst h
  simp [take]

theorem expectLongs_of_le {longs : Nat} {c : Cursor} (h : 4 * longs ≤ c.rest.length) :
    expectLongs longs c = ⟨.ok (), c, []⟩ := by
  simp [expectLongs, Nat.min_eq_left h]

theorem expectLongs_of_lt {longs : Nat} {c : Cursor} (h : c.rest.length < 4 * longs) :
    expectLongs longs c =
      ⟨.error (.malformed c.offset (.blockTooLong longs c.rest.length)), c, []⟩ := by
  have hn : min (4 * longs) c.rest.length ≠ 4 * longs := by omega
  simp [expectLongs, fail, failAt, hn]

/-- An item takes at least one byte. -/
def Progresses (item : Decoder (Option α)) : Prop :=
  ∀ c a c' es, item c = ⟨.ok (some a), c', es⟩ → c'.rest.length < c.rest.length

/-- Two bounds above the bytes that are left make no difference. -/
theorem collect_congr_limit {item : σ → Decoder (Option (α × σ))}
    (h : ∀ s, Progresses (item s)) {m n : Nat} {s : σ} {c : Cursor} (hm : c.rest.length < m)
    (hn : c.rest.length < n) : collect item m s c = collect item n s c := by
  induction m generalizing n s c with
  | zero => omega
  | succ m ih =>
    obtain ⟨n, rfl⟩ : ∃ k, n = k + 1 := ⟨n - 1, by omega⟩
    rw [collect_succ, collect_succ, bind_apply, bind_apply]
    rcases hi : item s c with ⟨_ | _ | ⟨a, s'⟩, c', es⟩
    · rfl
    · rfl
    · have hlt := h s _ _ _ _ hi
      have := @ih n s' c' (by omega) (by omega)
      simp only [map_apply, this]

theorem many_apply (item : Decoder (Option α)) (c : Cursor) :
    many item c = collect (fun _ => Option.map (·, ()) <$> item) (c.rest.length + 1) () c := by
  show (collect _ _ _ c).after [] = _
  simp [Outcome.after]

/-- `many` reads items to the first `none`, however long the file is. -/
theorem many_eq {item : Decoder (Option α)} (h : Progresses item) :
    many item = item >>= fun
      | none => pure []
      | some a => (a :: ·) <$> many item := by
  funext c
  have hp : ∀ u : Unit, Progresses ((fun _ : Unit => Option.map (·, ()) <$> item) u) := by
    intro _ c p c' es hc
    replace hc : (Option.map (·, ()) <$> item) c = ⟨.ok (some p), c', es⟩ := hc
    rw [map_apply] at hc
    rcases hi : item c with ⟨_ | _ | a, c₁, es₁⟩ <;> rw [hi] at hc <;>
      simp [Outcome.map, Except.map] at hc
    exact hc.2.1 ▸ h _ _ _ _ hi
  rw [many_apply, collect_succ, bind_apply, bind_apply, map_apply]
  rcases hi : item c with ⟨_ | _ | a, c', es⟩
  · rfl
  · rfl
  · have hlt := h _ _ _ _ hi
    simp only [Outcome.map, Except.map, Option.map_some, map_apply, many_apply]
    rw [collect_congr_limit hp hlt (Nat.lt_succ_self _)]

end AmigaHunk.Decoder
