import AmigaHunk.Proofs.Binary.Fields
import Mathlib.Algebra.GroupWithZero.Nat

/-! Lists of items in a binary: a given number of them, where each may depend on the one before it,
and as many as come in front of one that ends the list. -/
namespace AmigaHunk
variable {α σ : Type}

namespace Grammar

/-- Items one after the other, each in the state that the one before it leaves. -/
inductive Chain (Item : σ → List UInt8 → α → σ → Prop) : σ → List UInt8 → List α → σ → Prop where
  | nil (s : σ) : Chain Item s [] [] s
  | cons {s s' s'' : σ} {b bs : List UInt8} {a : α} {as : List α} :
    Item s b a s' → Chain Item s' bs as s'' → Chain Item s (b ++ bs) (a :: as) s''

/-- Items in front of one that says that there are no more. -/
inductive Many (Item : List UInt8 → Option α → Prop) : List UInt8 → List α → Prop where
  | stop {b : List UInt8} : Item b none → Many Item b []
  | next {b bs : List UInt8} {a : α} {as : List α} :
    Item b (some a) → Many Item bs as → Many Item (b ++ bs) (a :: as)

/-- What holds of each item that the items can be holds of those that they are. -/
theorem Chain.forall_mem {Item : σ → List UInt8 → α → σ → Prop} {P : α → Prop}
    (hP : ∀ s b a s', Item s b a s' → P a) {s s' : σ} {b : List UInt8} {as : List α}
    (h : Chain Item s b as s') : ∀ a ∈ as, P a := by
  induction h with
  | nil s => exact fun _ ha => by cases ha
  | cons hi _ ih => exact List.forall_mem_cons.2 ⟨hP _ _ _ _ hi, ih⟩

theorem Chain.append {Item : σ → List UInt8 → α → σ → Prop} {s s' s'' : σ} {b b' : List UInt8}
    {as as' : List α} (h : Chain Item s b as s') (h' : Chain Item s' b' as' s'') :
    Chain Item s (b ++ b') (as ++ as') s'' := by
  induction h with
  | nil s => exact h'
  | cons hi _ ih => simpa only [List.append_assoc, List.cons_append] using .cons hi (ih h')

theorem Chain.single {Item : σ → List UInt8 → α → σ → Prop} {s s' : σ} {b : List UInt8} {a : α}
    (h : Item s b a s') : Chain Item s b [a] s' := by
  have hone := Chain.cons h (.nil s')
  rwa [List.append_nil] at hone

/-- What divides the length of each item divides that of all. -/
theorem Chain.dvd_length {Item : σ → List UInt8 → α → σ → Prop} {k : Nat}
    (hk : ∀ s b a s', Item s b a s' → k ∣ b.length) {s s' : σ} {b : List UInt8} {as : List α}
    (h : Chain Item s b as s') : k ∣ b.length := by
  induction h with
  | nil s => exact Nat.dvd_zero k
  | cons hi _ ih =>
    rw [List.length_append]
    exact Nat.dvd_add (hk _ _ _ _ hi) ih

/-- Items that pay for themselves pay for all of them. -/
theorem Chain.sum_le {Item : σ → List UInt8 → α → σ → Prop} {charge : α → Nat}
    (hc : ∀ s b a s', Item s b a s' → charge a ≤ b.length) {s s' : σ} {b : List UInt8}
    {as : List α} (h : Chain Item s b as s') : (as.map charge).sum ≤ b.length := by
  induction h with
  | nil s => exact Nat.le_refl _
  | cons hi _ ih =>
    rw [List.length_append, List.map_cons, List.sum_cons]
    exact Nat.add_le_add (hc _ _ _ _ hi) ih

theorem Chain.length_le {Item : σ → List UInt8 → α → σ → Prop} {k : Nat}
    (hk : ∀ s b a s', Item s b a s' → k ≤ b.length) {s s' : σ} {b : List UInt8} {as : List α}
    (h : Chain Item s b as s') : k * as.length ≤ b.length := by
  have hsum : (as.map fun _ => k).sum ≤ b.length := h.sum_le hk
  rwa [List.map_const', List.sum_replicate_nat, Nat.mul_comm] at hsum

/-- Items that all leave the state as it was. -/
theorem Chain.flatMap {β : Type} {Item : σ → List UInt8 → α → σ → Prop} {s : σ}
    {bytes : β → List UInt8} {items : β → List α} {xs : List β}
    (h : ∀ x ∈ xs, Chain Item s (bytes x) (items x) s) :
    Chain Item s (xs.flatMap bytes) (xs.flatMap items) s := by
  induction xs with
  | nil => exact .nil s
  | cons x xs ih =>
    have hx := h x List.mem_cons_self
    have hxs := ih fun y hy => h y (List.mem_cons_of_mem x hy)
    rw [List.flatMap_cons, List.flatMap_cons]
    exact hx.append hxs

theorem Chain.map {β : Type} {Item : σ → List UInt8 → α → σ → Prop} {s : σ}
    {bytes : β → List UInt8} {item : β → α} {xs : List β}
    (h : ∀ x ∈ xs, Item s (bytes x) (item x) s) :
    Chain Item s (xs.flatMap bytes) (xs.map item) s := by
  rw [List.map_eq_flatMap]
  exact Chain.flatMap fun x hx => .single (h x hx)

theorem Many.map {β : Type} {Item : List UInt8 → Option α → Prop} {stop : List UInt8}
    {bytes : β → List UInt8} {item : β → α} {xs : List β} (hstop : Item stop none)
    (h : ∀ x ∈ xs, Item (bytes x) (some (item x))) :
    Many Item (xs.flatMap bytes ++ stop) (xs.map item) := by
  induction xs with
  | nil => exact .stop hstop
  | cons x xs ih =>
    have hx := h x List.mem_cons_self
    have hxs := ih fun y hy => h y (List.mem_cons_of_mem x hy)
    rw [List.flatMap_cons, List.append_assoc, List.map_cons]
    exact .next hx hxs

theorem Many.forall_mem {Item : List UInt8 → Option α → Prop} {P : α → Prop}
    (hP : ∀ b a, Item b (some a) → P a) {b : List UInt8} {as : List α} (h : Many Item b as) :
    ∀ a ∈ as, P a := by
  induction h with
  | stop _ => exact fun _ ha => by cases ha
  | next hi _ ih => exact List.forall_mem_cons.2 ⟨hP _ _ hi, ih⟩

theorem Many.length_le {Item : List UInt8 → Option α → Prop} {k : Nat}
    (hk : ∀ b a, Item b (some a) → k ≤ b.length) {b : List UInt8} {as : List α}
    (h : Many Item b as) : k * as.length ≤ b.length := by
  induction h with
  | stop _ => exact Nat.zero_le _
  | next hi _ ih =>
    rw [List.length_append, List.length_cons, Nat.mul_succ, Nat.add_comm]
    exact Nat.add_le_add (hk _ _ hi) ih

theorem Many.dvd_length {Item : List UInt8 → Option α → Prop} {k : Nat}
    (hk : ∀ b r, Item b r → k ∣ b.length) {b : List UInt8} {as : List α} (h : Many Item b as) :
    k ∣ b.length := by
  induction h with
  | stop hi => exact hk _ _ hi
  | next hi _ ih =>
    rw [List.length_append]
    exact Nat.dvd_add (hk _ _ hi) ih

end Grammar

namespace Decoder
open Grammar

/-- What comes behind an item: nothing, or the rest of the list in the state that it leaves. -/
def behind (more : σ → Decoder (List α)) : Option (α × σ) → Decoder (List α)
  | none => pure []
  | some (a, s) => (a :: ·) <$> more s

instance (more : σ → Decoder (List α)) [∀ s, Steady (more s)] (r : Option (α × σ)) :
    Steady (behind more r) := by
  cases r with
  | none => exact inferInstanceAs (Steady (pure []))
  | some p => exact inferInstanceAs (Steady ((p.1 :: ·) <$> more p.2))

theorem collect_succ_eq (item : σ → Decoder (Option (α × σ))) (n : Nat) (s : σ) :
    collect item (n + 1) s = item s >>= behind (collect item n) := by
  rw [collect_succ]
  rfl

theorem many_eq_behind {item : Decoder (Option α)} (hp : Progresses item) :
    many item = (Option.map (·, ()) <$> item) >>= behind fun _ => many item := by
  rw [map_eq_pure_bind, bind_assoc]
  conv_lhs => rw [many_eq hp]
  congr 1
  funext r
  rw [pure_bind]
  cases r <;> rfl

theorem reads_behind {more : σ → Decoder (List α)} [∀ s, Steady (more s)]
    {r : Option (α × σ)} {offset : Nat} {bytes : List UInt8} {as : List α} :
    Reads (behind more r) offset bytes as ↔ (r = none ∧ bytes = [] ∧ as = []) ∨
      ∃ a s as', r = some (a, s) ∧ as = a :: as' ∧ Reads (more s) offset bytes as' := by
  cases r with
  | none => simp [behind, reads_pure]
  | some p => simp [behind, reads_map, Prod.ext_iff]

instance steady_collect (item : σ → Decoder (Option (α × σ))) [∀ s, Steady (item s)] (n : Nat)
    (s : σ) : Steady (collect item n s) := by
  induction n generalizing s with
  | zero =>
    rw [collect_zero]
    infer_instance
  | succ n ih =>
    rw [collect_succ_eq]
    infer_instance

/-- The items of a list of known length. None of them ends the list early. -/
theorem reads_collect {item : σ → Decoder (Option (α × σ))} [∀ s, Steady (item s)]
    {Item : σ → List UInt8 → α → σ → Prop}
    (h : ∀ s offset b r, Reads (item s) offset b r ↔ ∃ a s', r = some (a, s') ∧ Item s b a s')
    {n offset : Nat} {s : σ} {bytes : List UInt8} {as : List α} :
    Reads (collect item n s) offset bytes as ↔
      as.length = n ∧ ∃ s', Chain Item s bytes as s' := by
  induction n generalizing offset s bytes as with
  | zero =>
    rw [collect_zero, reads_pure, List.length_eq_zero_iff]
    constructor
    · intro h
      obtain ⟨rfl, rfl⟩ := h
      exact ⟨rfl, s, .nil s⟩
    · intro h
      obtain ⟨rfl, s', hc⟩ := h
      cases hc
      exact ⟨rfl, rfl⟩
  | succ n ih =>
    simp only [collect_succ_eq, reads_bind, reads_behind, h]
    constructor
    · intro h
      obtain ⟨r, left, right, rfl, ⟨a, s', rfl, hi⟩, ⟨hr, -⟩ | ⟨a', s₁, as', hr, rfl, ht⟩⟩ := h
      · cases hr
      · cases hr
        obtain ⟨rfl, s'', hc⟩ := ih.1 ht
        exact ⟨rfl, s'', .cons hi hc⟩
    · intro h
      obtain ⟨hl, s'', hc⟩ := h
      cases hc with
      | nil => cases hl
      | @cons _ s' _ b bs a as' hi hc =>
        have ht : Reads (collect item n s') (offset + b.length) bs as' :=
          ih.2 ⟨Nat.succ.inj hl, s'', hc⟩
        exact ⟨some (a, s'), b, bs, rfl, ⟨a, s', rfl, hi⟩, .inr ⟨a, s', as', rfl, rfl, ht⟩⟩

instance (n : Nat) (item : Decoder α) [Steady item] : Steady (times n item) :=
  inferInstanceAs (Steady (collect (fun _ => (fun a => some (a, ())) <$> item) n ()))

theorem reads_times {item : Decoder α} [Steady item] {Item : List UInt8 → α → Prop}
    (h : ∀ offset b a, Reads item offset b a ↔ Item b a) {n offset : Nat} {bytes : List UInt8}
    {as : List α} : Reads (times n item) offset bytes as ↔
      as.length = n ∧ Chain (fun _ b a _ => Item b a) () bytes as () := by
  have hitem : ∀ (s : Unit) offset b r, Reads ((fun a => some (a, ())) <$> item) offset b r ↔
      ∃ a s', r = some (a, s') ∧ (fun _ b a _ => Item b a) s b a s' := by
    intro s offset b r
    rw [reads_map]
    constructor
    · intro h
      obtain ⟨a, rfl, hr⟩ := h
      exact ⟨a, (), rfl, (h offset b a).1 hr⟩
    · intro h
      obtain ⟨a, u, rfl, hi⟩ := h
      exact ⟨a, rfl, (h offset b a).2 hi⟩
  rw [times, reads_collect hitem]
  exact ⟨fun ⟨hl, (), hc⟩ => ⟨hl, hc⟩, fun ⟨hl, hc⟩ => ⟨hl, (), hc⟩⟩

theorem progresses_of_reads {item : Decoder (Option α)} [Steady item]
    (h : ∀ offset b a, Reads item offset b (some a) → b ≠ []) : Progresses item := by
  intro c a c' ws hc
  obtain ⟨b, hb, hr⟩ := Steady.reads hc
  have hp := List.length_pos_iff.2 (h _ _ _ hr)
  rw [hb, List.length_append]
  omega

/-- The induction is on the bytes that are left, since an item takes some. -/
theorem steady_many {item : Decoder (Option α)} [Steady item] (hp : Progresses item) :
    Steady (many item) where
  reads {c c' as ws} h := by
    induction hn : c.rest.length using Nat.strongRecOn generalizing c as ws with
    | ind n ih =>
      rw [many_eq hp] at h
      obtain ⟨r, c₁, ws₁, ws₂, hi, hf, -⟩ := bind_eq_ok.1 h
      obtain ⟨b, rest, hb, rfl, hr⟩ := Steady.split hi
      cases r with
      | none =>
        cases hf
        refine ⟨b, hb, ?_⟩
        rw [many_eq hp, ← List.append_nil b]
        exact hr.bind (reads_pure.2 ⟨rfl, rfl⟩)
      | some a =>
        have hlt := hp _ _ _ _ hi
        replace hf : ((a :: ·) <$> many item) ⟨c.offset + b.length, rest⟩ = ⟨.ok as, c', ws₂⟩ := hf
        rw [map_eq_pure_bind] at hf
        obtain ⟨as', c₂, ws₃, ws₄, hm, hf, -⟩ := bind_eq_ok.1 hf
        cases hf
        obtain ⟨bs, hbs, ws₅, hrs⟩ := ih _ (hn ▸ hlt) hm rfl
        replace hbs : rest = bs ++ c'.rest := hbs
        refine ⟨b ++ bs, by rw [hb, hbs, List.append_assoc], ?_⟩
        rw [many_eq hp]
        refine hr.bind ⟨ws₅, fun rest => ?_⟩
        change ((a :: ·) <$> many item) _ = _
        rw [map_apply, hrs]
        rfl

theorem reads_many {item : Decoder (Option α)} [Steady item] {Item : List UInt8 → Option α → Prop}
    (h : ∀ offset b r, Reads item offset b r ↔ Item b r) (hp : Progresses item) {offset : Nat}
    {bytes : List UInt8} {as : List α} :
    Reads (many item) offset bytes as ↔ Many Item bytes as := by
  have := steady_many hp
  have hstep : ∀ {offset bytes as}, Reads (many item) offset bytes as ↔
      (Item bytes none ∧ as = []) ∨ ∃ a as' left right, bytes = left ++ right ∧ as = a :: as' ∧
        Item left (some a) ∧ Reads (many item) (offset + left.length) right as' := by
    intro offset bytes as
    conv_lhs => rw [many_eq_behind hp]
    simp only [reads_bind, reads_map, reads_behind, h]
    constructor
    · intro h
      obtain ⟨r, left, right, rfl, ⟨r', rfl, hi⟩, ⟨hr, rfl, rfl⟩ | ⟨a, u, as', hr, rfl, ht⟩⟩ := h
      · cases r' with
        | none => exact .inl ⟨by rwa [List.append_nil], rfl⟩
        | some a => cases hr
      · cases r' with
        | none => cases hr
        | some a' =>
          cases hr
          exact .inr ⟨a, as', left, right, rfl, rfl, hi, ht⟩
    · intro h
      obtain ⟨hi, rfl⟩ | ⟨a, as', left, right, rfl, rfl, hi, ht⟩ := h
      · exact ⟨none, bytes, [], (List.append_nil _).symm, ⟨none, rfl, hi⟩, .inl ⟨rfl, rfl, rfl⟩⟩
      · exact ⟨some (a, ()), left, right, rfl, ⟨some a, rfl, hi⟩,
          .inr ⟨a, (), as', rfl, rfl, ht⟩⟩
  constructor
  · intro hr
    induction hn : bytes.length using Nat.strongRecOn generalizing offset bytes as with
    | ind n ih =>
      obtain ⟨hi, rfl⟩ | ⟨a, as', left, right, rfl, rfl, hi, ht⟩ := hstep.1 hr
      · exact .stop hi
      · obtain ⟨ws, hc⟩ := ((h offset left _).2 hi).apply []
        have hlt := hp _ _ _ _ hc
        simp only [List.append_nil, List.length_nil] at hlt
        rw [List.length_append] at hn
        exact .next hi (ih right.length (by omega) ht rfl)
  · intro hm
    induction hm generalizing offset with
    | stop hi => exact hstep.2 (.inl ⟨hi, rfl⟩)
    | next hi _ ih => exact hstep.2 (.inr ⟨_, _, _, _, rfl, rfl, hi, ih⟩)

end Decoder
end AmigaHunk
