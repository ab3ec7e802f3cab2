import AmigaHunk.Proofs.Binary.Windows

/-! Runs of steps in nested places. The places of a run are windows on the buffer, each of them in
the one below it: one step keeps them so, and by induction every run does. What a step answers after
any run is read off the windows alone. -/
namespace AmigaHunk

/-- Windows on one buffer, of which the top one moves. -/
structure Windows where
  top : Window
  below : List Window
  deriving DecidableEq, Repr

namespace Windows
variable {bytes : List UInt8} {w : Windows} {s : Step}

def start (bytes : List UInt8) : Windows := ⟨⟨0, bytes.length, 0⟩, []⟩

def places (bytes : List UInt8) (w : Windows) : Places :=
  ⟨w.top.place bytes, w.below.map (·.place bytes)⟩

/-- Moves over `n` bytes, as a step does. -/
def pass (w : Windows) (n : Nat) : Step → Windows
  | .split _ => ⟨w.top.part n, w.top.forward n :: w.below⟩
  | .leave =>
    match w.below with
    | [] => w
    | v :: below => ⟨v, below⟩
  | _ => ⟨w.top.forward n, w.below⟩

/-- The windows after a step. -/
def next (bytes : List UInt8) (w : Windows) (s : Step) : Windows :=
  let size := s.size bytes w.top.offset
  if size ≤ w.top.left then w.pass size s else ⟨w.top.forward (s.lost w.top.left), w.below⟩

/-- The windows after a run from the start of the buffer. -/
def after (bytes : List UInt8) (steps : List Step) : Windows := steps.foldl (next bytes) (start bytes)

theorem after_concat (bytes : List UInt8) (steps : List Step) (s : Step) :
    after bytes (steps ++ [s]) = (after bytes steps).next bytes s := by
  rw [after, List.foldl_append]
  rfl

theorem places_start (bytes : List UInt8) : (start bytes).places bytes = .start bytes := by
  simp [start, places, Window.place, Window.stop, Places.start, Cursor.start]

/-- The windows are in the buffer, each of them in the one below it. -/
structure Sound (bytes : List UInt8) (w : Windows) : Prop where
  inBounds : ∀ v ∈ w.top :: w.below, v.InBounds bytes
  nested : (w.top :: w.below).IsChain Window.Nested

theorem Sound.start (bytes : List UInt8) : (start bytes).Sound bytes where
  inBounds v hv := by
    rw [List.mem_singleton.1 hv]
    exact ⟨Nat.le_refl 0, Nat.zero_le _, Nat.le_of_eq (Nat.zero_add _)⟩
  nested := .singleton _

theorem Sound.top (h : w.Sound bytes) : w.top.InBounds bytes := h.inBounds _ List.mem_cons_self

theorem Sound.forward (h : w.Sound bytes) {n : Nat} (hn : n ≤ w.top.left) :
    Sound bytes ⟨w.top.forward n, w.below⟩ where
  inBounds := List.forall_mem_cons.2 ⟨h.top.forward hn, (List.forall_mem_cons.1 h.inBounds).2⟩
  nested := by
    have hnested := h.nested
    cases hbelow : w.below with
    | nil => exact .singleton _
    | cons v below =>
      rw [hbelow, List.isChain_cons_cons] at hnested
      exact List.isChain_cons_cons.2 ⟨hnested.1.forward n, hnested.2⟩

theorem Sound.part (h : w.Sound bytes) {n : Nat} (hn : n ≤ w.top.left) :
    Sound bytes ⟨w.top.part n, w.top.forward n :: w.below⟩ where
  inBounds := List.forall_mem_cons.2 ⟨h.top.part hn, (h.forward hn).inBounds⟩
  nested := List.isChain_cons_cons.2 ⟨h.top.nested_part n, (h.forward hn).nested⟩

theorem Sound.leave (h : w.Sound bytes) : (w.pass 0 .leave).Sound bytes := by
  rw [pass]
  cases hbelow : w.below with
  | nil => exact h
  | cons v below =>
    have hbounds := h.inBounds
    have hnested := h.nested
    rw [hbelow] at hbounds hnested
    exact ⟨(List.forall_mem_cons.1 hbounds).2, (List.isChain_cons_cons.1 hnested).2⟩

theorem Sound.next (h : w.Sound bytes) (s : Step) : (w.next bytes s).Sound bytes := by
  rw [Windows.next]
  split
  · rename_i hsize
    cases s with
    | split n => exact h.part hsize
    | leave => exact h.leave
    | _ => exact h.forward hsize
  · exact h.forward (s.lost_le _)

theorem Sound.after (bytes : List UInt8) (steps : List Step) : (after bytes steps).Sound bytes := by
  induction steps using List.reverseRecOn with
  | nil => exact .start bytes
  | append_singleton steps s ih =>
    rw [after_concat]
    exact ih.next s

variable (h : w.top.InBounds bytes)
include h

theorem atTop_of_le {n : Nat} (hn : n ≤ w.top.left) (f : List UInt8 → Reading) :
    Step.atTop (f <$> Decoder.take n) (w.places bytes) =
      (.ok (f (bytes.extract w.top.offset (w.top.offset + n))),
        (⟨w.top.forward n, w.below⟩ : Windows).places bytes) := by
  simp only [Step.atTop, places, Decoder.map_apply, h.take_of_le hn, Outcome.map, Except.map]

theorem atTop_of_lt {n : Nat} (hn : w.top.left < n) (f : List UInt8 → Reading) :
    Step.atTop (f <$> Decoder.take n) (w.places bytes) =
      (.error (.malformed w.top.offset (.short n w.top.left)), w.places bytes) := by
  simp only [Step.atTop, places, Decoder.map_apply, h.take_of_lt hn, Outcome.map, Except.map]

theorem split_of_le {n : Nat} (hn : n ≤ w.top.left) : (Step.split n).run (w.places bytes) =
    (.ok .nothing, (w.pass n (.split n)).places bytes) := by
  simp only [Step.run, places, Decoder.split_apply, h.take_of_le hn]
  rfl

theorem split_of_lt {n : Nat} (hn : w.top.left < n) : (Step.split n).run (w.places bytes) =
    (.error (.malformed w.top.offset (.short n w.top.left)), w.places bytes) := by
  simp only [Step.run, places, Decoder.split_apply, h.take_of_lt hn]
  rfl

theorem text_of_lt (hn : w.top.left < 4) : Step.text.run (w.places bytes) =
    (.error (.malformed w.top.offset (.short 4 w.top.left)), w.places bytes) := by
  have hword : Decoder.word (w.top.place bytes) =
      ⟨.error (.malformed w.top.offset (.short 4 w.top.left)), w.top.place bytes, []⟩ := by
    rw [Decoder.word, Decoder.map_apply, h.take_of_lt hn]
    rfl
  simp only [Step.run, Step.atTop, places, Decoder.map_apply, Decoder.text,
    Decoder.bind_of_error hword]
  rfl

/-- Behind its length a text is a padded one. -/
theorem text_of_le (hn : 4 ≤ w.top.left) : Step.text.run (w.places bytes) =
    (Step.padded (Step.textLongs bytes w.top.offset)).run
      ((⟨w.top.forward 4, w.below⟩ : Windows).places bytes) := by
  have hword : Decoder.word (w.top.place bytes) =
      ⟨.ok (UInt32.ofNat (bigEndian (bytes.extract w.top.offset (w.top.offset + 4)))),
        (w.top.forward 4).place bytes, []⟩ := by
    rw [Decoder.word, Decoder.map_apply, h.take_of_le hn]
    rfl
  have hlongs := Word.toNat_ofNat_bigEndian (h.length_extract hn)
  simp only [Step.run, Step.atTop, places, Decoder.map_apply, Decoder.text,
    Decoder.bind_of_ok hword, hlongs, Outcome.after_nil, Step.textLongs]

/-- A step that has bytes enough ahead of it succeeds, and answers what the buffer holds where it
moves over it. -/
theorem run_of_le (hsize : s.size bytes w.top.offset ≤ w.top.left) : s.run (w.places bytes) =
    (.ok (s.reading (bytes.extract w.top.offset (w.top.offset + s.size bytes w.top.offset))),
      (w.pass (s.size bytes w.top.offset) s).places bytes) := by
  cases s with
  | split n => exact split_of_le h hsize
  | leave =>
    cases hbelow : w.below <;> simp [Step.run, places, pass, Step.reading, hbelow]
  | text =>
    rw [Step.size] at hsize ⊢
    have hfour : 4 ≤ w.top.left := Nat.le_of_add_right_le hsize
    have hrest : 4 * Step.textLongs bytes w.top.offset ≤ (w.top.forward 4).left := by
      rw [Window.left_forward]
      exact Nat.le_sub_of_add_le' hsize
    have hpadded : (Step.padded (Step.textLongs bytes w.top.offset)).IsField := trivial
    rw [text_of_le h hfour, Step.run_of_isField hpadded bytes]
    refine (atTop_of_le (w := ⟨w.top.forward 4, w.below⟩) (h.forward hfour) hrest _).trans ?_
    rw [Window.forward_forward, Step.reading, Step.reading, drop_extract]
    rfl
  | _ => exact (Step.run_of_isField (by trivial) bytes _).trans (atTop_of_le h hsize _)

/-- A step that has too few bytes ahead of it fails where it stops. -/
theorem run_of_lt (hsize : w.top.left < s.size bytes w.top.offset) : s.run (w.places bytes) =
    (.error (.malformed (w.top.offset + s.lost w.top.left)
      (.short (s.wanted (s.size bytes w.top.offset) w.top.left)
        (w.top.left - s.lost w.top.left))),
      (⟨w.top.forward (s.lost w.top.left), w.below⟩ : Windows).places bytes) := by
  cases s with
  | split n => exact split_of_lt h hsize
  | leave => exact absurd hsize (Nat.not_lt_zero _)
  | text =>
    by_cases hfour : 4 ≤ w.top.left
    · rw [Step.size] at hsize ⊢
      have hrest : (w.top.forward 4).left < 4 * Step.textLongs bytes w.top.offset := by
        rw [Window.left_forward]
        omega
      have hpadded : (Step.padded (Step.textLongs bytes w.top.offset)).IsField := trivial
      rw [text_of_le h hfour, Step.run_of_isField hpadded bytes]
      refine (atTop_of_lt (w := ⟨w.top.forward 4, w.below⟩) (h.forward hfour) hrest _).trans ?_
      rw [Window.left_forward, Step.lost, if_pos hfour, Step.wanted, if_pos hfour,
        Nat.add_sub_cancel_left]
      rfl
    · rw [text_of_lt h (Nat.lt_of_not_le hfour)]
      simp [Step.lost, Step.wanted, hfour, Window.forward, places]
  | _ => exact (Step.run_of_isField (by trivial) bytes _).trans (atTop_of_lt h hsize _)

theorem run_places (s : Step) : (s.run (w.places bytes)).2 = (w.next bytes s).places bytes := by
  by_cases hsize : s.size bytes w.top.offset ≤ w.top.left
  · rw [run_of_le h hsize, next, if_pos hsize]
  · rw [run_of_lt h (Nat.lt_of_not_le hsize), next, if_neg hsize]

end Windows

/-- As long as a step does not leave a stack of places, it leaves the stack as it is. -/
theorem Step.suffix_below {places : List Cursor} {p : Places} (h : places <:+ p.below) (s : Step)
    (hheight : places.length ≤ (s.run p).2.below.length) : places <:+ (s.run p).2.below := by
  cases s with
  | split n =>
    rw [run]
    rcases Decoder.split n p.top with ⟨_ | place, c, ws⟩
    · exact h
    · exact h.trans (List.suffix_cons c p.below)
  | leave =>
    rw [run] at hheight ⊢
    cases hbelow : p.below with
    | nil => exact h
    | cons c below =>
      rw [hbelow] at h hheight
      obtain rfl | hbehind := List.suffix_cons_iff.1 h
      · exact absurd hheight (Nat.not_succ_le_self _)
      · exact hbehind
  | _ => exact h

namespace Places

/-- Where a run leads. -/
def after (p : Places) (steps : List Step) : Places := steps.foldl (fun p s => (s.run p).2) p

theorem after_concat (p : Places) (steps : List Step) (s : Step) :
    p.after (steps ++ [s]) = (s.run (p.after steps)).2 := by
  rw [after, List.foldl_append]
  rfl

theorem after_start (bytes : List UInt8) (steps : List Step) :
    (start bytes).after steps = (Windows.after bytes steps).places bytes := by
  induction steps using List.reverseRecOn with
  | nil => exact (Windows.places_start bytes).symm
  | append_singleton steps s ih =>
    rw [after_concat, ih, Windows.run_places (Windows.Sound.after bytes steps).top,
      Windows.after_concat]

theorem getElem?_runAll (p : Places) (before : List Step) (s : Step) (later : List Step) :
    (p.runAll (before ++ s :: later))[before.length]? =
      some ((s.run (p.after before)).1, (s.run (p.after before)).2.top) := by
  induction before generalizing p with
  | nil => rfl
  | cons step before ih => exact ih (step.run p).2

theorem suffix_below_after (p : Places) (steps : List Step)
    (h : ∀ n, p.below.length ≤ (p.after (steps.take n)).below.length) :
    p.below <:+ (p.after steps).below := by
  induction steps using List.reverseRecOn with
  | nil => exact List.suffix_rfl
  | append_singleton steps s ih =>
    have hwhole := h (steps ++ [s]).length
    rw [List.take_length, after_concat] at hwhole
    rw [after_concat]
    refine Step.suffix_below (ih fun n => ?_) s hwhole
    have hfront := h (min n steps.length)
    rwa [List.take_append_of_le_length (Nat.min_le_right _ _), ← List.take_eq_take_min] at hfront

/-- Wherever a run from the start of a buffer has come, its places are windows on the buffer, inside
each other, and the next step is bound to them. If as many bytes are ahead as it needs, it answers
what the buffer holds there and moves over just that; otherwise it fails, tells where it stands then,
and has moved over nothing but perhaps the length of a text. What is below the top place stays as it
is until a run goes back there. -/
theorem run_within_buffer (bytes : List UInt8) (before : List Step) (s : Step)
    (later : List Step) :
    let w := Windows.after bytes before
    let p := (start bytes).after before
    let q := (s.run p).2
    let offset := w.top.offset
    let size := s.size bytes offset
    let left := w.top.left
    p = w.places bytes ∧
    ((start bytes).runAll (before ++ s :: later))[before.length]? = some ((s.run p).1, q.top) ∧
    (∀ v ∈ w.top :: w.below, v.base ≤ v.offset ∧ v.offset ≤ v.base + v.length ∧
      v.base + v.length ≤ bytes.length) ∧
    (w.top :: w.below).IsChain (fun sub parent =>
      parent.base ≤ sub.base ∧ sub.base + sub.length = parent.offset) ∧
    (∀ steps, (∀ n, p.below.length ≤ (p.after (steps.take n)).below.length) →
      p.below <:+ (p.after steps).below) ∧
    (size ≤ left → s.run p = (.ok (s.reading (bytes.extract offset (offset + size))),
      (w.pass size s).places bytes)) ∧
    (left < size → (s.run p).1 =
        .error (.malformed q.top.offset (.short (s.wanted size left) (left - s.lost left))) ∧
      q = (⟨w.top.forward (s.lost left), w.below⟩ : Windows).places bytes ∧
      (s.lost left = 0 ∨ s = .text ∧ s.lost left = 4)) ∧
    (s = .align → 4 ∣ offset + size ∧ size < 4) := by
  intro w p q offset size left
  have hp : p = w.places bytes := after_start bytes before
  have hsound : w.Sound bytes := .after bytes before
  refine ⟨hp, getElem?_runAll _ before s later, fun v hv => ?_, ?_, p.suffix_below_after, ?_, ?_, ?_⟩
  · have hv := hsound.inBounds v hv
    exact ⟨hv.base_le, hv.offset_le, hv.stop_le⟩
  · exact hsound.nested.imp fun _ _ h => ⟨h.base_le, h.stop_eq⟩
  · intro hsize
    rw [hp, Windows.run_of_le hsound.top hsize]
  · intro hsize
    have hrun := Windows.run_of_lt hsound.top hsize
    rw [← hp] at hrun
    have hq : q = (⟨w.top.forward (s.lost left), w.below⟩ : Windows).places bytes :=
      congrArg Prod.snd hrun
    refine ⟨?_, hq, s.lost_eq left⟩
    rw [hq]
    exact congrArg Prod.fst hrun
  · intro hs
    subst hs
    change 4 ∣ offset + ((offset + 3) / 4 * 4 - offset) ∧ (offset + 3) / 4 * 4 - offset < 4
    omega

/-- A text, and another one that is not all there. -/
def twoTexts : List UInt8 := [0, 0, 0, 1, 0x68, 0x69, 0, 0, 0, 0, 0, 9, 0x61, 0x62, 0, 0]

/-- Within the first three longwords the second text ends behind its length, and the place below
stays where it is. -/
theorem run_within_buffer_twoTexts :
    let p := (start twoTexts).after [.split 12]
    let q := (start twoTexts).after [.split 12, .text]
    Windows.after twoTexts [.split 12] = ⟨⟨0, 12, 0⟩, [⟨0, 16, 12⟩]⟩ ∧
      Step.text.size twoTexts 0 ≤ 12 ∧ (Step.text.run p).1 = .ok (.text "hi") ∧
    Windows.after twoTexts [.split 12, .text] = ⟨⟨0, 12, 8⟩, [⟨0, 16, 12⟩]⟩ ∧
      4 < Step.text.size twoTexts 8 ∧ (Step.text.run q).1 = .error (.malformed 12 (.short 36 0)) ∧
    (∀ n, p.below.length ≤ (p.after ([.text, .text].take n)).below.length) ∧
      p.below <:+ (p.after [.text, .text]).below := by
  intro p q
  have hw : Windows.after twoTexts [.split 12] = ⟨⟨0, 12, 0⟩, [⟨0, 16, 12⟩]⟩ := by decide +kernel
  have hv : Windows.after twoTexts [.split 12, .text] = ⟨⟨0, 12, 8⟩, [⟨0, 16, 12⟩]⟩ := by
    decide +kernel
  obtain ⟨-, -, -, -, hstays, hreads, -, -⟩ := run_within_buffer twoTexts [.split 12] .text []
  obtain ⟨-, -, -, -, -, -, hfails, -⟩ := run_within_buffer twoTexts [.split 12, .text] .text []
  rw [hw] at hreads
  rw [hv] at hfails
  have henough : Step.text.size twoTexts 0 ≤ 12 := by decide +kernel
  have hshort : 4 < Step.text.size twoTexts 8 := by decide +kernel
  have hheight : ∀ n, p.below.length ≤ (p.after ([.text, .text].take n)).below.length := by
    intro n
    match n with
    | 0 | 1 => decide +kernel
    | n + 2 =>
      rw [List.take_of_length_le (Nat.le_add_left 2 n)]
      decide +kernel
  refine ⟨hw, henough, (congrArg Prod.fst (hreads henough)).trans ?_, hv, hshort,
    (hfails hshort).1.trans ?_, hheight, hstays _ hheight⟩
  · decide +kernel
  · decide +kernel

end Places
end AmigaHunk
