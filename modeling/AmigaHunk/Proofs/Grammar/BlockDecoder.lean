import AmigaHunk.Proofs.Grammar.Block

/-! The decoder of blocks takes exactly the blocks of the grammar, wherever a block may start. -/
namespace AmigaHunk
open Decoder Grammar

theorem MemoryKind.ofWord_of_flags {w : UInt32} (h : Word.flags w = 3) :
    MemoryKind.ofWord w = .attributes 0 := by
  simp [MemoryKind.ofWord, h]

theorem MemoryKind.ofWord_ne_attributes {w : UInt32} (h : Word.flags w ≠ 3) (bits : UInt32) :
    MemoryKind.ofWord w ≠ .attributes bits := by
  unfold MemoryKind.ofWord
  split <;> simp_all

theorem MemoryKind.read_eq (w : UInt32) : MemoryKind.read w =
    if Word.flags w = 3 then .attributes <$> word else pure (.ofWord w) := by
  unfold MemoryKind.read
  by_cases h : Word.flags w = 3
  · simp [h, ofWord_of_flags h]
  · rw [if_neg h]
    cases hm : MemoryKind.ofWord w with
    | attributes bits => exact absurd hm (ofWord_ne_attributes h bits)
    | any => rfl
    | chip => rfl
    | fast => rfl

instance (w : UInt32) : Steady (MemoryKind.read w) := by
  rw [MemoryKind.read_eq]
  infer_instance

theorem MemoryKind.reads_read {w : UInt32} {offset : Nat} {bytes : List UInt8} {m : MemoryKind} :
    Reads (MemoryKind.read w) offset bytes m ↔ Memory w bytes m := by
  simp only [MemoryKind.read_eq, reads_ite, reads_map, reads_word, reads_pure]
  constructor
  · intro h
    obtain ⟨h, bits, rfl, rfl⟩ | ⟨h, rfl, rfl⟩ := h
    · exact .attributes bits h
    · exact .flags h
  · intro h
    cases h with
    | flags h => exact .inr ⟨h, rfl, rfl⟩
    | attributes bits h => exact .inl ⟨h, bits, rfl, rfl⟩

/-- The check in front of a payload rejects nothing, if the payload is read behind it. -/
theorem expectLongs_agrees {α : Type} {d : Decoder α} [Steady d] {longs : Nat}
    (h : ∀ offset bytes a, Reads d offset bytes a → 4 * longs ≤ bytes.length) :
    Agrees (expectLongs longs >>= fun _ => d) d := by
  refine agrees_of_enough (fun c hc => ?_) (fun c hc => ?_) h
  · rw [bind_of_ok (expectLongs_of_le hc)]
    rfl
  · exact ⟨_, bind_of_error (expectLongs_of_lt hc)⟩

namespace Block

theorem readSegment_agrees (tag : UInt32) (kind : HunkKind) :
    Agrees (readSegment tag kind) (MemoryKind.read tag >>= fun memory => word >>= fun size =>
      segment kind memory (4 * Word.low30 size) <$>
        take (if kind = .bss then 0 else 4 * Word.low30 size)) := by
  refine Agrees.bind fun memory => Agrees.bind fun size => ?_
  by_cases hk : kind = .bss
  · simp only [if_pos hk]
    intro c block c' ws
    rw [map_apply, take_of_le (Nat.zero_le _)]
    rfl
  · simp only [if_neg hk]
    rw [map_eq_pure_bind]
    refine expectLongs_agrees fun offset bytes block h => ?_
    obtain ⟨payload, left, right, rfl, hr, -⟩ := reads_bind.1 h
    rw [List.length_append, (reads_take.1 hr).2]
    exact Nat.le_add_right _ _

instance (tag : UInt32) (kind : HunkKind) : Steady (readSegment tag kind) :=
  (readSegment_agrees tag kind).steady

theorem reads_readSegment {tag : UInt32} {kind : HunkKind} {offset : Nat} {bytes : List UInt8}
    {block : Block} : Reads (readSegment tag kind) offset bytes block ↔
      ∃ m size payload memory, bytes = m ++ (Word.bytes size ++ payload) ∧ Memory tag m memory ∧
        payload.length = (if kind = .bss then 0 else 4 * Word.low30 size) ∧
        block = segment kind memory (4 * Word.low30 size) payload := by
  simp only [(readSegment_agrees tag kind).reads_iff, reads_bind, reads_map, reads_word, reads_take,
    MemoryKind.reads_read]
  constructor
  · intro h
    obtain ⟨memory, m, _, rfl, hm, size, _, payload, rfl, rfl, _, rfl, rfl, hp⟩ := h
    exact ⟨m, size, _, memory, rfl, hm, hp, rfl⟩
  · intro h
    obtain ⟨m, size, payload, memory, rfl, hm, hp, rfl⟩ := h
    exact ⟨memory, m, _, rfl, hm, size, _, payload, rfl, rfl, payload, rfl, rfl, hp⟩

instance : Steady readSymbol := by
  unfold readSymbol
  infer_instance

theorem reads_readSymbol (offset : Nat) (bytes : List UInt8) (r : Option Symbol) :
    Reads readSymbol offset bytes r ↔ SymbolEntry bytes r := by
  simp only [readSymbol, reads_bind, reads_word, reads_ite, reads_pure, reads_padded]
  constructor
  · intro h
    obtain ⟨w, _, _, rfl, rfl, ⟨h, rfl, rfl⟩ | ⟨h, _, name, _, rfl, ⟨hn, rfl⟩, o, _, _, rfl, rfl,
      rfl, rfl⟩⟩ := h
    · rw [List.append_nil]
      exact .last w h
    · rw [List.append_nil]
      exact .symbol w o h hn
  · intro h
    cases h with
    | last w h => exact ⟨w, _, [], (List.append_nil _).symm, rfl, .inl ⟨h, rfl, rfl⟩⟩
    | symbol w o h hn =>
      exact ⟨w, _, _, rfl, rfl, .inr ⟨h, _, _, _, rfl, ⟨hn, rfl⟩, o, _, [],
        (List.append_nil _).symm, rfl, rfl, rfl⟩⟩

instance : Steady skipLongGroup := by
  unfold skipLongGroup
  infer_instance

theorem reads_skipLongGroup (offset : Nat) (bytes : List UInt8) (r : Option Unit) :
    Reads skipLongGroup offset bytes r ↔ LongGroup bytes r := by
  simp only [skipLongGroup, reads_bind, reads_word, reads_ite, reads_pure, reads_skip,
    reads_skipLongs]
  constructor
  · intro h
    obtain ⟨w, _, _, rfl, rfl, ⟨h, rfl, rfl⟩ | ⟨h, _, target, _, rfl, ht, _, b, _, rfl, hb, rfl,
      rfl⟩⟩ := h
    · rw [List.append_nil, Word.toNat_eq_zero.1 h]
      exact .last
    · rw [List.append_nil]
      exact .group w (fun h0 => h (Word.toNat_eq_zero.2 h0)) ht hb
  · intro h
    cases h with
    | last => exact ⟨0, _, [], (List.append_nil _).symm, rfl, .inl ⟨rfl, rfl, rfl⟩⟩
    | @group w target b h0 ht hb =>
      exact ⟨w, _, _, rfl, rfl, .inr ⟨fun h => h0 (Word.toNat_eq_zero.1 h), (), target, _, rfl, ht,
        (), b, [], (List.append_nil _).symm, hb, rfl, rfl⟩⟩

instance : Steady skipShortGroup := by
  unfold skipShortGroup
  infer_instance

theorem reads_skipShortGroup (offset : Nat) (bytes : List UInt8) (r : Option Unit) :
    Reads skipShortGroup offset bytes r ↔ ShortGroup bytes r := by
  simp only [skipShortGroup, reads_bind, reads_halfword, reads_ite, reads_pure, reads_skip]
  constructor
  · intro h
    obtain ⟨_, count, _, rfl, ⟨hc, rfl⟩, ⟨h, rfl, rfl⟩ | ⟨h, _, target, _, rfl, ht, _, b, _, rfl,
      hb, rfl, rfl⟩⟩ := h
    · rw [List.append_nil, bigEndian_eq_zero hc h]
      exact .last
    · rw [List.append_nil]
      exact .group hc h ht hb
  · intro h
    cases h with
    | last =>
      exact ⟨0, [0, 0], [], rfl, ⟨rfl, rfl⟩, .inl ⟨rfl, rfl, rfl⟩⟩
    | @group count target b hc h0 ht hb =>
      exact ⟨_, count, _, rfl, ⟨hc, rfl⟩, .inr ⟨h0, (), target, _, rfl, ht, (), b, [],
        (List.append_nil _).symm, hb, rfl, rfl⟩⟩

instance : Steady skipExternal := by
  unfold skipExternal
  infer_instance

theorem reads_skipExternal (offset : Nat) (bytes : List UInt8) (r : Option Unit) :
    Reads skipExternal offset bytes r ↔ External bytes r := by
  simp only [skipExternal, reads_bind, reads_word, reads_ite, reads_pure, reads_skip,
    reads_skipLongs]
  constructor
  · intro h
    obtain ⟨w, _, _, rfl, rfl, ⟨rfl, rfl, rfl⟩ | ⟨h0, _, name, _, rfl, hn, h⟩⟩ := h
    · exact .last
    · obtain ⟨ht, _, value, _, rfl, hv, rfl, rfl⟩ | ⟨ht, ⟨hc, _, size, _, rfl, hs, h⟩ | ⟨hc, h⟩⟩ :=
        h
      · rw [List.append_nil]
        exact .definition w h0 hn ht hv
      · obtain ⟨count, _, _, rfl, rfl, _, b, _, rfl, hb, rfl, rfl⟩ := h
        rw [List.append_nil]
        exact .common w count hn hc hs hb
      · obtain ⟨count, _, _, rfl, rfl, _, b, _, rfl, hb, rfl, rfl⟩ := h
        rw [List.append_nil]
        exact .reference w count hn (Nat.not_lt.1 ht) (not_or.1 hc) hb
  · intro h
    cases h with
    | last => exact ⟨0, _, [], (List.append_nil _).symm, rfl, .inl ⟨rfl, rfl, rfl⟩⟩
    | @definition w name value h0 hn ht hv =>
      exact ⟨w, _, _, rfl, rfl, .inr ⟨h0, (), name, _, rfl, hn, .inl ⟨ht, (), value, [],
        (List.append_nil _).symm, hv, rfl, rfl⟩⟩⟩
    | @reference w count name b hn ht hc hb =>
      have h0 : w ≠ 0 := by
        intro h
        subst h
        exact absurd ht (by decide)
      exact ⟨w, _, _, rfl, rfl, .inr ⟨h0, (), name, _, rfl, hn, .inr ⟨Nat.not_lt.2 ht,
        .inr ⟨not_or.2 hc, count, _, _, rfl, rfl, (), b, [], (List.append_nil _).symm, hb, rfl,
        rfl⟩⟩⟩⟩
    | @common w count name size b hn hc hs hb =>
      have ht : ¬externalType w < 128 := by omega
      have h0 : w ≠ 0 := by
        intro h
        subst h
        exact absurd hc (by decide)
      exact ⟨w, _, _, rfl, rfl, .inr ⟨h0, (), name, _, rfl, hn, .inr ⟨ht, .inl ⟨hc, (), size, _,
        rfl, hs, count, _, _, rfl, rfl, (), b, [], (List.append_nil _).symm, hb, rfl, rfl⟩⟩⟩⟩

section
variable {offset : Nat} {bytes : List UInt8}

theorem progresses_readSymbol : Progresses readSymbol :=
  progresses_of_reads fun _ _ _ h => ((reads_readSymbol _ _ _).1 h).ne_nil

theorem progresses_skipLongGroup : Progresses skipLongGroup :=
  progresses_of_reads fun _ _ _ h => ((reads_skipLongGroup _ _ _).1 h).ne_nil

theorem progresses_skipShortGroup : Progresses skipShortGroup :=
  progresses_of_reads fun _ _ _ h => ((reads_skipShortGroup _ _ _).1 h).ne_nil

theorem progresses_skipExternal : Progresses skipExternal :=
  progresses_of_reads fun _ _ _ h => ((reads_skipExternal _ _ _).1 h).ne_nil

instance : Steady (many readSymbol) := steady_many progresses_readSymbol

instance : Steady (many skipLongGroup) := steady_many progresses_skipLongGroup

instance : Steady (many skipShortGroup) := steady_many progresses_skipShortGroup

instance : Steady (many skipExternal) := steady_many progresses_skipExternal

theorem reads_symbols {symbols : List Symbol} :
    Reads (many readSymbol) offset bytes symbols ↔ Many SymbolEntry bytes symbols :=
  reads_many reads_readSymbol progresses_readSymbol

instance : Steady skipLongRelocations :=
  inferInstanceAs (Steady (many skipLongGroup >>= fun _ => pure ()))

theorem reads_skipLongRelocations {u : Unit} :
    Reads skipLongRelocations offset bytes u ↔ ∃ groups, Many LongGroup bytes groups := by
  change Reads (many skipLongGroup >>= fun _ => pure ()) offset bytes u ↔ _
  simp only [reads_bind_pure, reads_many reads_skipLongGroup progresses_skipLongGroup, true_and]

instance : Steady skipExternals :=
  inferInstanceAs (Steady (many skipExternal >>= fun _ => pure ()))

theorem reads_skipExternals {u : Unit} :
    Reads skipExternals offset bytes u ↔ ∃ entries, Many External bytes entries := by
  change Reads (many skipExternal >>= fun _ => pure ()) offset bytes u ↔ _
  simp only [reads_bind_pure, reads_many reads_skipExternal progresses_skipExternal, true_and]

instance : Steady skipShortRelocations :=
  inferInstanceAs (Steady (many skipShortGroup >>= fun _ => align))

/-- Where a block starts at a longword, its padding depends on its own length only. -/
theorem reads_skipShortRelocations (ho : 4 ∣ offset) {u : Unit} :
    Reads skipShortRelocations offset bytes u ↔ ∃ b padding groups, bytes = b ++ padding ∧
      Many ShortGroup b groups ∧ padding.length = (4 - b.length % 4) % 4 := by
  change Reads (many skipShortGroup >>= fun _ => align) offset bytes u ↔ _
  simp only [reads_bind, reads_align, reads_many reads_skipShortGroup progresses_skipShortGroup]
  have hm : ∀ n, (offset + n) % 4 = n % 4 := fun n => by omega
  constructor
  · intro h
    obtain ⟨groups, b, padding, rfl, h, hp⟩ := h
    exact ⟨b, padding, groups, rfl, h, by rw [hp, hm]⟩
  · intro h
    obtain ⟨b, padding, groups, rfl, h, hp⟩ := h
    exact ⟨groups, b, padding, rfl, h, by rw [hp, hm]⟩

instance : Steady skipCounted :=
  inferInstanceAs (Steady (word >>= fun longs => skipLongs longs.toNat))

theorem reads_skipCounted {u : Unit} :
    Reads skipCounted offset bytes u ↔ ∃ content, Counted bytes content := by
  change Reads (word >>= fun longs => skipLongs longs.toNat) offset bytes u ↔ _
  simp only [reads_bind, reads_word, reads_skipLongs]
  constructor
  · intro h
    obtain ⟨longs, _, b, rfl, rfl, h⟩ := h
    exact ⟨b, .mk longs h⟩
  · intro h
    obtain ⟨b, h⟩ := h
    cases h with
    | mk longs h => exact ⟨longs, _, b, rfl, rfl, h⟩

instance (start : Nat) : Steady (skipOverlay start) := by
  unfold skipOverlay
  infer_instance

theorem reads_skipOverlay {start : Nat} {u : Unit} :
    Reads (skipOverlay start) offset bytes u ↔ ∃ longs b, bytes = Word.bytes longs ++ b ∧
      longs.toNat + 1 < 0x100000000 ∧ b.length = 4 * (longs.toNat + 1) := by
  simp only [skipOverlay, reads_bind, reads_word, reads_ite, failAt_bind, not_reads_failAt,
    and_false, false_or, reads_skipLongs]
  constructor
  · intro h
    obtain ⟨longs, _, b, rfl, rfl, h, hb⟩ := h
    have := longs.toNat_lt
    exact ⟨longs, b, rfl, by omega, hb⟩
  · intro h
    obtain ⟨longs, b, rfl, h, hb⟩ := h
    exact ⟨longs, _, b, rfl, rfl, by omega, hb⟩

instance : Steady readUnit := inferInstanceAs (Steady (text >>= fun _ => pure ()))

theorem reads_readUnit {u : Unit} : Reads readUnit offset bytes u ↔ ∃ s, Text bytes s := by
  change Reads (text >>= fun _ => pure ()) offset bytes u ↔ _
  simp only [reads_bind, reads_text, reads_pure, and_true]
  constructor
  · intro h
    obtain ⟨s, b, _, rfl, h, rfl⟩ := h
    exact ⟨s, by rwa [List.append_nil]⟩
  · intro h
    obtain ⟨s, h⟩ := h
    exact ⟨s, bytes, [], (List.append_nil _).symm, h, rfl⟩

instance (start : Nat) (tag : UInt32) : Steady (skipUnknown start tag) := by
  unfold skipUnknown
  infer_instance

theorem reads_skipUnknown {start : Nat} {tag : UInt32} {u : Unit} :
    Reads (skipUnknown start tag) offset bytes u ↔ ∃ content, Counted bytes content := by
  simp only [skipUnknown, reads_bind, reads_word, reads_ite, reads_warn, reads_skipLongs]
  constructor
  · intro h
    obtain ⟨longs, _, _, rfl, rfl, ⟨-, _, _, b, rfl, rfl, h⟩ | ⟨-, h⟩⟩ := h
    · exact ⟨b, .mk longs h⟩
    · exact ⟨_, .mk longs h⟩
  · intro h
    obtain ⟨b, h⟩ := h
    cases h with
    | mk longs h =>
      refine ⟨longs, _, b, rfl, rfl, ?_⟩
      by_cases ha : (!Word.isAdvisory tag) = true
      · exact .inl ⟨ha, (), [], b, rfl, rfl, h⟩
      · exact .inr ⟨ha, h⟩

instance (current : Option Nat) (start : Nat) (tag : Tag) :
    Steady (requireOpen current start tag) := by
  unfold requireOpen
  infer_instance

theorem reads_requireOpen {current : Option Nat} {start : Nat} {tag : Tag} {u : Unit} :
    Reads (requireOpen current start tag) offset bytes u ↔ current.isSome = true ∧ bytes = [] := by
  simp [requireOpen, reads_ite, reads_pure, not_reads_failAt]

instance (current : Option Nat) : Steady (warnOpen current) := by
  unfold warnOpen
  cases current <;> infer_instance

theorem reads_warnOpen {current : Option Nat} {u : Unit} :
    Reads (warnOpen current) offset bytes u ↔ bytes = [] := by
  cases current with
  | none => simp [warnOpen, reads_pure]
  | some id => exact reads_warn

theorem readDebug_agrees (current : Option Nat) (start : Nat) :
    Agrees (readDebug current start) (word >>= fun longs => split (4 * longs.toNat) >>= fun place =>
      requireOpen current start .debug >>= fun _ => debug <$> inside place LineTable.read) := by
  refine Agrees.bind fun longs => ?_
  simp only [← map_eq_pure_bind]
  refine expectLongs_agrees fun offset bytes block h => ?_
  obtain ⟨place, left, right, rfl, hr, -⟩ := reads_bind.1 h
  rw [List.length_append, (reads_split.1 hr).2]
  exact Nat.le_add_right _ _

instance (current : Option Nat) (start : Nat) : Steady (readDebug current start) :=
  (readDebug_agrees current start).steady

theorem reads_readDebug {current : Option Nat} {start : Nat} {block : Block} :
    Reads (readDebug current start) offset bytes block ↔ current.isSome = true ∧
      ∃ payload table, Counted bytes payload ∧ Payload payload table ∧ block = debug table := by
  simp only [(readDebug_agrees current start).reads_iff, reads_bind, reads_word, reads_split,
    reads_requireOpen, reads_map, reads_inside, LineTable.fills_read]
  constructor
  · intro h
    obtain ⟨longs, _, _, rfl, rfl, place, b, _, rfl, ⟨rfl, hb⟩, _, _, _, rfl, ⟨ho, rfl⟩, table, rfl,
      rfl, hp⟩ := h
    exact ⟨ho, b, table, by simpa using Counted.mk longs hb, hp, rfl⟩
  · intro h
    obtain ⟨ho, payload, table, hc, hp, rfl⟩ := h
    cases hc with
    | mk longs hb =>
      exact ⟨longs, _, _, rfl, rfl, _, payload, [], (List.append_nil _).symm, ⟨rfl, hb⟩, (), [], [],
        rfl, ⟨ho, rfl⟩, table, rfl, rfl, hp⟩

end

section
variable {kind : FileKind} {current : Option Nat} {start offset : Nat} {tag : UInt32} {t : Tag}
  {bytes : List UInt8} {block : Block}

instance : Steady (readBody kind current start tag) := by
  unfold readBody
  cases Tag.ofNumber? (Word.low29 tag) with
  | none => infer_instance
  | some t => cases t <;> infer_instance

theorem readBody_segment (h : HunkKind) (ht : Tag.ofNumber? (Word.low29 tag) = some h.tag) :
    readBody kind current start tag = warnOpen current >>= fun _ => readSegment tag h := by
  unfold readBody
  rw [ht]
  cases h <;> rfl

theorem readBody_close
    (ht : Word.low29 tag = Tag.endHunk.number ∨ Word.low29 tag = Tag.endNode.number) :
    readBody kind current start tag = pure close := by
  unfold readBody
  cases ht with
  | inl ht => rw [ht, Tag.ofNumber?_number]
  | inr ht => rw [ht, Tag.ofNumber?_number]

theorem readBody_listsLongs (ht : Tag.ofNumber? (Word.low29 tag) = some t)
    (hl : t.listsLongs kind = true) :
    readBody kind current start tag = skipLongRelocations >>= fun _ => pure skipped := by
  unfold readBody
  rw [ht]
  cases t with
  | drel32 => simp only [if_pos (of_decide_eq_true hl)]
  | reloc32 | reloc16 | reloc8 | drel16 | drel8 | relReloc32 | absReloc16 => rfl
  | _ => cases hl

theorem readBody_listsHalfwords (ht : Tag.ofNumber? (Word.low29 tag) = some t)
    (hs : t.listsHalfwords kind = true) :
    readBody kind current start tag = skipShortRelocations >>= fun _ => pure skipped := by
  unfold readBody
  rw [ht]
  cases t with
  | drel32 =>
    have hk : kind ≠ .object := by
      rw [of_decide_eq_true hs]
      decide
    simp only [if_neg hk]
  | reloc32Short => rfl
  | _ => cases hs

theorem reads_readBody_segment (h : HunkKind) (ht : Word.low29 tag = h.tag.number) :
    Reads (readBody kind current start tag) offset bytes block ↔
      ∃ m size payload memory, bytes = m ++ (Word.bytes size ++ payload) ∧ Memory tag m memory ∧
        payload.length = (if h = .bss then 0 else 4 * Word.low30 size) ∧
        block = segment h memory (4 * Word.low30 size) payload := by
  simp only [readBody_segment h (Tag.ofNumber?_eq_some_iff.2 ht), reads_bind, reads_warnOpen]
  constructor
  · intro h
    obtain ⟨_, _, _, rfl, rfl, hr⟩ := h
    exact reads_readSegment.1 hr
  · intro hr
    exact ⟨(), [], bytes, rfl, rfl, reads_readSegment.2 hr⟩

/-- A block that is only stepped over. -/
theorem reads_skipping {d : Decoder Unit} [Steady d] :
    Reads (d >>= fun _ => pure skipped) offset bytes block ↔
      block = skipped ∧ Reads d offset bytes () := by
  rw [reads_bind_pure]
  constructor
  · intro h
    obtain ⟨_, h⟩ := h
    exact h
  · intro h
    exact ⟨(), h⟩

theorem body_of_reads (ho : 4 ∣ offset)
    (h : Reads (readBody kind current start tag) offset bytes block) :
    Body kind current.isSome tag bytes block := by
  cases ht : Tag.ofNumber? (Word.low29 tag) with
  | none =>
    have hu : ∀ t : Tag, Word.low29 tag ≠ t.number := by
      intro t hn
      rw [Tag.ofNumber?_eq_some_iff.2 hn] at ht
      cases ht
    simp only [readBody, ht, reads_skipping, reads_skipUnknown] at h
    obtain ⟨rfl, content, hc⟩ := h
    exact .unknown hu hc
  | some t =>
    have hn := Tag.ofNumber?_eq_some_iff.1 ht
    by_cases hl : t.listsLongs kind = true
    · rw [readBody_listsLongs ht hl, reads_skipping, reads_skipLongRelocations] at h
      obtain ⟨rfl, groups, hg⟩ := h
      exact .longRelocations t hn hl hg
    by_cases hs : t.listsHalfwords kind = true
    · rw [readBody_listsHalfwords ht hs, reads_skipping, reads_skipShortRelocations ho] at h
      obtain ⟨rfl, b, padding, groups, rfl, hg, hp⟩ := h
      exact .shortRelocations t hn hs hg hp
    have segment (k : HunkKind) (hk : Word.low29 tag = k.tag.number) :
        Body kind current.isSome tag bytes block := by
      obtain ⟨m, size, payload, memory, rfl, hm, hp, rfl⟩ := (reads_readBody_segment k hk).1 h
      exact .segment k hk size hm hp
    cases t with
    | code => exact segment .code hn
    | data => exact segment .data hn
    | bss => exact segment .bss hn
    | endHunk =>
      rw [readBody_close (.inl hn), reads_pure] at h
      obtain ⟨rfl, rfl⟩ := h
      exact .close (.inl hn)
    | endNode =>
      rw [readBody_close (.inr hn), reads_pure] at h
      obtain ⟨rfl, rfl⟩ := h
      exact .close (.inr hn)
    | symbol =>
      simp only [readBody, ht, reads_bind, reads_requireOpen, reads_pure, reads_symbols] at h
      obtain ⟨_, _, _, rfl, ⟨hc, rfl⟩, symbols, b, _, rfl, hb, rfl, rfl⟩ := h
      exact .symbols hn hc (by simpa using hb)
    | debug =>
      simp only [readBody, ht, reads_readDebug] at h
      obtain ⟨hc, payload, table, hb, hp, rfl⟩ := h
      exact .debug hn hc hb hp
    | ext =>
      simp only [readBody, ht, reads_skipping, reads_skipExternals] at h
      obtain ⟨rfl, entries, he⟩ := h
      exact .externals hn he
    | name =>
      simp only [readBody, ht, reads_bind, reads_text, reads_pure] at h
      obtain ⟨s, b, _, rfl, hb, rfl, rfl⟩ := h
      exact .name hn (by simpa using hb)
    | unit =>
      simp only [readBody, ht, reads_bind, reads_readUnit, reads_pure] at h
      obtain ⟨_, b, _, rfl, ⟨s, hb⟩, rfl, rfl⟩ := h
      exact .unit hn (by simpa using hb)
    | overlay =>
      simp only [readBody, ht, reads_skipping, reads_skipOverlay] at h
      obtain ⟨rfl, longs, b, rfl, hl, hb⟩ := h
      exact .overlay hn longs hl hb
    | lib =>
      simp only [readBody, ht, reads_skipping, reads_skip] at h
      obtain ⟨rfl, hb⟩ := h
      exact .lib hn hb
    | index =>
      simp only [readBody, ht, reads_skipping, reads_skipCounted] at h
      obtain ⟨rfl, content, hc⟩ := h
      exact .index hn hc
    | header =>
      simp only [readBody, ht] at h
      exact absurd h not_reads_failAt
    | drel32 => cases kind <;> exact absurd rfl (by assumption)
    | reloc32Short => exact absurd rfl hs
    | reloc32 | reloc16 | reloc8 | drel16 | drel8 | relReloc32 | absReloc16 => exact absurd rfl hl

theorem reads_of_body (ho : 4 ∣ offset) (h : Body kind current.isSome tag bytes block) :
    Reads (readBody kind current start tag) offset bytes block := by
  have known {t : Tag} (hn : Word.low29 tag = t.number) :
      Tag.ofNumber? (Word.low29 tag) = some t := Tag.ofNumber?_eq_some_iff.2 hn
  cases h with
  | segment k hk size hm hp =>
    exact (reads_readBody_segment k hk).2 ⟨_, size, _, _, rfl, hm, hp, rfl⟩
  | close ht =>
    rw [readBody_close ht]
    exact reads_pure.2 ⟨rfl, rfl⟩
  | symbols ht hc hb =>
    simp only [readBody, known ht, reads_bind, reads_requireOpen, reads_pure, reads_symbols]
    exact ⟨(), [], bytes, rfl, ⟨hc, rfl⟩, _, bytes, [], (List.append_nil _).symm, hb, rfl, rfl⟩
  | debug ht hc hb hp =>
    simp only [readBody, known ht, reads_readDebug]
    exact ⟨hc, _, _, hb, hp, rfl⟩
  | longRelocations t ht hl hg =>
    rw [readBody_listsLongs (known ht) hl, reads_skipping, reads_skipLongRelocations]
    exact ⟨rfl, _, hg⟩
  | shortRelocations t ht hs hg hp =>
    rw [readBody_listsHalfwords (known ht) hs, reads_skipping, reads_skipShortRelocations ho]
    exact ⟨rfl, _, _, _, rfl, hg, hp⟩
  | externals ht he =>
    simp only [readBody, known ht, reads_skipping, reads_skipExternals]
    exact ⟨trivial, _, he⟩
  | name ht hb =>
    simp only [readBody, known ht, reads_bind, reads_text, reads_pure]
    exact ⟨_, bytes, [], (List.append_nil _).symm, hb, rfl, rfl⟩
  | unit ht hb =>
    simp only [readBody, known ht, reads_bind, reads_readUnit, reads_pure]
    exact ⟨(), bytes, [], (List.append_nil _).symm, ⟨_, hb⟩, rfl, trivial⟩
  | overlay ht longs hl hb =>
    simp only [readBody, known ht, reads_skipping, reads_skipOverlay]
    exact ⟨trivial, longs, _, rfl, hl, hb⟩
  | lib ht hb =>
    simp only [readBody, known ht, reads_skipping, reads_skip]
    exact ⟨trivial, hb⟩
  | index ht hc =>
    simp only [readBody, known ht, reads_skipping, reads_skipCounted]
    exact ⟨trivial, _, hc⟩
  | unknown ht hc =>
    have hu : Tag.ofNumber? (Word.low29 tag) = none := by
      cases hn : Tag.ofNumber? (Word.low29 tag) with
      | none => rfl
      | some t => exact absurd (Tag.ofNumber?_eq_some_iff.1 hn) (ht t)
    simp only [readBody, hu, reads_skipping, reads_skipUnknown]
    exact ⟨trivial, _, hc⟩

instance : Steady (read kind current) :=
  inferInstanceAs (Steady (Decoder.offset >>= fun start => word >>= readBody kind current start))

/-- At a longword the decoder takes exactly the blocks of the grammar. -/
theorem reads_read (ho : 4 ∣ offset) :
    Reads (read kind current) offset bytes block ↔
      Grammar.Block kind current.isSome bytes block := by
  change Reads (Decoder.offset >>= fun start => word >>= readBody kind current start) offset bytes
    block ↔ _
  simp only [reads_bind, reads_offset, reads_word]
  have hb : 4 ∣ offset + 4 := Nat.dvd_add ho (Nat.dvd_refl 4)
  constructor
  · intro h
    obtain ⟨_, _, _, rfl, ⟨rfl, rfl⟩, tag, _, b, rfl, rfl, h⟩ := h
    exact .mk tag (body_of_reads (by simpa using hb) h)
  · intro h
    cases h with
    | @mk tag b _ h =>
      exact ⟨offset, [], _, rfl, ⟨rfl, rfl⟩, tag, _, b, rfl, rfl,
        reads_of_body (by simpa using hb) h⟩

end

end Block
end AmigaHunk
