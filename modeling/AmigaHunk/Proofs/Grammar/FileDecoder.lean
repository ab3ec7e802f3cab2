import AmigaHunk.Proofs.Grammar.File

/-! A file decodes exactly if it is of the grammar. What comes behind a file of the grammar is
decoded from what its blocks leave. -/
namespace AmigaHunk
open Decoder Grammar

namespace Opening
variable {offset : Nat} {bytes : List UInt8}

instance : Steady skipResident := by
  unfold skipResident
  infer_instance

theorem reads_skipResident (offset : Nat) (bytes : List UInt8) (r : Option Unit) :
    Reads skipResident offset bytes r ↔ Resident bytes r := by
  simp only [skipResident, reads_bind, reads_word, reads_ite, reads_pure, reads_skipLongs]
  constructor
  · intro h
    obtain ⟨w, _, _, rfl, rfl, ⟨h, rfl, rfl⟩ | ⟨h, _, b, _, rfl, hb, rfl, rfl⟩⟩ := h
    · rw [List.append_nil, Word.toNat_eq_zero.1 h]
      exact .last
    · rw [List.append_nil]
      exact .name w (fun h0 => h (Word.toNat_eq_zero.2 h0)) hb
  · intro h
    cases h with
    | last => exact ⟨0, _, [], (List.append_nil _).symm, rfl, .inl ⟨rfl, rfl, rfl⟩⟩
    | @name w b h0 hb =>
      exact ⟨w, _, _, rfl, rfl, .inr ⟨fun h => h0 (Word.toNat_eq_zero.1 h), (), b, [],
        (List.append_nil _).symm, hb, rfl, rfl⟩⟩

theorem progresses_skipResident : Progresses skipResident :=
  progresses_of_reads fun _ _ _ h => ((reads_skipResident _ _ _).1 h).ne_nil

instance : Steady (many skipResident) := steady_many progresses_skipResident

instance : Steady readEntry := by
  unfold readEntry
  infer_instance

theorem reads_readEntry {e : HeaderEntry} :
    Reads readEntry offset bytes e ↔ SizeEntry bytes e := by
  simp only [readEntry, reads_bind, reads_word, reads_pure, MemoryKind.reads_read]
  constructor
  · intro h
    obtain ⟨w, _, _, rfl, rfl, memory, m, _, rfl, hm, rfl, rfl⟩ := h
    rw [List.append_nil]
    exact .mk w hm
  · intro h
    cases h with
    | @mk w m memory hm =>
      exact ⟨w, _, m, rfl, rfl, memory, m, [], (List.append_nil _).symm, hm, rfl, rfl⟩

/-- The check of the number of hunks rejects no header, since an entry is a longword or more. -/
theorem readHeader_agrees : Agrees readHeader (many skipResident >>= fun _ => skip 4 >>= fun _ =>
    word >>= fun first => word >>= fun last =>
      if last.toNat < first.toNat then fail (.hunkRange first.toNat last.toNat)
      else times (last.toNat - first.toNat + 1) readEntry) := by
  refine Agrees.bind fun _ => Agrees.bind fun _ => Agrees.bind fun first =>
    Agrees.bind fun last => ?_
  by_cases hl : last.toNat < first.toNat
  · simp only [if_pos hl, fail_bind]
    exact Agrees.refl _
  · simp only [if_neg hl]
    refine agrees_of_room (fun _ => .headerTooShort (last.toNat - first.toNat + 1)) (by decide) ?_
    intro offset bytes entries h
    obtain ⟨hn, he⟩ := (reads_times fun _ _ _ => reads_readEntry).1 h
    have := he.length_le fun _ _ _ _ => SizeEntry.four_le
    omega

instance : Steady readHeader := readHeader_agrees.steady

theorem reads_readHeader {declared : List HeaderEntry} :
    Reads readHeader offset bytes declared ↔ ∃ names residents tableSize first last b,
      bytes = names ++ (tableSize ++ (Word.bytes first ++ (Word.bytes last ++ b))) ∧
      Many Resident names residents ∧ tableSize.length = 4 ∧ first.toNat ≤ last.toNat ∧
      declared.length = last.toNat - first.toNat + 1 ∧
      Chain (fun _ b e _ => SizeEntry b e) () b declared () := by
  simp only [readHeader_agrees.reads_iff, reads_bind, reads_word, reads_skip, reads_ite,
    not_reads_fail, and_false, false_or, reads_times fun _ _ _ => reads_readEntry,
    reads_many reads_skipResident progresses_skipResident]
  constructor
  · intro h
    obtain ⟨residents, names, _, rfl, hr, _, tableSize, _, rfl, hs, first, _, _, rfl, rfl, last, _,
      b, rfl, rfl, hl, hn, he⟩ := h
    exact ⟨names, residents, tableSize, first, last, b, rfl, hr, hs, Nat.not_lt.1 hl, hn, he⟩
  · intro h
    obtain ⟨names, residents, tableSize, first, last, b, rfl, hr, hs, hl, hn, he⟩ := h
    exact ⟨residents, names, _, rfl, hr, (), tableSize, _, rfl, hs, first, _, _, rfl, rfl, last, _,
      b, rfl, rfl, Nat.not_lt.2 hl, hn, he⟩

/-- The answer to a first block that is neither a header nor a unit. -/
def refuse (start tag : Nat) : Decoder Opening := fun c =>
  ⟨.error (.unknownBlock start (UInt32.ofNat tag)), c, []⟩

instance (start tag : Nat) : Steady (refuse start tag) where
  reads h := by cases h

theorem not_reads_refuse {start tag : Nat} {opening : Opening} :
    ¬Reads (refuse start tag) offset bytes opening := by
  intro h
  obtain ⟨ws, h⟩ := h.apply []
  cases h

theorem read_eq : Opening.read = (Decoder.offset >>= fun start => word >>= fun w =>
    if Word.low30 w = Tag.header.number then Opening.mk .load <$> readHeader
    else if Word.low30 w = Tag.unit.number then
      Block.readUnit >>= fun _ => pure ⟨.object, []⟩
    else refuse start (Word.low30 w)) := by
  rw [Opening.read]
  simp only [map_eq_pure_bind]
  rfl

instance : Steady Opening.read := by
  rw [read_eq]
  infer_instance

theorem reads_read {opening : Opening} :
    Reads Opening.read offset bytes opening ↔ Grammar.Opening bytes opening := by
  simp only [read_eq, reads_bind, reads_offset, reads_word, reads_ite, reads_map, reads_readHeader,
    Block.reads_readUnit, reads_pure, not_reads_refuse, and_false, or_false]
  constructor
  · intro h
    obtain ⟨_, _, _, rfl, ⟨rfl, rfl⟩, tag, _, _, rfl, rfl, ⟨ht, declared, rfl, names, residents,
      tableSize, first, last, b, rfl, hr, hs, hl, hn, he⟩ |
      ⟨-, ht, _, b, _, rfl, ⟨s, h⟩, rfl, rfl⟩⟩ := h
    · exact .header tag ht first last hl hr hs hn he
    · rw [List.append_nil]
      exact .unit tag ht h
  · intro h
    cases h with
    | @header tag ht first last hl names tableSize b residents declared hr hs hn he =>
      exact ⟨offset, [], _, rfl, ⟨rfl, rfl⟩, tag, _, _, rfl, rfl, .inl ⟨ht, declared, rfl, names,
        residents, tableSize, first, last, b, rfl, hr, hs, hl, hn, he⟩⟩
    | @unit tag ht b s h =>
      refine ⟨offset, [], _, rfl, ⟨rfl, rfl⟩, tag, _, _, rfl, rfl, .inr ⟨?_, ht, (), b, [],
        (List.append_nil _).symm, ⟨s, h⟩, rfl, rfl⟩⟩
      rw [ht]
      decide

end Opening

namespace Outcome
variable {α β γ : Type}

theorem map_map (f : α → β) (g : β → γ) (o : Outcome α) : (o.map f).map g = o.map (g ∘ f) := by
  cases o with
  | mk result c ws => cases result <;> rfl

theorem map_after (f : α → β) (o : Outcome α) (ws : List Warning) :
    (o.after ws).map f = (o.map f).after ws := rfl

theorem after_after (o : Outcome α) (ws ws' : List Warning) :
    (o.after ws).after ws' = o.after (ws' ++ ws) := by
  simp [after]

end Outcome

theorem Progress.isSome_after (p : Progress) (block : Block) :
    (p.after block).current.isSome = block.leavesOpen p.current.isSome := by
  cases block <;> rfl

theorem Progress.isSome_foldl_after {kind : FileKind} {p : Progress} {bytes : List UInt8}
    {blocks : List Block} {before isOpen : Bool} (hp : p.current.isSome = before)
    (h : Grammar.Blocks kind before bytes blocks isOpen) :
    (blocks.foldl after p).current.isSome = isOpen := by
  induction h generalizing p with
  | nil _ => exact hp
  | @cons before after _ _ _ block _ hb _ ih =>
    obtain ⟨-, rfl⟩ := hb
    rw [List.foldl_cons]
    apply ih
    rw [p.isSome_after, hp]

namespace File
variable {opening : Opening} {p : Progress} {offset : Nat} {bytes : List UInt8}

/-- The blocks from a place on, where some have been read before. -/
def blocksFrom (opening : Opening) (p : Progress) : Decoder (List Block) := fun c =>
  collect (readNext opening) (c.rest.length + 1) p c

theorem readBlocks_eq (opening : Opening) : readBlocks opening = blocksFrom opening .start := by
  funext c
  change (blocksFrom opening .start c).after [] = _
  simp [Outcome.after]

theorem readNext_nil (opening : Opening) (p : Progress) (offset : Nat) :
    readNext opening p ⟨offset, []⟩ = ⟨.ok none, ⟨offset, []⟩, []⟩ := rfl

theorem readNext_of_ne_nil {c : Cursor} (hc : c.rest ≠ []) :
    readNext opening p c = (Block.read opening.kind p.current >>= fun block =>
      pure (some (block, p.after block))) c := by
  have he : atEnd c = ⟨.ok false, c, []⟩ := by
    simp [atEnd, List.isEmpty_eq_false_iff.2 hc]
  rw [readNext, bind_of_ok he]
  simp [Outcome.after]

theorem four_le_of_reads_block {kind : FileKind} {current : Option Nat} {block : Block}
    (h : Reads (Block.read kind current) offset bytes block) : 4 ≤ bytes.length := by
  replace h : Reads (Decoder.offset >>= fun start => word >>= Block.readBody kind current start)
    offset bytes block := h
  simp only [reads_bind, reads_offset, reads_word] at h
  obtain ⟨_, _, _, rfl, ⟨rfl, -⟩, tag, _, b, rfl, rfl, -⟩ := h
  simp

/-- What one turn of the loop answers is the next block, and the loop goes on behind it. -/
theorem readNext_eq_some {c c' : Cursor} {block : Block} {p' : Progress} {ws : List Warning}
    (h : readNext opening p c = ⟨.ok (some (block, p')), c', ws⟩) :
    p' = p.after block ∧ ∃ b, c.rest = b ++ c'.rest ∧ c'.offset = c.offset + b.length ∧
      Reads (Block.read opening.kind p.current) c.offset b block := by
  obtain ⟨offset, bytes⟩ := c
  by_cases hc : bytes = []
  · subst hc
    rw [readNext_nil] at h
    cases h
  · rw [readNext_of_ne_nil (c := ⟨offset, bytes⟩) hc] at h
    obtain ⟨block', c₁, ws₁, ws₂, hb, hp, -⟩ := bind_eq_ok.1 h
    cases hp
    obtain ⟨b, rest, rfl, rfl, hread⟩ := Steady.split hb
    exact ⟨rfl, b, rfl, rfl, hread⟩

theorem progresses_readNext (opening : Opening) (p : Progress) :
    Progresses (readNext opening p) := by
  intro c r c' ws h
  obtain ⟨-, b, hrest, -, hb⟩ := readNext_eq_some h
  have hpos := four_le_of_reads_block hb
  rw [hrest, List.length_append]
  omega

theorem blocksFrom_nil (opening : Opening) (p : Progress) (offset : Nat) :
    blocksFrom opening p ⟨offset, []⟩ = ⟨.ok [], ⟨offset, []⟩, []⟩ := rfl

/-- One turn of the loop. -/
theorem blocksFrom_of_ne_nil {c : Cursor} (hc : c.rest ≠ []) :
    blocksFrom opening p c = (Block.read opening.kind p.current >>= fun block =>
      (block :: ·) <$> blocksFrom opening (p.after block)) c := by
  have hn : readNext opening p c = _ := readNext_of_ne_nil hc
  rw [blocksFrom, collect_succ, bind_apply, bind_apply]
  rw [bind_apply] at hn
  cases hb : Block.read opening.kind p.current c with
  | mk result c₁ ws =>
    rw [hb] at hn
    cases result with
    | error e => rw [hn]
    | ok block =>
      replace hn : readNext opening p c = ⟨.ok (some (block, p.after block)), c₁, ws⟩ := by
        simp only [hn, pure_apply, Outcome.after, List.append_nil]
      have hlt := progresses_readNext opening p c _ _ _ hn
      simp only [hn, map_apply, blocksFrom]
      rw [collect_congr_limit (progresses_readNext opening) hlt (Nat.lt_succ_self _)]

/-- A block that comes next is the first of those from its start on. -/
theorem blocksFrom_of_reads {block : Block}
    (h : Reads (Block.read opening.kind p.current) offset bytes block) :
    ∃ ws, ∀ rest, blocksFrom opening p ⟨offset, bytes ++ rest⟩ =
      ((blocksFrom opening (p.after block) ⟨offset + bytes.length, rest⟩).map (block :: ·)).after
        ws := by
  have hpos := four_le_of_reads_block h
  obtain ⟨ws, h⟩ := h
  refine ⟨ws, fun rest => ?_⟩
  have hne : bytes ++ rest ≠ [] := by
    intro hn
    rw [(List.append_eq_nil_iff.1 hn).1] at hpos
    exact absurd hpos (by decide)
  rw [blocksFrom_of_ne_nil (c := ⟨offset, bytes ++ rest⟩) hne, bind_of_ok (h rest),
    map_apply]

/-- The blocks of the grammar are read as they are, and those behind them from what they leave. -/
theorem blocksFrom_append {blocks : List Block} {isOpen : Bool} (ho : 4 ∣ offset)
    (h : Blocks opening.kind p.current.isSome bytes blocks isOpen) :
    ∃ ws, ∀ rest, blocksFrom opening p ⟨offset, bytes ++ rest⟩ =
      ((blocksFrom opening (blocks.foldl Progress.after p) ⟨offset + bytes.length, rest⟩).map
        (blocks ++ ·)).after ws := by
  generalize hs : p.current.isSome = before at h
  induction h generalizing p offset with
  | nil _ =>
    refine ⟨[], fun rest => ?_⟩
    simp only [List.nil_append, List.length_nil, List.foldl_nil, Nat.add_zero]
    cases blocksFrom opening p ⟨offset, rest⟩ with
    | mk result c ws => cases result <;> rfl
  | @cons _ after _ b bs block blocks hb _ ih =>
    obtain ⟨hb, rfl⟩ := hb
    subst hs
    obtain ⟨ws, hfirst⟩ := blocksFrom_of_reads ((Block.reads_read ho).2 hb)
    obtain ⟨ws', hmore⟩ := ih (Nat.dvd_add ho hb.dvd_length) (p.isSome_after block)
    refine ⟨ws ++ ws', fun rest => ?_⟩
    rw [List.append_assoc, hfirst, hmore, Outcome.map_after, Outcome.map_map,
      Outcome.after_after, List.length_append, Nat.add_assoc, List.foldl_cons]
    rfl

/-- A run of the loop that ends well, by its first turn. -/
theorem blocksFrom_eq_ok {blocks : List Block} {c c' : Cursor} {ws : List Warning}
    (h : blocksFrom opening p c = ⟨.ok blocks, c', ws⟩) :
    c.rest = [] ∧ blocks = [] ∧ ws = [] ∨ ∃ block more c₁ ws₁ ws₂, blocks = block :: more ∧
      ws = ws₁ ++ ws₂ ∧ Block.read opening.kind p.current c = ⟨.ok block, c₁, ws₁⟩ ∧
      blocksFrom opening (p.after block) c₁ = ⟨.ok more, c', ws₂⟩ := by
  by_cases hc : c.rest = []
  · obtain ⟨offset, rest⟩ := c
    subst hc
    cases h
    exact .inl ⟨rfl, rfl, rfl⟩
  · rw [blocksFrom_of_ne_nil hc] at h
    obtain ⟨block, c₁, ws₁, ws', hread, h₁, rfl⟩ := bind_eq_ok.1 h
    rw [map_eq_pure_bind] at h₁
    obtain ⟨more, c₂, ws₂, ws₃, hmore, hcons, rfl⟩ := bind_eq_ok.1 h₁
    cases hcons
    refine .inr ⟨block, more, c₁, ws₁, ws₂, rfl, ?_, hread, hmore⟩
    rw [List.append_nil]

theorem blocks_of_blocksFrom {blocks : List Block} {c c' : Cursor} {ws : List Warning}
    (ho : 4 ∣ c.offset) (h : blocksFrom opening p c = ⟨.ok blocks, c', ws⟩) :
    ∃ isOpen, Blocks opening.kind p.current.isSome c.rest blocks isOpen := by
  induction blocks generalizing p c ws with
  | nil =>
    obtain ⟨hrest, -, -⟩ | ⟨_, _, _, _, _, hcons, -⟩ := blocksFrom_eq_ok h
    · rw [hrest]
      exact ⟨_, .nil _⟩
    · cases hcons
  | cons block more ih =>
    obtain ⟨-, hnil, -⟩ | ⟨_, _, c₁, ws₁, ws₂, hcons, -, hread, hmore⟩ := blocksFrom_eq_ok h
    · cases hnil
    · cases hcons
      obtain ⟨b, rest, hrest, rfl, hreads⟩ := Steady.split hread
      have hblock := (Block.reads_read ho).1 hreads
      obtain ⟨isOpen, hmore⟩ := ih (Nat.dvd_add ho hblock.dvd_length) hmore
      rw [p.isSome_after block] at hmore
      rw [hrest]
      exact ⟨isOpen, .cons ⟨hblock, rfl⟩ hmore⟩

theorem forM_warn (ws : List Warning) (c : Cursor) :
    (ws.forM warn : Decoder Unit) c = ⟨.ok (), c, ws⟩ := by
  induction ws with
  | nil => rfl
  | cons w ws ih =>
    have hw : warn w c = ⟨.ok (), c, [w]⟩ := rfl
    change (warn w >>= fun _ => ws.forM warn) c = _
    rw [bind_of_ok hw, ih]
    rfl

/-- What a file decodes to, from what its opening and the loop over its blocks answer. -/
theorem result_of_opening {ws : List Warning} {c : Cursor}
    (h : Opening.read (.start bytes) = ⟨.ok opening, c, ws⟩) :
    (decode bytes).result = (blocksFrom opening .start c).result.map (hunks opening) := by
  rw [decode, read, bind_of_ok h, readBlocks_eq]
  cases hb : blocksFrom opening .start c with
  | mk result c' ws' =>
    cases result with
    | error e =>
      rw [bind_of_error hb]
      rfl
    | ok blocks =>
      have hw := forM_warn (warnings opening (blocks.foldl Progress.after .start)) c'
      rw [bind_of_ok hb, bind_of_ok hw]
      rfl

/-- Behind a file of the grammar the decoder goes on with what its blocks leave. -/
theorem result_append {blocks : List Block} {isOpen : Bool}
    (h : Grammar.File opening blocks isOpen bytes) (rest : List UInt8) :
    (decode (bytes ++ rest)).result =
      (blocksFrom opening (blocks.foldl Progress.after .start) ⟨bytes.length, rest⟩).result.map
        fun more => hunks opening (blocks ++ more) := by
  cases h with
  | @mk b bs ho hb =>
    have hopening : Reads Opening.read 0 b opening := Opening.reads_read.2 ho
    obtain ⟨ws, hopen⟩ := hopening.apply (bs ++ rest)
    rw [← List.append_assoc] at hopen
    rw [result_of_opening hopen, Nat.zero_add]
    obtain ⟨ws', hblocks⟩ := blocksFrom_append (p := .start) ho.dvd_length hb
    rw [hblocks, List.length_append]
    cases blocksFrom opening (blocks.foldl Progress.after .start) ⟨b.length + bs.length, rest⟩ with
    | mk result c ws'' => cases result <;> rfl

/-- A file of the grammar is read as its opening and its blocks. -/
theorem readBlocks_of_file {blocks : List Block} {isOpen : Bool}
    (h : Grammar.File opening blocks isOpen bytes) :
    ∃ c ws c' ws', Opening.read (.start bytes) = ⟨.ok opening, c, ws⟩ ∧
      readBlocks opening c = ⟨.ok blocks, c', ws'⟩ := by
  cases h with
  | @mk b bs ho hb =>
    have hopening : Reads Opening.read 0 b opening := Opening.reads_read.2 ho
    obtain ⟨ws, hopen⟩ := hopening.apply bs
    obtain ⟨ws', hblocks⟩ := blocksFrom_append (p := .start) ho.dvd_length hb
    have hread := hblocks []
    rw [List.append_nil, blocksFrom_nil, ← readBlocks_eq] at hread
    rw [Nat.zero_add] at hopen
    simp only [Outcome.after, Outcome.map, Except.map, List.append_nil] at hread
    exact ⟨_, ws, _, _, hopen, hread⟩

theorem decode_of_file {blocks : List Block} {isOpen : Bool}
    (h : Grammar.File opening blocks isOpen bytes) :
    (decode bytes).result = .ok (hunks opening blocks) := by
  have hr := result_append h []
  rw [List.append_nil, blocksFrom_nil] at hr
  rw [hr, Except.map, List.append_nil]

theorem file_of_decode {hs : List Hunk} (h : (decode bytes).result = .ok hs) :
    ∃ opening blocks isOpen, Grammar.File opening blocks isOpen bytes ∧
      hs = hunks opening blocks := by
  cases ho : Opening.read (.start bytes) with
  | mk result c ws =>
    cases result with
    | error e =>
      rw [decode, read, bind_of_error ho] at h
      cases h
    | ok opening =>
      rw [result_of_opening ho] at h
      obtain ⟨b, bs, rfl, rfl, hread⟩ := Steady.split ho
      have hopening := Opening.reads_read.1 hread
      cases hb : blocksFrom opening .start ⟨0 + b.length, bs⟩ with
      | mk result c ws' =>
        rw [hb] at h
        cases result with
        | error e => cases h
        | ok blocks =>
          have hdvd : 4 ∣ 0 + b.length := Nat.dvd_add (Nat.dvd_zero 4) hopening.dvd_length
          obtain ⟨isOpen, hblocks⟩ := blocks_of_blocksFrom hdvd hb
          cases h
          exact ⟨opening, blocks, isOpen, .mk hopening hblocks, rfl⟩

/-- The decoder accepts exactly the files of the grammar. -/
theorem accepts_iff_file (bytes : List UInt8) :
    (∃ hs, (decode bytes).result = .ok hs) ↔
      ∃ opening blocks isOpen, Grammar.File opening blocks isOpen bytes := by
  constructor
  · intro h
    obtain ⟨hs, h⟩ := h
    obtain ⟨opening, blocks, isOpen, hfile, -⟩ := file_of_decode h
    exact ⟨opening, blocks, isOpen, hfile⟩
  · intro h
    obtain ⟨opening, blocks, isOpen, hfile⟩ := h
    exact ⟨hunks opening blocks, decode_of_file hfile⟩

end File
end AmigaHunk
