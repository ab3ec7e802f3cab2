import AmigaHunk.Proofs.Binary.Warns
import AmigaHunk.Proofs.Grammar.Concatenation
import AmigaHunk.Proofs.Grammar.Tags

/-! Hunks that no block closes. A warning names them where the next segment comes, or at the end of
the file, but not where a unit comes. -/
namespace AmigaHunk
open Decoder

/-- The hunk that a warning says was left open. -/
def Warning.unclosed? : Warning → Option Nat
  | notClosed segment | endsOpen segment => some segment
  | _ => none

/-- The hunks that warnings say were left open. -/
def Warning.unclosed (ws : List Warning) : List Nat := ws.filterMap unclosed?

/-- The hunks of a file that warnings say were left open. -/
def File.unclosed (bytes : List UInt8) : List Nat := Warning.unclosed (decode bytes).warnings

/-- Whether a warning says nothing of hunks left open. -/
def Warning.IsQuiet (w : Warning) : Prop := w.unclosed? = none

theorem Warning.unclosed_append (ws ws' : List Warning) :
    unclosed (ws ++ ws') = unclosed ws ++ unclosed ws' :=
  List.filterMap_append

theorem unclosed_of_warns {α : Type} {d : Decoder α} [Warns Warning.IsQuiet d] {c c' : Cursor} {a : α}
    {ws : List Warning} (h : d c = ⟨.ok a, c', ws⟩) : Warning.unclosed ws = [] :=
  List.filterMap_eq_nil_iff.2 (Warns.of_ok (p := Warning.IsQuiet) h)

namespace LineTable

instance (a b : UInt32) (fault : Fault) : Warns Warning.IsQuiet (sum a b fault) := by
  unfold sum
  cases Word.add? a b <;> infer_instance

instance (base : UInt32) : Warns Warning.IsQuiet (readPairs base) := by
  have hwarn (extra o : Nat) : Warns Warning.IsQuiet (warn (.trailingBytes extra o)) := .warn rfl
  unfold readPairs readPair
  infer_instance

instance : Warns Warning.IsQuiet readDelta := by
  unfold readDelta
  infer_instance

instance (base : UInt32) (last : LineEntry) : Warns Warning.IsQuiet (readStep base last) := by
  unfold readStep
  infer_instance

instance (base : UInt32) : Warns Warning.IsQuiet (readDeltas base) := by
  unfold readDeltas
  infer_instance

instance (layout : Layout) (base : UInt32) : Warns Warning.IsQuiet (layout.read base) := by
  cases layout
  · exact inferInstanceAs (Warns _ (readPairs base))
  · exact inferInstanceAs (Warns _ (readDeltas base))

instance : Warns Warning.IsQuiet LineTable.read := by
  have htable (base : UInt32) (layout? : Option Layout) :
      Warns Warning.IsQuiet (match layout? with
        | none => (pure none : Decoder (Option LineTable))
        | some layout => do
          let name ← text
          return some (ofEntries name (← layout.read base))) := by
    cases layout? <;> infer_instance
  unfold LineTable.read
  infer_instance

end LineTable

instance (w : UInt32) : Warns Warning.IsQuiet (MemoryKind.read w) := by
  rw [MemoryKind.read_eq]
  infer_instance

namespace Block
variable {kind : FileKind} {current : Option Nat} {start : Nat} {tag : UInt32}

instance (k : HunkKind) : Warns Warning.IsQuiet (readSegment tag k) := by
  unfold readSegment
  infer_instance

instance : Warns Warning.IsQuiet readSymbol := by
  unfold readSymbol
  infer_instance

instance : Warns Warning.IsQuiet skipLongRelocations := by
  unfold skipLongRelocations skipLongGroup
  infer_instance

instance : Warns Warning.IsQuiet skipShortRelocations := by
  unfold skipShortRelocations skipShortGroup
  infer_instance

instance : Warns Warning.IsQuiet skipExternals := by
  unfold skipExternals skipExternal
  infer_instance

instance : Warns Warning.IsQuiet skipCounted := by
  unfold skipCounted
  infer_instance

instance : Warns Warning.IsQuiet (skipOverlay start) := by
  unfold skipOverlay
  infer_instance

instance : Warns Warning.IsQuiet readUnit := by
  unfold readUnit
  infer_instance

instance : Warns Warning.IsQuiet (skipUnknown start tag) := by
  have hwarn (longs : Nat) :
      Warns Warning.IsQuiet (warn (.unknownBlock start (Word.low29 tag) longs)) := .warn rfl
  unfold skipUnknown
  infer_instance

instance (t : Tag) : Warns Warning.IsQuiet (requireOpen current start t) := by
  unfold requireOpen
  infer_instance

instance : Warns Warning.IsQuiet (readDebug current start) := by
  unfold readDebug
  infer_instance

/-- Only a segment block says that a hunk was left open. -/
theorem warns_readBody (h : ∀ k : HunkKind, Word.low29 tag ≠ k.tag.number) :
    Warns Warning.IsQuiet (readBody kind current start tag) := by
  unfold readBody
  cases ht : Tag.ofNumber? (Word.low29 tag) with
  | none => infer_instance
  | some t =>
    have hn := Tag.ofNumber?_eq_some_iff.1 ht
    cases t with
    | code => exact absurd hn (h .code)
    | data => exact absurd hn (h .data)
    | bss => exact absurd hn (h .bss)
    | _ => infer_instance

theorem warnOpen_apply (current : Option Nat) (c : Cursor) :
    warnOpen current c = ⟨.ok (), c, current.toList.map .notClosed⟩ := by
  cases current <;> rfl

theorem unclosed_readBody {c c' : Cursor} {block : Block} {ws : List Warning} (ho : 4 ∣ c.offset)
    (h : readBody kind current start tag c = ⟨.ok block, c', ws⟩) :
    Warning.unclosed ws = if block.isSegment then current.toList else [] := by
  obtain ⟨b, rest, -, -, hread⟩ := Steady.split h
  have hbody := body_of_reads ho hread
  by_cases hk : ∃ k : HunkKind, Word.low29 tag = k.tag.number
  · obtain ⟨k, ht⟩ := hk
    rw [readBody_segment k (Tag.ofNumber?_eq_some_iff.2 ht)] at h
    obtain ⟨u, c₁, ws₁, ws₂, hwarn, hsegment, rfl⟩ := bind_eq_ok.1 h
    rw [warnOpen_apply] at hwarn
    cases hwarn
    rw [if_pos (hbody.isSegment_iff.2 ⟨k, ht⟩), Warning.unclosed_append, unclosed_of_warns hsegment,
      List.append_nil]
    cases current <;> rfl
  · have hquiet : Warns Warning.IsQuiet (readBody kind current start tag) :=
      warns_readBody fun k ht => hk ⟨k, ht⟩
    rw [if_neg (hk ∘ hbody.isSegment_iff.1), unclosed_of_warns h]

/-- A segment block says that the hunk before it was left open, and no other block says so. -/
theorem unclosed_read {c c' : Cursor} {block : Block} {ws : List Warning} (ho : 4 ∣ c.offset)
    (h : Block.read kind current c = ⟨.ok block, c', ws⟩) :
    Warning.unclosed ws = if block.isSegment then current.toList else [] := by
  obtain ⟨start, c₁, ws₁, ws₂, hoffset, htail, rfl⟩ := bind_eq_ok.1 h
  obtain ⟨tag, c₂, ws₃, ws₄, htag, hbody, rfl⟩ := bind_eq_ok.1 htail
  rw [Warning.unclosed_append, Warning.unclosed_append, unclosed_of_warns hoffset,
    unclosed_of_warns htag, List.nil_append, List.nil_append]
  cases hoffset
  obtain ⟨b, rest, -, rfl, hword⟩ := Steady.split htag
  rw [reads_word.1 hword] at hbody
  exact unclosed_readBody (Nat.dvd_add ho (by simp)) hbody

end Block

namespace Opening

instance : Warns Warning.IsQuiet skipResident := by
  unfold skipResident
  infer_instance

instance : Warns Warning.IsQuiet readEntry := by
  unfold readEntry
  infer_instance

instance : Warns Warning.IsQuiet readHeader := by
  have htable (count : Nat) : Warns Warning.IsQuiet (do
      if (← remaining) / 4 < count then fail (.headerTooShort count)
      times count readEntry) := by
    dsimp only
    infer_instance
  unfold readHeader
  dsimp only
  infer_instance

instance (start tag : Nat) : Warns Warning.IsQuiet (refuse start tag) := .of_silent fun _ => rfl

instance : Warns Warning.IsQuiet Opening.read := by
  rw [read_eq]
  infer_instance

end Opening

namespace Progress
variable {p : Progress} {id : Nat} {blocks : List Block} {segment : Block}

/-- The hunks left open by the blocks up to the end of the file, as far as they are told of. -/
def unclosed (p : Progress) : List Block → List Nat
  | [] => p.current.toList
  | block :: blocks =>
    (if block.isSegment then p.current.toList else []) ++ (p.after block).unclosed blocks

theorem mem_unclosed (h : id ∈ p.unclosed blocks) : p.current = some id ∨ p.opened ≤ id := by
  induction blocks generalizing p with
  | nil => exact .inl (Option.mem_toList.1 h)
  | cons block blocks ih =>
    obtain hid | hid := List.mem_append.1 h
    · split at hid
      · exact .inl (Option.mem_toList.1 hid)
      · cases hid
    · cases block with
      | segment kind memory size payload =>
        obtain hcurrent | hopened := ih hid
        · exact .inr (Option.some.inj hcurrent).le
        · exact .inr (Nat.le_of_succ_le hopened)
      | close | unit =>
        obtain hcurrent | hopened := ih hid
        · cases hcurrent
        · exact .inr hopened
      | _ => exact ih (p := p.after _) hid

/-- A hunk that is not open any more is not told of. -/
theorem count_unclosed_eq_zero (hopened : id < p.opened) (hcurrent : p.current ≠ some id)
    (blocks : List Block) : (p.unclosed blocks).count id = 0 := by
  rw [List.count_eq_zero]
  intro hid
  obtain hopen | hlater := mem_unclosed hid
  · exact hcurrent hopen
  · omega

/-- An open hunk is told of once, unless what ends it is a block that closes it or a unit. -/
theorem count_unclosed_current (hopened : id < p.opened) (hcurrent : p.current = some id)
    (blocks : List Block) : (p.unclosed blocks).count id =
      if (blocks.find? Block.endsSection).all Block.isSegment then 1 else 0 := by
  induction blocks generalizing p with
  | nil => simp [unclosed, hcurrent]
  | cons block blocks ih =>
    rw [unclosed, List.count_append]
    cases block with
    | segment kind memory size payload =>
      have hother : some p.opened ≠ some id := by simpa using hopened.ne'
      change p.current.toList.count id + (unclosed ⟨p.opened + 1, _, _⟩ blocks).count id = 1
      rw [hcurrent, Option.toList_some, List.count_singleton_self,
        count_unclosed_eq_zero (Nat.lt_succ_of_lt hopened) hother]
    | close =>
      exact (Nat.zero_add _).trans
        (count_unclosed_eq_zero (p := p.after .close) hopened nofun blocks)
    | unit =>
      exact (Nat.zero_add _).trans
        (count_unclosed_eq_zero (p := p.after .unit) hopened nofun blocks)
    | _ => exact (Nat.zero_add _).trans (ih (p := p.after _) hopened hcurrent)

/-- The number of the next hunk is free. -/
def Numbered (p : Progress) : Prop := ∀ id, p.current = some id → id < p.opened

theorem numbered_start : start.Numbered := nofun

theorem Numbered.after (h : p.Numbered) (block : Block) : (p.after block).Numbered := by
  cases block with
  | segment =>
    intro id hid
    exact (Option.some.inj hid).ge.trans_lt (Nat.lt_succ_self _)
  | close | unit => exact nofun
  | _ => exact h

theorem Numbered.notMem_current (h : p.Numbered) (hid : p.opened ≤ id) :
    id ∉ p.current.toList := by
  intro hmem
  have hlt := h id (Option.mem_toList.1 hmem)
  omega

theorem opened_after (p : Progress) (block : Block) :
    (p.after block).opened = p.opened + if block.isSegment then 1 else 0 := by
  cases block <;> rfl

/-- A hunk is told of by how the blocks behind its segment block go on. -/
theorem count_unclosed_append (h : p.Numbered) (hsegment : segment.isSegment = true)
    (before behind : List Block) :
    (p.unclosed (before ++ segment :: behind)).count (p.opened + before.countP Block.isSegment) =
      if (behind.find? Block.endsSection).all Block.isSegment then 1 else 0 := by
  induction before generalizing p with
  | nil =>
    cases segment with
    | segment kind memory size payload =>
      have hopen := count_unclosed_current (p := p.after (.segment kind memory size payload))
        (Nat.lt_succ_self _) rfl behind
      rw [List.nil_append, unclosed, List.count_append, if_pos hsegment]
      rw [List.count_eq_zero.2 (h.notMem_current (Nat.le_add_right _ _)), Nat.zero_add]
      exact hopen
    | _ => cases hsegment
  | cons block before ih =>
    have hearlier : p.opened + (block :: before).countP Block.isSegment ∉
        if block.isSegment then p.current.toList else [] := by
      split
      · exact h.notMem_current (Nat.le_add_right _ _)
      · exact List.not_mem_nil
    have hnumber : p.opened + (block :: before).countP Block.isSegment =
        (p.after block).opened + before.countP Block.isSegment := by
      rw [List.countP_cons, opened_after]
      omega
    rw [List.cons_append, unclosed, List.count_append, List.count_eq_zero.2 hearlier,
      Nat.zero_add, hnumber]
    exact ih (h.after block)

end Progress

namespace File
variable {opening : Opening} {p : Progress} {offset : Nat} {bytes : List UInt8}

theorem unclosed_warnings (opening : Opening) (p : Progress) :
    Warning.unclosed (warnings opening p) = p.current.toList := by
  rw [warnings, Warning.unclosed_append]
  cases p.current <;> split <;> rfl

theorem unclosed_blocksFrom {blocks : List Block} {c c' : Cursor} {ws : List Warning}
    (ho : 4 ∣ c.offset) (h : blocksFrom opening p c = ⟨.ok blocks, c', ws⟩) :
    Warning.unclosed ws ++ (blocks.foldl Progress.after p).current.toList = p.unclosed blocks := by
  induction blocks generalizing p c ws with
  | nil =>
    obtain ⟨-, -, rfl⟩ | ⟨_, _, _, _, _, hcons, -⟩ := blocksFrom_eq_ok h
    · rfl
    · cases hcons
  | cons block more ih =>
    obtain ⟨-, hnil, -⟩ | ⟨_, _, c₁, ws₁, ws₂, hcons, rfl, hread, hmore⟩ := blocksFrom_eq_ok h
    · cases hnil
    · cases hcons
      obtain ⟨b, rest, -, rfl, hreads⟩ := Steady.split hread
      have hdvd := Nat.dvd_add ho ((Block.reads_read ho).1 hreads).dvd_length
      rw [Warning.unclosed_append, Block.unclosed_read ho hread, List.append_assoc,
        List.foldl_cons, ih hdvd hmore, Progress.unclosed]

/-- The warnings of a file name the hunks that its blocks leave open. -/
theorem unclosed_of_file {blocks : List Block} {isOpen : Bool}
    (h : Grammar.File opening blocks isOpen bytes) :
    unclosed bytes = Progress.start.unclosed blocks := by
  obtain ⟨c, ws, c', ws', hopening, hblocks⟩ := readBlocks_of_file h
  obtain ⟨b, rest, -, rfl, hreads⟩ := Steady.split hopening
  have hdvd : 4 ∣ 0 + b.length :=
    Nat.dvd_add (Nat.dvd_zero 4) (Opening.reads_read.1 hreads).dvd_length
  have hwarn := forM_warn (warnings opening (blocks.foldl Progress.after .start)) c'
  have hwarnings : (decode bytes).warnings =
      ws ++ (ws' ++ warnings opening (blocks.foldl Progress.after .start)) := by
    rw [decode, read, bind_of_ok hopening, bind_of_ok hblocks, bind_of_ok hwarn]
    simp [Outcome.after, pure_apply]
  rw [readBlocks_eq] at hblocks
  rw [unclosed, hwarnings, Warning.unclosed_append, Warning.unclosed_append, unclosed_of_warns hopening,
    List.nil_append, ← unclosed_blocksFrom hdvd hblocks, unclosed_warnings]

theorem count_unclosed {blocks before behind : List Block} {segment : Block} {id : Nat}
    {isOpen : Bool} (h : Grammar.File opening blocks isOpen bytes)
    (hopens : Block.Opens blocks id before segment behind) : (unclosed bytes).count id =
      if (behind.find? Block.endsSection).all Block.isSegment then 1 else 0 := by
  obtain ⟨rfl, hsegment, rfl⟩ := hopens
  have hcount :=
    Progress.count_unclosed_append Progress.numbered_start hsegment before behind
  rw [unclosed_of_file h, ← hcount]
  exact congrArg (List.count · _) (Nat.zero_add _).symm

/-- Whether a hunk is reported as it should be, given the blocks behind its segment block: by one
warning, unless a block closes it. -/
def Reported (bytes : List UInt8) (id : Nat) (behind : List Block) : Prop :=
  (unclosed bytes).count id = if behind.find? Block.endsSection = some .close then 0 else 1

/-- A hunk is reported as it should be, unless a unit is what ends it. Then nothing is said of it. -/
theorem reported_of_decode {bytes : List UInt8} {hs : List Hunk}
    (h : (decode bytes).result = .ok hs) :
    ∃ opening blocks isOpen, Grammar.File opening blocks isOpen bytes ∧
      ∀ hunk ∈ hs, ∃ before segment behind, Block.Opens blocks hunk.id before segment behind ∧
        (Reported bytes hunk.id behind ↔ behind.find? Block.endsSection ≠ some .unit) ∧
        (behind.find? Block.endsSection = some .unit → hunk.id ∉ unclosed bytes) := by
  obtain ⟨opening, blocks, isOpen, hfile, rfl⟩ := file_of_decode h
  refine ⟨opening, blocks, isOpen, hfile, fun hunk hmem => ?_⟩
  obtain ⟨id, hid, rfl⟩ := List.mem_mapIdx.1 hmem
  rw [Section.length_ofBlocks] at hid
  obtain ⟨before, segment, behind, hopens⟩ := Block.exists_opens hid
  refine ⟨before, segment, behind, hopens, ?_⟩
  have hcount : (unclosed bytes).count id = _ := count_unclosed hfile hopens
  change ((unclosed bytes).count id = _ ↔ _) ∧ (_ → id ∉ unclosed bytes)
  rw [← List.count_eq_zero, hcount]
  cases hfind : behind.find? Block.endsSection with
  | none => simp
  | some block =>
    have hends := List.find?_some hfind
    cases block with
    | segment => simp [Block.isSegment]
    | close | unit => simp [Block.isSegment]
    | _ => cases hends

/-- Four hunks: one that is closed, one up to the next segment, one up to a unit, and one up to the
end of the file. -/
def fourEndings : List UInt8 :=
  [0x3E7, 0, 0x3E9, 0, 0x3F2, 0x3E9, 0, 0x3EA, 0, 0x3E7, 0, 0x3EB, 0].flatMap Word.bytes

theorem reported_fourEndings : ∃ hs, (decode fourEndings).result = .ok hs ∧ hs.length = 4 ∧
    unclosed fourEndings = [1, 3] ∧
    ∃ opening blocks isOpen, Grammar.File opening blocks isOpen fourEndings ∧
      ∀ hunk ∈ hs, ∃ before segment behind, Block.Opens blocks hunk.id before segment behind ∧
        (Reported fourEndings hunk.id behind ↔ behind.find? Block.endsSection ≠ some .unit) ∧
        (behind.find? Block.endsSection = some .unit → hunk.id ∉ unclosed fourEndings) := by
  have h : (decode fourEndings).result = .ok [⟨0, .code, .any, 0, none, some [], none, none⟩,
      ⟨1, .code, .any, 0, none, some [], none, none⟩, ⟨2, .data, .any, 0, none, none, none, none⟩,
      ⟨3, .bss, .any, 0, none, none, none, none⟩] := by decide +kernel
  exact ⟨_, h, rfl, by decide +kernel, reported_of_decode h⟩

/-- A unit behind a hunk that nothing closes. -/
def openThenUnit : List UInt8 := [0x3E7, 0, 0x3E9, 0, 0x3E7, 0].flatMap Word.bytes

/-- A unit hides a hunk that is left open. -/
theorem not_reported_openThenUnit : ∃ hs, (decode openThenUnit).result = .ok hs ∧
    ¬∃ opening blocks isOpen, Grammar.File opening blocks isOpen openThenUnit ∧
      ∀ hunk ∈ hs, ∃ before segment behind, Block.Opens blocks hunk.id before segment behind ∧
        Reported openThenUnit hunk.id behind := by
  have h : (decode openThenUnit).result =
      .ok [⟨0, .code, .any, 0, none, some [], none, none⟩] := by decide +kernel
  refine ⟨_, h, ?_⟩
  intro hclaimed
  obtain ⟨opening, blocks, isOpen, hfile, hreported⟩ := hclaimed
  obtain rfl : blocks = [.segment .code .any 0 [], .unit] :=
    (blocksOf_of_file hfile).symm.trans (by decide +kernel)
  have hopens : Block.Opens [.segment .code .any 0 [], .unit] 0 []
      (.segment .code .any 0 []) [.unit] := ⟨rfl, rfl, rfl⟩
  obtain ⟨before, segment, behind, hopens', hcount⟩ := hreported _ List.mem_cons_self
  obtain ⟨-, -, rfl⟩ := hopens.unique hopens'
  have hquiet : unclosed openThenUnit = [] := by decide +kernel
  rw [Reported, hquiet] at hcount
  cases hcount

end File
end AmigaHunk
