import AmigaHunk.Proofs.Grammar.Skipped
import AmigaHunk.Proofs.Grammar.Tags
import AmigaHunk.Proofs.Grammar.Truncation

/-! Payloads are opaque. What stands in the payload of a block does not reach what comes of the
other blocks: they are found by the length that the block states. -/
namespace AmigaHunk

/-- The kinds of blocks that carry a payload. -/
inductive Carrier where
  | code
  | data
  | debug
  deriving DecidableEq, Repr

namespace Grammar

/-- The bytes of a block in front of its payload, which they say the length of. -/
inductive PayloadHead : Carrier → List UInt8 → Nat → Prop where
  | code (tag size : UInt32) {m : List UInt8} {memory : MemoryKind}
    (ht : Word.low29 tag = Tag.code.number) (hm : Memory tag m memory) :
    PayloadHead .code (Word.bytes tag ++ (m ++ Word.bytes size)) (4 * Word.low30 size)
  | data (tag size : UInt32) {m : List UInt8} {memory : MemoryKind}
    (ht : Word.low29 tag = Tag.data.number) (hm : Memory tag m memory) :
    PayloadHead .data (Word.bytes tag ++ (m ++ Word.bytes size)) (4 * Word.low30 size)
  | debug (tag longs : UInt32) (ht : Word.low29 tag = Tag.debug.number) :
    PayloadHead .debug (Word.bytes tag ++ Word.bytes longs) (4 * longs.toNat)

variable {kind : FileKind} {isOpen isOpen' : Bool} {tag : UInt32}
  {head payload payload' rest : List UInt8} {opening : AmigaHunk.Opening}
  {xs more : List AmigaHunk.Block}

theorem Block.segment (k : HunkKind) (hk : k ≠ .bss) (ht : Word.low29 tag = k.tag.number)
    {m : List UInt8} {memory : MemoryKind} (hm : Memory tag m memory) (size : UInt32)
    (hp : payload.length = 4 * Word.low30 size) :
    Block kind isOpen (Word.bytes tag ++ (m ++ Word.bytes size) ++ payload)
      (.segment k memory (4 * Word.low30 size) payload) := by
  rw [List.append_assoc, List.append_assoc]
  exact .mk tag (.segment k ht size hm (by rw [if_neg hk, hp]))

/-- Debug data among blocks stands where a hunk is open, and the other blocks come behind it. -/
theorem Blocks.debug_head {longs : UInt32} (ht : Word.low29 tag = Tag.debug.number)
    (hp : payload.length = 4 * longs.toNat)
    (h : Blocks kind isOpen (Word.bytes tag ++ Word.bytes longs ++ (payload ++ rest)) more
      isOpen') :
    isOpen = true ∧ ∃ table after, more = .debug table :: after ∧
      Blocks kind true rest after isOpen' := by
  rw [List.append_assoc] at h
  obtain ⟨b, bs, block, after, hbytes, rfl, hbody, hafter⟩ := h.of_tag
  obtain ⟨hopen, payload₀, table, hc, rfl⟩ := hbody.debug_of_tag ht
  cases hc with
  | mk longs' hp' =>
    rw [List.append_assoc] at hbytes
    obtain rfl := Word.bytes_append_inj hbytes
    obtain ⟨-, rfl⟩ := List.append_inj (List.append_cancel_left hbytes) (hp.trans hp'.symm)
    rw [hopen] at hafter
    exact ⟨hopen, table, _, rfl, hafter⟩

/-- A segment among blocks is followed by the other blocks. -/
theorem Blocks.segment_head (k : HunkKind) (hk : k ≠ .bss) (ht : Word.low29 tag = k.tag.number)
    {m : List UInt8} {memory : MemoryKind} (hm : Memory tag m memory) {size : UInt32}
    (hp : payload.length = 4 * Word.low30 size)
    (h : Blocks kind isOpen (Word.bytes tag ++ (m ++ Word.bytes size) ++ (payload ++ rest)) more
      isOpen') :
    ∃ after, more = .segment k memory (4 * Word.low30 size) payload :: after ∧
      Blocks kind true rest after isOpen' := by
  have hblock : Block kind isOpen _ _ := .segment k hk ht hm size hp
  have hone : Blocks kind isOpen (Word.bytes tag ++ (m ++ Word.bytes size) ++ payload)
      [.segment k memory (4 * Word.low30 size) payload] true := .single ⟨hblock, rfl⟩
  exact hone.exists_more h (by simp)

theorem Blocks.unique {xs ys : List AmigaHunk.Block} (h : Blocks kind isOpen rest xs isOpen')
    {isOpen'' : Bool} (h' : Blocks kind isOpen rest ys isOpen'') : ys = xs := by
  obtain ⟨more, rfl, hmore⟩ := h.exists_more h' (List.append_nil rest).symm
  generalize hbytes : ([] : List UInt8) = bytes at hmore
  cases hmore with
  | nil _ => exact List.append_nil xs
  | cons hfirst _ => exact absurd (List.append_eq_nil_iff.1 hbytes.symm).1 hfirst.1.ne_nil

/-- A segment with another payload of the same length is followed by the same blocks. -/
theorem Blocks.cons_segment (k : HunkKind) (hk : k ≠ .bss) (ht : Word.low29 tag = k.tag.number)
    {m : List UInt8} {memory : MemoryKind} (hm : Memory tag m memory) {size : UInt32}
    (hp : payload.length = 4 * Word.low30 size) (hafter : Blocks kind true rest more isOpen') :
    Blocks kind isOpen (Word.bytes tag ++ (m ++ Word.bytes size) ++ (payload ++ rest))
      (.segment k memory (4 * Word.low30 size) payload :: more) isOpen' := by
  rw [← List.append_assoc]
  exact .cons ⟨.segment k hk ht hm size hp, rfl⟩ hafter

end Grammar

/-- A list with one element in the place of another, between the same ones. -/
theorem mapIdx_modify {α β : Type} {f : Nat → α → β} (g : β → β) {before : List α} {a a' : α}
    (h : f before.length a' = g (f before.length a)) (after : List α) :
    (before ++ a' :: after).mapIdx f =
      ((before ++ a :: after).mapIdx f).modify before.length g := by
  induction before generalizing f with
  | nil =>
    rw [List.nil_append, List.nil_append, List.mapIdx_cons, List.mapIdx_cons, List.length_nil,
      List.modify_zero_cons]
    exact congrArg (· :: _) h
  | cons b before ih =>
    rw [List.cons_append, List.cons_append, List.mapIdx_cons, List.mapIdx_cons, List.length_cons,
      List.modify_succ_cons, ih h]

namespace Section

/-- A segment among blocks is a section behind those of the blocks in front. Its payload is nowhere
else. -/
theorem exists_ofBlocks_payload (xs ys : List Block) (kind : HunkKind) (memory : MemoryKind)
    (size : Nat) :
    ∃ (s : Section) (after : List Section), s.kind = kind ∧ ∀ payload,
      ofBlocks none (xs ++ .segment kind memory size payload :: ys) =
        ofBlocks none xs ++ { s with payload := payload } :: after := by
  refine ⟨⟨(xs.foldl Progress.after .start).pending, kind, memory, size, [],
    (ys.takeWhile (!·.endsSection)).flatMap Block.symbolList,
    (ys.takeWhile (!·.endsSection)).flatMap Block.tableList⟩, ofBlocks none ys, rfl, ?_⟩
  intro payload
  exact ofBlocks_append_segment .start xs ys kind memory size payload

/-- Debug data behind an open hunk is in the tables of its section only. -/
theorem ofBlocks_debug {xs : List Block}
    (h : (xs.foldl Progress.after .start).current.isSome = true) (ys : List Block) :
    ∃ (before : List Section) (s : Section) (after : List Section),
      (ofBlocks none xs).length = before.length + 1 ∧ ∀ table, ∃ tables,
        ofBlocks none (xs ++ .debug table :: ys) =
          before ++ { s with tables := tables } :: after := by
  obtain ⟨first, kind, memory, size, payload, body, rfl, hbody⟩ :=
    Progress.exists_segment_of_current h
  have hsegment : ∀ block ∈ body, block.isSegment = false := by
    intro block hmem
    cases hs : block.isSegment with
    | false => rfl
    | true =>
      have hends := Block.endsSection_of_isSegment hs
      rw [hbody block hmem] at hends
      cases hends
  have hat (zs : List Block) :
      ofBlocks none (first ++ .segment kind memory size payload :: (body ++ zs)) =
        ofBlocks none first ++
          ⟨(first.foldl Progress.after .start).pending, kind, memory, size, payload,
            (body ++ zs.takeWhile (!·.endsSection)).flatMap Block.symbolList,
            (body ++ zs.takeWhile (!·.endsSection)).flatMap Block.tableList⟩ ::
          ofBlocks (body.foldl Progress.after .start).pending zs := by
    have htake : (body ++ zs).takeWhile (!·.endsSection) =
        body ++ zs.takeWhile (!·.endsSection) :=
      List.takeWhile_append_of_pos fun block hmem => by rw [hbody block hmem]; rfl
    have hbehind : ofBlocks none (body ++ zs) =
        ofBlocks (body.foldl Progress.after .start).pending zs :=
      ofBlocks_append_of_not_segment .start hsegment zs
    rw [← htake, ← hbehind]
    exact ofBlocks_append_segment .start first (body ++ zs) kind memory size payload
  refine ⟨ofBlocks none first, ⟨(first.foldl Progress.after .start).pending, kind, memory, size,
    payload, (body ++ ys.takeWhile (!·.endsSection)).flatMap Block.symbolList, []⟩,
    ofBlocks (body.foldl Progress.after .start).pending ys, ?_, fun table => ?_⟩
  · have hnil := congrArg List.length (hat [])
    rwa [List.append_nil, List.length_append] at hnil
  · have hsymbols : (body ++ (.debug table :: ys).takeWhile (!·.endsSection)).flatMap
        Block.symbolList = (body ++ ys.takeWhile (!·.endsSection)).flatMap Block.symbolList := by
      rw [List.flatMap_append, List.flatMap_append]
      rfl
    have hdebug := hat (.debug table :: ys)
    rw [hsymbols] at hdebug
    rw [List.append_assoc, List.cons_append]
    exact ⟨_, hdebug⟩

end Section

namespace Hunk

def withCode (code : List UInt8) (h : Hunk) : Hunk := { h with code := some code }

def withTables (tables : Option (List LineTable)) (h : Hunk) : Hunk := { h with tables := tables }

end Hunk

namespace File
open Grammar
variable {front head payload payload' rest : List UInt8} {carrier : Carrier}

theorem hunks_data (opening : Opening) (xs ys : List Block) (memory : MemoryKind) (size : Nat)
    (payload payload' : List UInt8) :
    hunks opening (xs ++ .segment .data memory size payload' :: ys) =
      hunks opening (xs ++ .segment .data memory size payload :: ys) := by
  obtain ⟨s, after, hkind, hs⟩ := Section.exists_ofBlocks_payload xs ys .data memory size
  have hhunk (i : Nat) (declared : Option HeaderEntry) :
      Section.toHunk i declared { s with payload := payload' } =
        id (Section.toHunk i declared { s with payload := payload }) := by
    simp [Section.toHunk, hkind]
  rw [hunks, hunks, hs, hs, mapIdx_modify id (hhunk _ _), List.modify_id]

theorem hunks_code (opening : Opening) (xs ys : List Block) (memory : MemoryKind) (size : Nat)
    (payload payload' : List UInt8) :
    (∃ h, (hunks opening (xs ++ .segment .code memory size payload :: ys))[
        (hunks opening xs).length]? = some h ∧ h.code = some payload) ∧
      hunks opening (xs ++ .segment .code memory size payload' :: ys) =
        (hunks opening (xs ++ .segment .code memory size payload :: ys)).modify
          (hunks opening xs).length (Hunk.withCode payload') := by
  obtain ⟨s, after, hkind, hs⟩ := Section.exists_ofBlocks_payload xs ys .code memory size
  have hhunk (i : Nat) (declared : Option HeaderEntry) :
      Section.toHunk i declared { s with payload := payload' } =
        Hunk.withCode payload' (Section.toHunk i declared { s with payload := payload }) := by
    simp [Section.toHunk, Hunk.withCode, hkind]
  rw [hunks, hunks, hunks, hs, hs, List.length_mapIdx]
  refine ⟨?_, mapIdx_modify _ (hhunk _ _) after⟩
  simp [Section.toHunk, hkind]

theorem hunks_debug (opening : Opening) {xs : List Block}
    (h : (xs.foldl Progress.after .start).current.isSome = true) (ys : List Block)
    (table table' : Option LineTable) :
    0 < (hunks opening xs).length ∧ ∃ tables, hunks opening (xs ++ .debug table' :: ys) =
      (hunks opening (xs ++ .debug table :: ys)).modify
        ((hunks opening xs).length - 1) (Hunk.withTables tables) := by
  obtain ⟨before, s, after, hlength, hs⟩ := Section.ofBlocks_debug h ys
  obtain ⟨tables, ht⟩ := hs table
  obtain ⟨tables', ht'⟩ := hs table'
  rw [hunks, List.length_mapIdx, hlength]
  refine ⟨Nat.succ_pos _, Section.nonempty? tables', ?_⟩
  rw [hunks, hunks, ht, ht', Nat.add_sub_cancel]
  exact mapIdx_modify (Hunk.withTables _) rfl after

theorem boundary_of_decode {hs hs₀ : List Hunk} (hfront : (decode front).result = .ok hs₀)
    (h : (decode (front ++ rest)).result = .ok hs) : Boundary (front ++ rest) front.length := by
  obtain ⟨opening, xs, isOpen, hfile₀, -⟩ := file_of_decode hfront
  obtain ⟨opening', blocks, isOpen', hfile, -⟩ := file_of_decode h
  obtain ⟨rfl, more, -, hmore⟩ := hfile₀.exists_more hfile
  exact hfile₀.boundary hmore

/-- Other bytes in the payload of one block of a file come out as the code of its hunk, or not at
all, or as line tables of the hunk that is open there. -/
theorem decode_payload {hs : List Hunk}
    (h : (decode (front ++ (head ++ (payload ++ rest)))).result = .ok hs)
    (hplace : Boundary (front ++ (head ++ (payload ++ rest))) front.length)
    (hhead : PayloadHead carrier head payload.length) (hlength : payload'.length = payload.length) :
    let changed := (decode (front ++ (head ++ (payload' ++ rest)))).result
    ∃ hs₀, (decode front).result = .ok hs₀ ∧
      (carrier = .data → changed = .ok hs) ∧
      (carrier = .code → (∃ h, hs[hs₀.length]? = some h ∧ h.code = some payload) ∧
        changed = .ok (hs.modify hs₀.length (Hunk.withCode payload'))) ∧
      (carrier = .debug → endsOpen front = true ∧ 0 < hs₀.length ∧
        ∀ hs', changed = .ok hs' →
          ∃ tables, hs' = hs.modify (hs₀.length - 1) (Hunk.withTables tables)) := by
  obtain ⟨opening, xs, isOpen, hfront⟩ := hplace.exists_file
  rw [List.take_left] at hfront
  obtain ⟨opening', blocks, isOpen', hfile, rfl⟩ := file_of_decode h
  obtain ⟨rfl, more, rfl, hmore⟩ := hfront.exists_more hfile
  refine ⟨hunks opening' xs, decode_of_file hfront, ?_⟩
  generalize hn : payload.length = n at hhead
  cases hhead with
  | data tag size ht hm =>
    obtain ⟨after, rfl, hafter⟩ := hmore.segment_head HunkKind.data (by decide) ht hm hn
    have hchanged := hfront.append_blocks
      (.cons_segment HunkKind.data (by decide) ht hm (hlength.trans hn) hafter)
    refine ⟨fun _ => ?_, nofun, nofun⟩
    exact (decode_of_file hchanged).trans (congrArg _ (hunks_data _ _ _ _ _ _ _))
  | code tag size ht hm =>
    obtain ⟨after, rfl, hafter⟩ := hmore.segment_head HunkKind.code (by decide) ht hm hn
    have hchanged := hfront.append_blocks
      (.cons_segment HunkKind.code (by decide) ht hm (hlength.trans hn) hafter)
    obtain ⟨hcode, hmodify⟩ := hunks_code opening' xs after _ _ payload payload'
    refine ⟨nofun, fun _ => ⟨hcode, ?_⟩, nofun⟩
    exact (decode_of_file hchanged).trans (congrArg _ hmodify)
  | debug tag longs ht =>
    obtain ⟨rfl, table, after, rfl, hafter⟩ := hmore.debug_head ht hn
    have hopen := endsOpen_of_file hfront
    have hcurrent : (xs.foldl Progress.after .start).current.isSome = true := by
      cases hfront with
      | mk _ hb => exact Progress.isSome_foldl_after rfl hb
    refine ⟨nofun, nofun, fun _ => ⟨hopen, ?_, fun hs' h' => ?_⟩⟩
    · exact (hunks_debug opening' hcurrent after table table).1
    · obtain ⟨opening, blocks', isOpen, hfile', rfl⟩ := file_of_decode h'
      obtain ⟨rfl, more, rfl, hmore'⟩ := hfront.exists_more hfile'
      obtain ⟨-, table', after', rfl, hafter'⟩ := hmore'.debug_head ht (hlength.trans hn)
      obtain rfl := hafter.unique hafter'
      exact (hunks_debug opening hcurrent after' table table').2

/-- Line 7 of a source at the first byte. -/
def oneLine : List UInt8 := [0, 0x4C494E45, 1, 0x61000000, 7, 0].flatMap Word.bytes

def beforeCode : List UInt8 := [0x3F3, 0, 2, 0, 1, 1, 1].flatMap Word.bytes

def beforeDebug : List UInt8 := beforeCode ++ ([0x3E9, 1].flatMap Word.bytes ++ [1, 2, 3, 4])

def beforeData : List UInt8 :=
  beforeDebug ++ ([0x3F1, 6].flatMap Word.bytes ++ (oneLine ++ Word.bytes 0x3F2))

/-- A code hunk with debug data, and a data hunk. -/
def threePayloads (code debug data : List UInt8) : List UInt8 :=
  beforeCode ++ ([0x3E9, 1].flatMap Word.bytes ++ (code ++ ([0x3F1, 6].flatMap Word.bytes ++
    (debug ++ (Word.bytes 0x3F2 ++ ([0x3EA, 1].flatMap Word.bytes ++
      (data ++ Word.bytes 0x3F2)))))))

theorem decode_threePayloads : ∃ hs,
    (decode (threePayloads [1, 2, 3, 4] oneLine [5, 6, 7, 8])).result = .ok hs ∧
    (∀ data, data.length = 4 →
      (decode (threePayloads [1, 2, 3, 4] oneLine data)).result = .ok hs) ∧
    (∀ code, code.length = 4 → (decode (threePayloads code oneLine [5, 6, 7, 8])).result =
      .ok (hs.modify 0 (Hunk.withCode code))) ∧
    ∀ debug, debug.length = 24 → ∀ hs',
      (decode (threePayloads [1, 2, 3, 4] debug [5, 6, 7, 8])).result = .ok hs' →
        ∃ tables, hs' = hs.modify 0 (Hunk.withTables tables) := by
  have h : (decode (threePayloads [1, 2, 3, 4] oneLine [5, 6, 7, 8])).result = .ok
      [⟨0, .code, .any, 4, none, some [1, 2, 3, 4], none, some [⟨"a", [⟨0, 7⟩]⟩]⟩,
        ⟨1, .data, .any, 4, none, none, none, none⟩] := by decide +kernel
  refine ⟨_, h, fun data hdata => ?_, fun code hcode => ?_, fun debug hdebug hs' h' => ?_⟩
  · have hfront : (decode beforeData).result = .ok
        [⟨0, .code, .any, 4, none, some [1, 2, 3, 4], none, some [⟨"a", [⟨0, 7⟩]⟩]⟩] := by
      decide +kernel
    have hsplit (data : List UInt8) : threePayloads [1, 2, 3, 4] oneLine data =
        beforeData ++ ([0x3EA, 1].flatMap Word.bytes ++ (data ++ Word.bytes 0x3F2)) := by
      simp only [threePayloads, beforeData, beforeDebug, List.append_assoc]
    have hhead : PayloadHead .data ([0x3EA, 1].flatMap Word.bytes) 4 :=
      .data 0x3EA 1 rfl (.flags (by decide))
    rw [hsplit] at h ⊢
    obtain ⟨hs₀, -, hchanged, -⟩ := decode_payload h (boundary_of_decode hfront h) hhead hdata
    exact hchanged rfl
  · have hfront : (decode beforeCode).result = .ok [] := by decide +kernel
    have hhead : PayloadHead .code ([0x3E9, 1].flatMap Word.bytes) 4 :=
      .code 0x3E9 1 rfl (.flags (by decide))
    obtain ⟨hs₀, hhunks, -, hchanged, -⟩ :=
      decode_payload h (boundary_of_decode hfront h) hhead hcode
    cases hfront.symm.trans hhunks
    exact (hchanged rfl).2
  · have hfront : (decode beforeDebug).result =
        .ok [⟨0, .code, .any, 4, none, some [1, 2, 3, 4], none, none⟩] := by decide +kernel
    have hsplit (debug : List UInt8) : threePayloads [1, 2, 3, 4] debug [5, 6, 7, 8] =
        beforeDebug ++ ([0x3F1, 6].flatMap Word.bytes ++ (debug ++ (Word.bytes 0x3F2 ++
          ([0x3EA, 1].flatMap Word.bytes ++ ([5, 6, 7, 8] ++ Word.bytes 0x3F2))))) := by
      simp only [threePayloads, beforeDebug, List.append_assoc]
    have hhead : PayloadHead .debug ([0x3F1, 6].flatMap Word.bytes) 24 := .debug 0x3F1 6 rfl
    rw [hsplit] at h h'
    obtain ⟨hs₀, hhunks, -, -, hchanged⟩ :=
      decode_payload h (boundary_of_decode hfront h) hhead hdebug
    cases hfront.symm.trans hhunks
    exact (hchanged rfl).2.2 hs' h'

end File
end AmigaHunk
