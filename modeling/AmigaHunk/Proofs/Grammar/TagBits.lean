import AmigaHunk.Proofs.Grammar.PayloadBytes

/-! The top bits of tags. They do not tell which block it is nor where it ends, so that with others
in their place a file decodes to the same, but for the memory that a hunk asks for. -/
namespace AmigaHunk

theorem MemoryKind.ofWord_of_flags_eq {w w' : UInt32} (h : Word.flags w' = Word.flags w) :
    ofWord w' = ofWord w := by
  rw [ofWord, ofWord, h]

namespace Grammar
variable {kind : FileKind} {isOpen : Bool} {tag tag' : UInt32} {b : List UInt8}
  {block : AmigaHunk.Block}

theorem Memory.of_flags_eq {m : MemoryKind} (h : Memory tag b m)
    (hflags : Word.flags tag' = Word.flags tag) : Memory tag' b m := by
  cases h with
  | flags h =>
    rw [← MemoryKind.ofWord_of_flags_eq hflags]
    exact .flags (by rwa [hflags])
  | attributes bits h => exact .attributes bits (by rwa [hflags])

/-- Of a block that is no segment the tag may have other top bits. -/
theorem Body.of_low29_eq (h : Body kind isOpen tag b block)
    (htag : Word.low29 tag' = Word.low29 tag)
    (hflags : block.isSegment = true → Word.flags tag' = Word.flags tag) :
    Body kind isOpen tag' b block := by
  cases h with
  | segment k ht size hm hp =>
    exact .segment k (htag.trans ht) size (hm.of_flags_eq (hflags rfl)) hp
  | close ht => exact .close (by rwa [htag])
  | symbols ht ho h => exact .symbols (htag.trans ht) ho h
  | debug ht ho hc hp => exact .debug (htag.trans ht) ho hc hp
  | longRelocations t ht hl h => exact .longRelocations t (htag.trans ht) hl h
  | shortRelocations t ht hs h hp => exact .shortRelocations t (htag.trans ht) hs h hp
  | externals ht h => exact .externals (htag.trans ht) h
  | name ht h => exact .name (htag.trans ht) h
  | unit ht h => exact .unit (htag.trans ht) h
  | overlay ht longs hl h => exact .overlay (htag.trans ht) longs hl h
  | lib ht h => exact .lib (htag.trans ht) h
  | index ht h => exact .index (htag.trans ht) h
  | unknown ht h => exact .unknown (by rwa [htag]) h

/-- Without attributes the two top bits of a segment's tag are only its memory request. -/
theorem Body.of_flags_ne (h : Body kind isOpen tag b block) (k : HunkKind)
    (ht : Word.low29 tag = k.tag.number) (htag : Word.low29 tag' = Word.low29 tag)
    (hflags : Word.flags tag ≠ 3) (hflags' : Word.flags tag' ≠ 3) :
    ∃ memory size payload, block = .segment k memory size payload ∧
      Body kind isOpen tag' b (.segment k (.ofWord tag') size payload) := by
  obtain ⟨m, size, payload, memory, rfl, hm, hp, rfl⟩ := h.segment_of_tag k ht
  cases hm with
  | flags _ => exact ⟨_, _, _, rfl, .segment k (htag.trans ht) size (.flags hflags') hp⟩
  | attributes bits hboth => exact absurd hboth hflags

end Grammar

def Hunk.withMemory (memory : MemoryKind) (h : Hunk) : Hunk := { h with memory := memory }

namespace File
open Grammar
variable {front rest : List UInt8} {tag tag' : UInt32}

/-- The memory request of a segment block counts where the header declares nothing of its hunk. -/
theorem hunks_memory (opening : Opening) (xs ys : List Block) (kind : HunkKind)
    (memory memory' : MemoryKind) (size : Nat) (payload : List UInt8) :
    let id := (hunks opening xs).length
    let hs := hunks opening (xs ++ .segment kind memory size payload :: ys)
    let changed := hunks opening (xs ++ .segment kind memory' size payload :: ys)
    id < hs.length ∧ (id < opening.declared.length → changed = hs) ∧
      (opening.declared.length ≤ id → changed = hs.modify id (Hunk.withMemory memory')) := by
  obtain ⟨s, after, hs⟩ : ∃ (s : Section) (after : List Section), ∀ memory,
      Section.ofBlocks none (xs ++ .segment kind memory size payload :: ys) =
        Section.ofBlocks none xs ++ { s with memory := memory } :: after :=
    ⟨⟨_, kind, .any, size, payload, _, _⟩, _, fun memory =>
      Section.ofBlocks_append_segment .start xs ys kind memory size payload⟩
  simp only [hunks, hs, List.length_mapIdx]
  refine ⟨by simp, fun hid => ?_, fun hid => ?_⟩
  · have hentry := List.getElem?_eq_getElem hid
    have hhunk : Section.toHunk (Section.ofBlocks none xs).length
        opening.declared[(Section.ofBlocks none xs).length]? { s with memory := memory' } =
        id (Section.toHunk (Section.ofBlocks none xs).length
          opening.declared[(Section.ofBlocks none xs).length]? { s with memory := memory }) := by
      rw [hentry]
      rfl
    rw [mapIdx_modify id hhunk, List.modify_id]
  · have hentry := List.getElem?_eq_none hid
    refine mapIdx_modify (Hunk.withMemory memory') ?_ after
    simp only [hentry]
    rfl

/-- The three top bits of a tag do not tell the block. Of a segment block they tell the memory that
its hunk asks for, and that counts only where the header declares nothing of the hunk. -/
theorem decode_tag_bits {hs : List Hunk}
    (h : (decode (front ++ (Word.bytes tag ++ rest))).result = .ok hs)
    (hplace : Boundary (front ++ (Word.bytes tag ++ rest)) front.length)
    (htag : Word.low29 tag' = Word.low29 tag) :
    let changed := (decode (front ++ (Word.bytes tag' ++ rest))).result
    ((∀ k : HunkKind, Word.low29 tag ≠ k.tag.number) → changed = .ok hs) ∧
    (Word.flags tag' = Word.flags tag → changed = .ok hs) ∧
    ∀ k : HunkKind, Word.low29 tag = k.tag.number →
      Word.flags tag ≠ 3 → Word.flags tag' ≠ 3 →
      ∃ opening c ws hs₀, Opening.read (.start front) = ⟨.ok opening, c, ws⟩ ∧
        (decode front).result = .ok hs₀ ∧ hs₀.length < hs.length ∧
        (hs₀.length < opening.declared.length → changed = .ok hs) ∧
        (opening.declared.length ≤ hs₀.length →
          changed = .ok (hs.modify hs₀.length (Hunk.withMemory (.ofWord tag')))) := by
  obtain ⟨opening, xs, isOpen, hfront⟩ := hplace.exists_file
  rw [List.take_left] at hfront
  obtain ⟨opening', blocks, isOpen', hfile, rfl⟩ := file_of_decode h
  obtain ⟨rfl, more, rfl, hmore⟩ := hfront.exists_more hfile
  obtain ⟨b, bs, block, after, rfl, rfl, hbody, hafter⟩ := hmore.of_tag
  have hsame (hbody' : Body opening'.kind isOpen tag' b block) :
      (decode (front ++ (Word.bytes tag' ++ (b ++ bs)))).result =
        .ok (hunks opening' (xs ++ block :: after)) :=
    decode_of_file (hfront.append_block hbody' hafter)
  refine ⟨fun hk => ?_, fun hflags => ?_, fun k hk hflags hflags' => ?_⟩
  · refine hsame (hbody.of_low29_eq htag fun hsegment => ?_)
    obtain ⟨k, ht⟩ := hbody.isSegment_iff.1 hsegment
    exact absurd ht (hk k)
  · exact hsame (hbody.of_low29_eq htag fun _ => hflags)
  · obtain ⟨memory, size, payload, rfl, hbody'⟩ := hbody.of_flags_ne k hk htag hflags hflags'
    obtain ⟨hid, hdeclared, hundeclared⟩ :=
      hunks_memory opening' xs after k memory (.ofWord tag') size payload
    have hchanged := decode_of_file (hfront.append_block hbody' hafter)
    obtain ⟨c, ws, -, -, hopening, -⟩ := readBlocks_of_file hfront
    exact ⟨opening', c, ws, hunks opening' xs, hopening, decode_of_file hfront, hid,
      fun hlt => hchanged.trans (congrArg _ (hdeclared hlt)),
      fun hle => hchanged.trans (congrArg _ (hundeclared hle))⟩

/-- A header that declares one hunk, and the hunk. -/
def oneDeclared : List UInt8 := [0x3F3, 0, 1, 0, 0, 0, 0x3E9, 0, 0x3F2].flatMap Word.bytes

/-- A code hunk more than the header declares, behind tags of its own. -/
def oneMore (code close : UInt32) : List UInt8 :=
  oneDeclared ++ (Word.bytes code ++ (Word.bytes 0 ++ (Word.bytes close ++ [])))

theorem decode_oneMore : ∃ hs, (decode (oneMore 0x3E9 0x3F2)).result = .ok hs ∧
    (decode (oneMore 0x3E9 0xE00003F2)).result = .ok hs ∧
    (decode (oneMore 0x200003E9 0x3F2)).result = .ok hs ∧
    (decode (oneMore 0x400003E9 0x3F2)).result = .ok (hs.modify 1 (Hunk.withMemory .chip)) := by
  have h : (decode (oneMore 0x3E9 0x3F2)).result = .ok
      [⟨0, .code, .any, 0, none, some [], none, none⟩,
        ⟨1, .code, .any, 0, none, some [], none, none⟩] := by decide +kernel
  have hfront : (decode oneDeclared).result = .ok
      [⟨0, .code, .any, 0, none, some [], none, none⟩] := by decide +kernel
  refine ⟨_, h, ?_, ?_, ?_⟩
  · have hfront : (decode (oneDeclared ++ [0x3E9, 0].flatMap Word.bytes)).result = .ok
        [⟨0, .code, .any, 0, none, some [], none, none⟩,
          ⟨1, .code, .any, 0, none, some [], none, none⟩] := by decide +kernel
    have hsplit (close : UInt32) : oneMore 0x3E9 close =
        oneDeclared ++ [0x3E9, 0].flatMap Word.bytes ++ (Word.bytes close ++ []) := by
      simp [oneMore]
    have hclose (k : HunkKind) : Word.low29 0x3F2 ≠ k.tag.number := by cases k <;> decide
    have htag : Word.low29 0xE00003F2 = Word.low29 0x3F2 := rfl
    rw [hsplit] at h ⊢
    exact (decode_tag_bits h (boundary_of_decode hfront h) htag).1 hclose
  · have htag : Word.low29 0x200003E9 = Word.low29 0x3E9 := rfl
    exact (decode_tag_bits h (boundary_of_decode hfront h) htag).2.1 rfl
  · have htag : Word.low29 0x400003E9 = Word.low29 0x3E9 := rfl
    obtain ⟨opening, c, ws, hs₀, hopening, hhunks, -, -, hundeclared⟩ :=
      (decode_tag_bits h (boundary_of_decode hfront h) htag).2.2 .code rfl (by decide) (by decide)
    have hread : Opening.read (.start oneDeclared) =
        ⟨.ok ⟨.load, [⟨.any, 0⟩]⟩, ⟨24, oneDeclared.drop 24⟩, []⟩ := rfl
    cases hfront.symm.trans hhunks
    cases hread.symm.trans hopening
    exact hundeclared (Nat.le_refl 1)

end File
end AmigaHunk
