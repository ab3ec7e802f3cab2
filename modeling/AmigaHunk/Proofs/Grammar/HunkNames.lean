import AmigaHunk.Proofs.Grammar.Concatenation

/-! Names of hunks. A name block names the next hunk, whatever comes between them, so that a name at
the end of a unit reaches over to the next unit. -/
namespace AmigaHunk

namespace Block

def isName : Block → Bool
  | name _ => true
  | _ => false

/-- The last name among the blocks, as far back as one that ends the search. -/
def LastName (ends : Block → Bool) (blocks : List Block) (text : String) : Prop :=
  ∃ front behind, blocks = front ++ name text :: behind ∧
    ∀ block ∈ behind, block.isName = false ∧ ends block = false

theorem lastName_concat {ends : Block → Bool} {blocks : List Block} {block : Block}
    {text : String} : LastName ends (blocks ++ [block]) text ↔ block = name text ∨
      block.isName = false ∧ ends block = false ∧ LastName ends blocks text := by
  constructor
  · intro h
    obtain ⟨front, behind, heq, hbehind⟩ := h
    obtain rfl | ⟨behind, last, rfl⟩ := List.eq_nil_or_concat' behind
    · exact .inl (List.singleton_inj.1 (List.append_inj' heq rfl).2)
    · rw [← List.cons_append, ← List.append_assoc] at heq
      obtain ⟨rfl, hlast⟩ := List.append_inj' heq rfl
      obtain rfl := List.singleton_inj.1 hlast
      obtain ⟨hname, hends⟩ := hbehind block (List.mem_append_right _ List.mem_cons_self)
      exact .inr ⟨hname, hends, front, behind, rfl,
        fun b hmem => hbehind b (List.mem_append_left _ hmem)⟩
  · intro h
    obtain rfl | ⟨hname, hends, front, behind, rfl, hbehind⟩ := h
    · exact ⟨blocks, [], rfl, nofun⟩
    · refine ⟨front, behind ++ [block], by simp, fun b hmem => ?_⟩
      obtain hmem | hmem := List.mem_append.1 hmem
      · exact hbehind b hmem
      · rw [List.mem_singleton.1 hmem]
        exact ⟨hname, hends⟩

/-- What waits behind some blocks is their last name behind the last segment. -/
theorem pending_eq_some_iff {blocks : List Block} {text : String} :
    (blocks.foldl Progress.after .start).pending = some text ↔ LastName isSegment blocks text := by
  induction blocks using List.reverseRecOn with
  | nil =>
    refine ⟨nofun, ?_⟩
    intro h
    obtain ⟨front, behind, heq, -⟩ := h
    cases List.append_eq_nil_iff.1 heq.symm |>.2
  | append_singleton blocks block ih =>
    rw [List.foldl_append, lastName_concat, ← ih]
    cases block <;> simp [Progress.after, isName, isSegment]

end Block

namespace File

/-- Each hunk has the last name in front of its segment block, as far back as a block that ends the
search, and has no name if there is none. -/
def HunksNamed (ends : Block → Bool) (blocks : List Block) (hs : List Hunk) : Prop :=
  ∀ id hunk, hs[id]? = some hunk → ∃ before segment behind,
    Block.Opens blocks id before segment behind ∧
      ∀ text, hunk.name = some text ↔ Block.LastName ends before text

/-- A name goes to the next hunk, and of several in front of it the last one does. -/
theorem hunksNamed_of_decode {bytes : List UInt8} {hs : List Hunk}
    (h : (decode bytes).result = .ok hs) :
    ∃ opening blocks isOpen, Grammar.File opening blocks isOpen bytes ∧
      HunksNamed Block.isSegment blocks hs := by
  obtain ⟨opening, blocks, isOpen, hfile, rfl⟩ := file_of_decode h
  refine ⟨opening, blocks, isOpen, hfile, fun id hunk hget => ?_⟩
  rw [hunks, List.getElem?_mapIdx] at hget
  obtain ⟨s, hs, rfl⟩ := Option.map_eq_some_iff.1 hget
  have hid := (List.getElem?_eq_some_iff.1 hs).1
  rw [Section.length_ofBlocks] at hid
  obtain ⟨before, segment, behind, hopens⟩ := Block.exists_opens hid
  obtain ⟨s', hs', hname⟩ := Section.getElem?_ofBlocks hopens
  obtain rfl := Option.some.inj (hs.symm.trans hs')
  refine ⟨before, segment, behind, hopens, fun text => ?_⟩
  rw [← Block.pending_eq_some_iff, ← hname]
  rfl

/-- A unit behind a name, three hunks, and two names in front of the second of them. -/
def threeHunks : List UInt8 :=
  [0x3E7, 0, 0x3E8, 1, 0x61000000, 0x3E7, 0, 0x3E9, 0, 0x3F2, 0x3E8, 1, 0x62000000, 0x3E8, 1,
    0x63000000, 0x3EB, 1, 0x3EA, 0].flatMap Word.bytes

theorem hunksNamed_threeHunks : ∃ hs, (decode threeHunks).result = .ok hs ∧
    hs.map (·.name) = [some "a", some "c", none] ∧
    ∃ opening blocks isOpen, Grammar.File opening blocks isOpen threeHunks ∧
      HunksNamed Block.isSegment blocks hs := by
  have h : (decode threeHunks).result = .ok [⟨0, .code, .any, 0, some "a", some [], none, none⟩,
      ⟨1, .bss, .any, 4, some "c", none, none, none⟩,
      ⟨2, .data, .any, 0, none, none, none, none⟩] := by decide +kernel
  exact ⟨_, h, rfl, hunksNamed_of_decode h⟩

/-- A name, then a unit, then a hunk. -/
def nameThenUnit : List UInt8 :=
  [0x3E7, 0, 0x3E8, 1, 0x61000000, 0x3E7, 0, 0x3E9, 0, 0x3F2].flatMap Word.bytes

/-- A unit does not end the search for a name. -/
theorem not_hunksNamed_within_unit : ∃ hs, (decode nameThenUnit).result = .ok hs ∧
    ¬∃ opening blocks isOpen, Grammar.File opening blocks isOpen nameThenUnit ∧
      HunksNamed (fun block => block.isSegment || block = .unit) blocks hs := by
  have h : (decode nameThenUnit).result =
      .ok [⟨0, .code, .any, 0, some "a", some [], none, none⟩] := by decide +kernel
  refine ⟨_, h, ?_⟩
  intro hclaimed
  obtain ⟨opening, blocks, isOpen, hfile, hnamed⟩ := hclaimed
  obtain rfl : blocks = [.name "a", .unit, .segment .code .any 0 [], .close] :=
    (blocksOf_of_file hfile).symm.trans (by decide +kernel)
  have hopens : Block.Opens [.name "a", .unit, .segment .code .any 0 [], .close] 0
      [.name "a", .unit] (.segment .code .any 0 []) [.close] := ⟨rfl, rfl, rfl⟩
  obtain ⟨before, segment, behind, hopens', hname⟩ := hnamed 0 _ rfl
  obtain ⟨rfl, -, -⟩ := hopens.unique hopens'
  have hlast : Block.LastName _ ([.name "a"] ++ [.unit]) "a" := (hname "a").1 rfl
  obtain hunit | ⟨-, hends, -⟩ := Block.lastName_concat.1 hlast
  · cases hunit
  · cases hends

end File
end AmigaHunk
