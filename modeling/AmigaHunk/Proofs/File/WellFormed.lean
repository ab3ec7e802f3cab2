import AmigaHunk.Proofs.File.Section
import AmigaHunk.Proofs.Grammar.FileDecoder
import AmigaHunk.Proofs.Text.Tight

/-! What holds of all hunks that files decode to. Each part of it is a matter of some blocks: it is
shown of the blocks of the grammar first, then of sections of such blocks, then of their hunks. -/
namespace AmigaHunk

structure LineTable.WellFormed (t : LineTable) : Prop where
  name_tight : Tight t.name
  sorted : t.entries.Pairwise (·.offset ≤ ·.offset)

/-- Whole longwords, code of a code hunk only and within its size, no list that is there but empty,
tables by offset, and no NUL at the end of a name. -/
structure Hunk.WellFormed (h : Hunk) : Prop where
  code_iff : h.code.isSome = true ↔ h.kind = .code
  code_length : ∀ code, h.code = some code → 4 ∣ code.length ∧ code.length ≤ h.size
  size_dvd : 4 ∣ h.size
  symbols_ne_nil : h.symbols ≠ some []
  tables_ne_nil : h.tables ≠ some []
  symbols_tight : ∀ s ∈ h.symbolList, Tight s.name
  tables_wellFormed : ∀ t ∈ h.tableList, t.WellFormed
  name_tight : ∀ name, h.name = some name → Tight name

/-- What a block brings to a hunk is well formed. -/
def Block.WellFormed : Block → Prop
  | segment kind _ size payload => 4 ∣ size ∧ (kind = .code → payload.length = size)
  | symbols entries => ∀ s ∈ entries, Tight s.name
  | debug table => ∀ t, table = some t → t.WellFormed
  | name text => Tight text
  | _ => True

structure Section.WellFormed (s : Section) : Prop where
  size_dvd : 4 ∣ s.size
  length_payload : s.kind = .code → s.payload.length = s.size
  symbols_tight : ∀ symbol ∈ s.symbols, Tight symbol.name
  tables_wellFormed : ∀ t ∈ s.tables, t.WellFormed
  name_tight : ∀ name, s.name = some name → Tight name

namespace Grammar

theorem Text.tight {b : List UInt8} {s : String} (h : Text b s) : Tight s := by
  cases h with
  | mk longs h => exact Decoder.tight_trimZeros _

theorem SymbolEntry.tight {b : List UInt8} {s : Symbol} (h : SymbolEntry b (some s)) :
    Tight s.name := by
  cases h with
  | symbol w offset h0 h => exact Decoder.tight_trimZeros _

theorem Payload.wellFormed {b : List UInt8} {t : LineTable} (h : Payload b (some t)) :
    t.WellFormed := by
  cases h with
  | table base layout ht he => exact ⟨ht.tight, LineTable.sort_pairwise _⟩

theorem Body.wellFormed {kind : FileKind} {isOpen : Bool} {tag : UInt32} {b : List UInt8}
    {block : AmigaHunk.Block} (h : Body kind isOpen tag b block) : block.WellFormed := by
  cases h with
  | segment h ht size hm hp =>
    refine ⟨Nat.dvd_mul_right 4 _, fun hcode => ?_⟩
    have hbss : h ≠ .bss := by
      rw [hcode]
      decide
    rw [hp, if_neg hbss]
  | symbols _ _ h => exact h.forall_mem fun _ _ => SymbolEntry.tight
  | debug _ _ hc hp =>
    intro t ht
    subst ht
    exact hp.wellFormed
  | name _ h => exact h.tight
  | _ => trivial

theorem Blocks.wellFormed {kind : FileKind} {isOpen isOpen' : Bool} {b : List UInt8}
    {blocks : List AmigaHunk.Block} (h : Blocks kind isOpen b blocks isOpen') :
    ∀ block ∈ blocks, block.WellFormed := by
  refine h.forall_mem fun _ _ _ _ hblock => ?_
  cases hblock.1 with
  | mk tag hbody => exact hbody.wellFormed

/-- A header states sizes in whole longwords. -/
theorem Opening.dvd_size {b : List UInt8} {opening : AmigaHunk.Opening} (h : Opening b opening) :
    ∀ e ∈ opening.declared, 4 ∣ e.size := by
  cases h with
  | header tag _ first last _ _ _ _ he =>
    refine he.forall_mem fun _ _ _ _ hentry => ?_
    cases hentry with
    | mk w hm => exact Nat.dvd_mul_right 4 _
  | unit tag _ _ => exact fun _ he => by cases he

end Grammar

theorem Block.WellFormed.symbolList {block : Block} (h : block.WellFormed) :
    ∀ s ∈ block.symbolList, Tight s.name := by
  cases block with
  | symbols symbols => exact h
  | _ => exact fun _ hs => by cases hs

theorem Block.WellFormed.tableList {block : Block} (h : block.WellFormed) :
    ∀ t ∈ block.tableList, t.WellFormed := by
  cases block with
  | debug table =>
    cases table with
    | none => exact fun _ ht => by cases ht
    | some t => exact List.forall_mem_singleton.2 (h t rfl)
  | _ => exact fun _ ht => by cases ht

namespace Section

theorem wellFormed_ofBlocks {pending : Option String} {blocks : List Block}
    (hpending : ∀ name, pending = some name → Tight name)
    (h : ∀ block ∈ blocks, block.WellFormed) : ∀ s ∈ ofBlocks pending blocks, s.WellFormed := by
  induction blocks generalizing pending with
  | nil => exact fun _ hs => by cases hs
  | cons block blocks ih =>
    obtain ⟨hblock, hblocks⟩ := List.forall_mem_cons.1 h
    cases block with
    | name name => exact ih (fun _ hn => by cases hn; exact hblock) hblocks
    | segment kind memory size payload =>
      have hbody : ∀ block ∈ blocks.takeWhile (!·.endsSection), block.WellFormed :=
        fun block hmem => hblocks block (List.takeWhile_subset _ hmem)
      refine List.forall_mem_cons.2 ⟨?_, ih (fun _ hn => by cases hn) hblocks⟩
      refine ⟨hblock.1, hblock.2, fun symbol hsymbol => ?_, fun t ht => ?_, hpending⟩
      · obtain ⟨block, hmem, hsymbol⟩ := List.mem_flatMap.1 hsymbol
        exact (hbody block hmem).symbolList symbol hsymbol
      · obtain ⟨block, hmem, ht⟩ := List.mem_flatMap.1 ht
        exact (hbody block hmem).tableList t ht
    | _ => exact ih hpending hblocks

theorem nonempty?_ne_nil {α : Type} (xs : List α) : nonempty? xs ≠ some [] := by
  cases xs <;> exact fun h => by cases h

theorem WellFormed.size_toHunk {s : Section} (h : s.WellFormed) (id : Nat)
    {declared : Option HeaderEntry} (hdeclared : ∀ e, declared = some e → 4 ∣ e.size) :
    4 ∣ (s.toHunk id declared).size ∧ s.size ≤ (s.toHunk id declared).size := by
  cases declared with
  | none => exact ⟨h.size_dvd, Nat.le_refl _⟩
  | some e =>
    refine ⟨?_, Nat.le_max_right e.size s.size⟩
    change 4 ∣ max e.size s.size
    cases Nat.le_total e.size s.size with
    | inl hle =>
      rw [Nat.max_eq_right hle]
      exact h.size_dvd
    | inr hle =>
      rw [Nat.max_eq_left hle]
      exact hdeclared e rfl

theorem WellFormed.toHunk {s : Section} (h : s.WellFormed) (id : Nat)
    {declared : Option HeaderEntry} (hdeclared : ∀ e, declared = some e → 4 ∣ e.size) :
    (s.toHunk id declared).WellFormed where
  code_iff := by
    by_cases hcode : s.kind = .code <;> simp [Section.toHunk, hcode]
  code_length code hcode := by
    obtain ⟨hsize, hle⟩ := h.size_toHunk id hdeclared
    by_cases hkind : s.kind = .code
    · replace hcode : some s.payload = some code := (if_pos hkind).symm.trans hcode
      cases hcode
      rw [h.length_payload hkind]
      exact ⟨h.size_dvd, hle⟩
    · replace hcode : none = some code := (if_neg hkind).symm.trans hcode
      cases hcode
  size_dvd := (h.size_toHunk id hdeclared).1
  symbols_ne_nil := nonempty?_ne_nil s.symbols
  tables_ne_nil := nonempty?_ne_nil s.tables
  symbols_tight := by
    rw [Hunk.symbolList, Section.toHunk, getD_nonempty?]
    exact h.symbols_tight
  tables_wellFormed := by
    rw [Hunk.tableList, Section.toHunk, getD_nonempty?]
    exact h.tables_wellFormed
  name_tight := h.name_tight

end Section

namespace File

/-- A hunk has the number of its place, and is well formed, whatever the bytes of the file are. -/
theorem wellFormed_of_decode {bytes : List UInt8} {hs : List Hunk}
    (h : (decode bytes).result = .ok hs) :
    ∀ (i : Nat) (hunk : Hunk), hs[i]? = some hunk → hunk.id = i ∧ hunk.WellFormed := by
  intro i hunk hget
  obtain ⟨opening, blocks, isOpen, hfile, rfl⟩ := file_of_decode h
  rw [hunks, List.getElem?_mapIdx] at hget
  obtain ⟨s, hs, rfl⟩ := Option.map_eq_some_iff.1 hget
  cases hfile with
  | mk hopening hblocks =>
    have hsection := Section.wellFormed_ofBlocks (fun _ hn => by cases hn) hblocks.wellFormed s
      (List.mem_of_getElem? hs)
    exact ⟨rfl, hsection.toHunk i fun e he => hopening.dvd_size e (List.mem_of_getElem? he)⟩

/-- Code with a padded name, a symbol, and a table whose pairs are not in the order of offsets. -/
def namedHunk : List UInt8 :=
  [0x3E7, 0, 0x3E8, 1, 0x78000000, 0x3E9, 1, 0x4E714E75, 0x3F0, 1, 0x6D61696E, 0, 0,
    0x3F1, 8, 0, 0x4C494E45, 1, 0x612E6300, 2, 2, 1, 0, 0x3F2].flatMap Word.bytes

theorem wellFormed_namedHunk : ∃ hunk, (decode namedHunk).result = .ok [hunk] ∧
    hunk = ⟨0, .code, .any, 4, some "x", some [0x4E, 0x71, 0x4E, 0x75], some [⟨"main", 0⟩],
      some [⟨"a.c", [⟨0, 1⟩, ⟨2, 2⟩]⟩]⟩ ∧ hunk.WellFormed := by
  have h : (decode namedHunk).result = .ok [⟨0, .code, .any, 4, some "x",
      some [0x4E, 0x71, 0x4E, 0x75], some [⟨"main", 0⟩],
      some [⟨"a.c", [⟨0, 1⟩, ⟨2, 2⟩]⟩]⟩] := by decide +kernel
  exact ⟨_, h, rfl, (wellFormed_of_decode h 0 _ rfl).2⟩

end File
end AmigaHunk
