import AmigaHunk.Proofs.File.Section
import AmigaHunk.Proofs.Grammar.FileDecoder

/-! How much a file decodes to. Each record of a hunk is charged to bytes of its own in the block
that brings it, so that no number in a file makes more records than the file has bytes for. -/
namespace AmigaHunk

/-- What a table costs at least: twenty bytes up to its entries, and two for each of them. -/
def LineTable.charge (t : LineTable) : Nat := 20 + 2 * t.entries.length

/-- What symbols and tables cost together. -/
def recordCharge (symbols : List Symbol) (tables : List LineTable) : Nat :=
  12 * symbols.length + (tables.map LineTable.charge).sum

/-- What a block brings to the hunk that is open. -/
def Block.addedCharge (block : Block) : Nat := recordCharge block.symbolList block.tableList

/-- What a block costs: a segment block its payload, and two longwords for the hunk it opens. -/
def Block.charge : Block → Nat
  | segment _ _ _ payload => 8 + payload.length
  | block => block.addedCharge

def Section.charge (s : Section) : Nat :=
  8 + s.payload.length + recordCharge s.symbols s.tables

def Hunk.charge (h : Hunk) : Nat :=
  8 + (h.code.getD []).length + recordCharge h.symbolList h.tableList

namespace Grammar

theorem SymbolEntry.twelve_le {b : List UInt8} {s : Symbol} (h : SymbolEntry b (some s)) :
    12 ≤ b.length := by
  cases h with
  | symbol w offset h0 h =>
    simp only [List.length_append, Word.length_bytes, h]
    omega

theorem Entries.two_mul_le {base : UInt32} {layout : LineTable.Layout} {b : List UInt8}
    {entries : List LineEntry} (h : Entries base layout b entries) :
    2 * entries.length ≤ b.length := by
  cases h with
  | pairs h hx =>
    have hlength := h.length_pairs
    rw [List.length_append]
    omega
  | deltas count h hn =>
    have hlength := h.length_le fun _ _ _ _ => Move.two_le
    simp only [List.length_append]
    omega

/-- Eight bytes of the charge stand in front of the payload, the tag of the block and its length. -/
theorem Payload.charge_le {b : List UInt8} {t : LineTable} (h : Payload b (some t)) :
    t.charge ≤ 8 + b.length := by
  cases h with
  | @table base layout text rest name entries ht he =>
    have hname := ht.four_le
    have hentries := he.two_mul_le
    have hsort := (LineTable.sort_perm entries).length_eq
    simp only [LineTable.charge, LineTable.ofEntries, List.length_append, Word.length_bytes]
    omega

/-- Four bytes of the charge stand in front, the tag. -/
theorem Body.charge_le {kind : FileKind} {isOpen : Bool} {tag : UInt32} {b : List UInt8}
    {block : AmigaHunk.Block} (h : Body kind isOpen tag b block) : block.charge ≤ 4 + b.length := by
  cases h with
  | segment k _ size hm hp =>
    simp only [AmigaHunk.Block.charge, List.length_append, Word.length_bytes]
    omega
  | symbols _ _ h =>
    have hlength := h.length_le fun _ _ => SymbolEntry.twelve_le
    simp only [AmigaHunk.Block.charge, AmigaHunk.Block.addedCharge, recordCharge,
      AmigaHunk.Block.symbolList, AmigaHunk.Block.tableList, List.map_nil, List.sum_nil]
    omega
  | @debug _ _ _ payload table hc hp =>
    cases table with
    | none => exact Nat.zero_le _
    | some t =>
      have hcharge := hp.charge_le
      cases hc with
      | mk longs _ =>
        simp only [AmigaHunk.Block.charge, AmigaHunk.Block.addedCharge, recordCharge,
          AmigaHunk.Block.symbolList, AmigaHunk.Block.tableList, List.map_cons, List.map_nil,
          List.sum_cons, List.sum_nil, List.length_nil, List.length_append, Word.length_bytes]
        omega
  | _ => exact Nat.zero_le _

theorem Block.charge_le {kind : FileKind} {isOpen : Bool} {b : List UInt8}
    {block : AmigaHunk.Block} (h : Block kind isOpen b block) : block.charge ≤ b.length := by
  cases h with
  | mk tag h =>
    rw [List.length_append, Word.length_bytes]
    exact h.charge_le

theorem File.charge_le {opening : AmigaHunk.Opening} {blocks : List AmigaHunk.Block}
    {isOpen : Bool} {b : List UInt8} (h : File opening blocks isOpen b) :
    8 + (blocks.map AmigaHunk.Block.charge).sum ≤ b.length := by
  cases h with
  | mk ho hb =>
    have hblocks := hb.sum_le fun _ _ _ _ h => h.1.charge_le
    rw [List.length_append]
    exact Nat.add_le_add ho.eight_le hblocks

end Grammar

theorem recordCharge_append (symbols symbols' : List Symbol) (tables tables' : List LineTable) :
    recordCharge (symbols ++ symbols') (tables ++ tables') =
      recordCharge symbols tables + recordCharge symbols' tables' := by
  simp only [recordCharge, List.length_append, List.map_append, List.sum_append]
  omega

/-- What blocks bring to a hunk that is open in front of them. -/
def frontCharge (blocks : List Block) : Nat :=
  ((blocks.takeWhile (!·.endsSection)).map Block.addedCharge).sum

theorem frontCharge_of_ends {block : Block} (h : block.endsSection = true) (blocks : List Block) :
    frontCharge (block :: blocks) = 0 := by
  simp [frontCharge, h]

theorem frontCharge_of_not_ends {block : Block} (h : block.endsSection = false)
    (blocks : List Block) :
    frontCharge (block :: blocks) = block.addedCharge + frontCharge blocks := by
  simp [frontCharge, h]

theorem sum_addedCharge (blocks : List Block) : (blocks.map Block.addedCharge).sum =
    recordCharge (blocks.flatMap Block.symbolList) (blocks.flatMap Block.tableList) := by
  induction blocks with
  | nil => rfl
  | cons block blocks ih =>
    rw [List.map_cons, List.sum_cons, ih, List.flatMap_cons, List.flatMap_cons,
      recordCharge_append, Block.addedCharge]

namespace Section

/-- The blocks of the grammar pay for all sections, and in front of the first one for a hunk that is
open. The induction needs this: the blocks behind a segment are in front of the next one. -/
theorem sum_charge_ofBlocks (pending : Option String) (blocks : List Block) :
    ((ofBlocks pending blocks).map charge).sum + frontCharge blocks ≤
      (blocks.map Block.charge).sum := by
  induction blocks generalizing pending with
  | nil => exact Nat.le_refl 0
  | cons block blocks ih =>
    rw [List.map_cons, List.sum_cons]
    cases block with
    | segment kind memory size payload =>
      -- What was in front of the next section is what this one takes up.
      have hown : frontCharge blocks = _ := sum_addedCharge (blocks.takeWhile (!·.endsSection))
      have hmore := ih none
      rw [frontCharge_of_ends rfl, ofBlocks, List.map_cons, List.sum_cons, charge, ← hown]
      simp only [Block.charge]
      omega
    | close | unit =>
      have hmore := ih pending
      rw [frontCharge_of_ends rfl]
      simp only [ofBlocks]
      omega
    | name text =>
      have hmore := ih (some text)
      rw [frontCharge_of_not_ends rfl]
      simp only [ofBlocks, Block.charge]
      omega
    | _ =>
      have hmore := ih pending
      rw [frontCharge_of_not_ends rfl]
      simp only [ofBlocks, Block.charge]
      omega

theorem charge_toHunk_le (s : Section) (id : Nat) (declared : Option HeaderEntry) :
    (s.toHunk id declared).charge ≤ s.charge := by
  have hcode : ((s.toHunk id declared).code.getD []).length ≤ s.payload.length := by
    by_cases hkind : s.kind = .code <;> simp [toHunk, hkind]
  have hsymbols : (s.toHunk id declared).symbolList = s.symbols := getD_nonempty? s.symbols
  have htables : (s.toHunk id declared).tableList = s.tables := getD_nonempty? s.tables
  rw [Hunk.charge, charge, hsymbols, htables]
  omega

theorem sum_charge_mapIdx_le {f : Nat → Section → Hunk} (hf : ∀ i s, (f i s).charge ≤ s.charge)
    (sections : List Section) :
    ((sections.mapIdx f).map Hunk.charge).sum ≤ (sections.map charge).sum := by
  induction sections generalizing f with
  | nil => exact Nat.le_refl 0
  | cons s sections ih =>
    rw [List.mapIdx_cons, List.map_cons, List.map_cons, List.sum_cons, List.sum_cons]
    exact Nat.add_le_add (hf 0 s) (ih fun i => hf (i + 1))

end Section

namespace File

theorem sum_charge_hunks_le (opening : Opening) (blocks : List Block) :
    ((hunks opening blocks).map Hunk.charge).sum ≤ (blocks.map Block.charge).sum := by
  calc ((hunks opening blocks).map Hunk.charge).sum
      ≤ ((Section.ofBlocks none blocks).map Section.charge).sum :=
        Section.sum_charge_mapIdx_le (fun i s => s.charge_toHunk_le i _) _
    _ ≤ (blocks.map Block.charge).sum :=
        (Nat.le_add_right _ _).trans (Section.sum_charge_ofBlocks none blocks)

/-- The opening block of a file pays for itself, and each other block for what it brings. -/
theorem sum_charge_le {bytes : List UInt8} {hs : List Hunk} (h : (decode bytes).result = .ok hs) :
    8 + (hs.map Hunk.charge).sum ≤ bytes.length := by
  obtain ⟨opening, blocks, isOpen, hfile, rfl⟩ := file_of_decode h
  exact (Nat.add_le_add_left (sum_charge_hunks_le opening blocks) 8).trans hfile.charge_le

theorem sum_charge_eq (hs : List Hunk) : (hs.map Hunk.charge).sum =
    8 * hs.length + (hs.flatMap fun h => h.code.getD []).length +
      12 * (hs.flatMap Hunk.symbolList).length + 20 * (hs.flatMap Hunk.tableList).length +
        2 * ((hs.flatMap Hunk.tableList).flatMap LineTable.entries).length := by
  have htables : ∀ tables : List LineTable, (tables.map LineTable.charge).sum =
      20 * tables.length + 2 * (tables.flatMap LineTable.entries).length := by
    intro tables
    induction tables with
    | nil => rfl
    | cons t tables ih =>
      simp only [List.map_cons, List.sum_cons, ih, LineTable.charge, List.length_cons,
        List.flatMap_cons, List.length_append]
      omega
  induction hs with
  | nil => rfl
  | cons h hs ih =>
    simp only [List.map_cons, List.sum_cons, ih, Hunk.charge, recordCharge, htables,
      List.length_cons, List.flatMap_cons, List.length_append, List.flatMap_append]
    omega

/-- Whatever numbers a file states, it decodes to no more records than it has bytes for. -/
theorem decoded_length_le {bytes : List UInt8} {hs : List Hunk}
    (h : (decode bytes).result = .ok hs) :
    8 + 8 * hs.length + (hs.flatMap fun h => h.code.getD []).length +
      12 * (hs.flatMap Hunk.symbolList).length + 20 * (hs.flatMap Hunk.tableList).length +
        2 * ((hs.flatMap Hunk.tableList).flatMap LineTable.entries).length ≤ bytes.length := by
  have hcharge := sum_charge_le h
  rw [sum_charge_eq] at hcharge
  omega

/-- Two longwords of code, with a symbol and a table of three entries, each in two bytes. -/
def packedLines : List UInt8 :=
  [0x3E7, 0, 0x3E9, 2, 0x4E714E71, 0x4E714E75, 0x3F0, 1, 0x6D61696E, 0, 0,
    0x3F1, 7, 0, 0x48434C4E, 1, 0x612E6300, 3, 0x07020102, 0x01020000].flatMap Word.bytes

def packedHunk : Hunk :=
  ⟨0, .code, .any, 8, none, some [0x4E, 0x71, 0x4E, 0x71, 0x4E, 0x71, 0x4E, 0x75],
    some [⟨"main", 0⟩], some [⟨"a.c", [⟨2, 7⟩, ⟨4, 8⟩, ⟨6, 9⟩]⟩]⟩

theorem decoded_length_packedLines : (decode packedLines).result = .ok [packedHunk] ∧
    8 + 8 * [packedHunk].length + ([packedHunk].flatMap fun h => h.code.getD []).length +
      12 * ([packedHunk].flatMap Hunk.symbolList).length +
        20 * ([packedHunk].flatMap Hunk.tableList).length +
          2 * (([packedHunk].flatMap Hunk.tableList).flatMap LineTable.entries).length ≤
            packedLines.length := by
  have h : (decode packedLines).result = .ok [packedHunk] := by decide +kernel
  exact ⟨h, decoded_length_le h⟩

end File
end AmigaHunk
