import AmigaHunk.Proofs.Grammar.Shift

/-! Blocks that leave no trace. Put behind any file that decodes, such a block changes nothing in
what comes of the bytes behind it, apart from the offsets of errors. -/
namespace AmigaHunk
open Decoder

/-- Whether a block says nothing of any hunk. -/
def Block.isTraceless : Block → Bool
  | skipped | debug none => true
  | _ => false

/-- The bytes of a block that is only stepped over, or of debug data other than a line table. -/
inductive Grammar.Skippable (kind : FileKind) (isOpen : Bool) (bytes : List UInt8) : Prop where
  | skipped (h : Grammar.Block kind isOpen bytes .skipped)
  | debug (h : Grammar.Block kind isOpen bytes (.debug none))

theorem Grammar.Skippable.exists_block {kind : FileKind} {isOpen : Bool} {bytes : List UInt8}
    (h : Skippable kind isOpen bytes) :
    ∃ block : AmigaHunk.Block, block.isTraceless = true ∧ Block kind isOpen bytes block := by
  cases h with
  | skipped h => exact ⟨.skipped, rfl, h⟩
  | debug h => exact ⟨.debug none, rfl, h⟩

theorem Progress.after_of_isTraceless {block : Block} (h : block.isTraceless = true)
    (p : Progress) : p.after block = p := by
  cases block <;> simp_all [Block.isTraceless, after]

namespace Section
variable {block : Block} {xs ys : List Block}

theorem ofBlocks_cons_of_isTraceless (h : block.isTraceless = true) (pending : Option String) :
    ofBlocks pending (block :: ys) = ofBlocks pending ys := by
  cases block with
  | skipped => rfl
  | debug table => rfl
  | _ => simp [Block.isTraceless] at h

/-- What the blocks of one hunk say together does not change either. -/
theorem flatMap_takeWhile_insert {α : Type} (f : Block → List α) (hf : f block = [])
    (h : block.endsSection = false) :
    ((xs ++ block :: ys).takeWhile (!·.endsSection)).flatMap f =
      ((xs ++ ys).takeWhile (!·.endsSection)).flatMap f := by
  induction xs with
  | nil => simp [h, hf]
  | cons x xs ih =>
    cases hx : x.endsSection with
    | true => simp [hx]
    | false => simpa [hx] using ih

theorem ofBlocks_insert (h : block.isTraceless = true) (pending : Option String) :
    ofBlocks pending (xs ++ block :: ys) = ofBlocks pending (xs ++ ys) := by
  induction xs generalizing pending with
  | nil => exact ofBlocks_cons_of_isTraceless h pending
  | cons x xs ih =>
    have he : block.endsSection = false ∧ block.symbolList = [] ∧ block.tableList = [] := by
      cases block with
      | skipped => exact ⟨rfl, rfl, rfl⟩
      | debug table =>
        cases table with
        | none => exact ⟨rfl, rfl, rfl⟩
        | some t => simp [Block.isTraceless] at h
      | _ => simp [Block.isTraceless] at h
    obtain ⟨hend, hsymbols, htables⟩ := he
    cases x with
    | segment kind memory size payload =>
      simp only [List.cons_append, ofBlocks, ih, flatMap_takeWhile_insert _ hsymbols hend,
        flatMap_takeWhile_insert _ htables hend]
    | name n => simpa only [List.cons_append, ofBlocks] using ih (some n)
    | _ => simpa only [List.cons_append, ofBlocks] using ih pending

end Section

namespace File
variable {opening : Opening} {blocks : List Block} {isOpen : Bool} {bytes : List UInt8}

theorem hunks_insert {block : Block} (h : block.isTraceless = true) (opening : Opening)
    (xs ys : List Block) : hunks opening (xs ++ block :: ys) = hunks opening (xs ++ ys) := by
  rw [hunks, hunks, Section.ofBlocks_insert h]

/-- The kind of a file that starts with these bytes. -/
def kindOf (bytes : List UInt8) : FileKind :=
  if Word.low30 (UInt32.ofNat (bigEndian (bytes.take 4))) = Tag.unit.number then .object else .load

/-- Whether a hunk is open where the bytes end. -/
def endsOpen (bytes : List UInt8) : Bool :=
  match Opening.read (.start bytes) with
  | ⟨.ok opening, c, _⟩ => match (readBlocks opening c).result with
    | .ok blocks => (blocks.foldl Progress.after .start).current.isSome
    | .error _ => false
  | ⟨.error _, _, _⟩ => false

theorem kindOf_append (tag : UInt32) (b : List UInt8) : kindOf (Word.bytes tag ++ b) =
    if Word.low30 tag = Tag.unit.number then .object else .load := by
  rw [kindOf, List.take_left' (Word.length_bytes tag), Word.ofNat_bigEndian_bytes]

theorem kindOf_of_file (h : Grammar.File opening blocks isOpen bytes) :
    kindOf bytes = opening.kind := by
  cases h with
  | mk ho hb =>
    cases ho with
    | header tag ht first last hl hr hs hn he =>
      rw [List.append_assoc, kindOf_append, ht]
      rfl
    | unit tag ht h =>
      rw [List.append_assoc, kindOf_append, if_pos ht]

theorem endsOpen_of_file (h : Grammar.File opening blocks isOpen bytes) :
    endsOpen bytes = isOpen := by
  obtain ⟨c, ws, c', ws', hopening, hblocks⟩ := readBlocks_of_file h
  simp only [endsOpen, hopening, hblocks]
  cases h with
  | mk _ hb => exact Progress.isSome_foldl_after rfl hb

/-- Skippable blocks are invisible behind any file that decodes. -/
theorem decode_append_skippable {hs : List Hunk} {s : List UInt8}
    (h : (decode bytes).result = .ok hs)
    (hskip : Grammar.Skippable (kindOf bytes) (endsOpen bytes) s) (rest : List UInt8) :
    (decode (bytes ++ s ++ rest)).result =
      (decode (bytes ++ rest)).result.mapError (·.shift s.length) := by
  obtain ⟨opening, blocks, isOpen, hfile, -⟩ := file_of_decode h
  rw [kindOf_of_file hfile, endsOpen_of_file hfile] at hskip
  obtain ⟨block, htrace, hblock⟩ := hskip.exists_block
  have hopen : (blocks.foldl Progress.after .start).current.isSome = isOpen := by
    cases hfile with
    | mk _ hb => exact Progress.isSome_foldl_after rfl hb
  subst hopen
  have hlength := hblock.dvd_length
  obtain ⟨ws, hread⟩ :=
    blocksFrom_of_reads ((Block.reads_read hfile.dvd_length).2 hblock)
  rw [Progress.after_of_isTraceless htrace] at hread
  have hshift := (Uniform.shifts hlength :
    Shifts s.length (blocksFrom opening (blocks.foldl Progress.after .start)) _)
    ⟨bytes.length, rest⟩
  rw [List.append_assoc, result_append hfile, result_append hfile, hread]
  rw [Cursor.shift] at hshift
  rw [hshift]
  cases blocksFrom opening (blocks.foldl Progress.after .start) ⟨bytes.length, rest⟩ with
  | mk result c ws' =>
    cases result with
    | error e => rfl
    | ok more => exact congrArg Except.ok (hunks_insert htrace opening blocks more)

/-- A code hunk of no bytes, still open. -/
def openCode : List UInt8 := [0x3F3, 0, 1, 0, 0, 0, 0x3E9, 0].flatMap Word.bytes

/-- Debug data of no bytes. -/
def emptyDebug : List UInt8 := Word.bytes 0x3F1 ++ (Word.bytes 0 ++ [])

theorem decode_append_emptyDebug : ∃ hs, (decode openCode).result = .ok hs ∧
    Grammar.Skippable (kindOf openCode) (endsOpen openCode) emptyDebug ∧
    ∀ rest, (decode (openCode ++ emptyDebug ++ rest)).result =
      (decode (openCode ++ rest)).result.mapError (·.shift emptyDebug.length) := by
  have h : (decode openCode).result = .ok [⟨0, .code, .any, 0, none, some [], none, none⟩] := by
    decide +kernel
  have hskip : Grammar.Skippable (kindOf openCode) (endsOpen openCode) emptyDebug := by
    have hk : kindOf openCode = .load := by decide +kernel
    have ho : endsOpen openCode = true := by decide +kernel
    rw [hk, ho]
    exact .debug (.mk 0x3F1 (.debug rfl rfl (.mk 0 rfl) (.short (by decide))))
  exact ⟨_, h, hskip, decode_append_skippable h hskip⟩

end File
end AmigaHunk
