import AmigaHunk.Proofs.File.Section
import AmigaHunk.Proofs.Grammar.Skipped

/-! Object files one behind the other. The unit that opens the second is a block of the first, which
ends the hunk that is open there, so that the hunks of both come out, numbered through. -/
namespace AmigaHunk

namespace Grammar

/-- The mask of the first block is wider than that of the blocks behind it. -/
theorem low29_of_low30 {tag : UInt32} (h : Word.low30 tag = Tag.unit.number) :
    Word.low29 tag = Tag.unit.number := by
  have hunit : Tag.unit.number < 0x20000000 := by decide
  simp only [Word.low30, Word.low29] at h ⊢
  omega

theorem Opening.eq_of_object {b : List UInt8} {opening : AmigaHunk.Opening}
    (h : Opening b opening) (hkind : opening.kind = .object) : opening = ⟨.object, []⟩ := by
  cases h with
  | header => cases hkind
  | unit => rfl

/-- What opens an object file is a unit block wherever it stands. -/
theorem Opening.block {b : List UInt8} (h : Opening b ⟨.object, []⟩) (kind : FileKind)
    (isOpen : Bool) : Block kind isOpen b .unit := by
  cases h with
  | unit tag ht htext => exact .mk tag (.unit (low29_of_low30 ht) htext)

variable {a b : List UInt8} {xs ys : List AmigaHunk.Block} {isOpen isOpen' : Bool}

theorem File.eq_of_object {opening : AmigaHunk.Opening} (h : File opening xs isOpen a)
    (hkind : opening.kind = .object) : opening = ⟨.object, []⟩ := by
  cases h with
  | mk hopening _ => exact hopening.eq_of_object hkind

/-- Two object files are one, in which the second opening has become a block. -/
theorem File.append (ha : File ⟨.object, []⟩ xs isOpen a) (hb : File ⟨.object, []⟩ ys isOpen' b) :
    File ⟨.object, []⟩ (xs ++ .unit :: ys) isOpen' (a ++ b) := by
  cases ha with
  | mk hopening hxs =>
    cases hb with
    | mk hopening' hys =>
      rw [List.append_assoc]
      exact .mk hopening (hxs.append (.cons ⟨hopening'.block .object isOpen, rfl⟩ hys))

end Grammar

namespace File
variable {a b : List UInt8} {as bs : List Hunk}

/-- The blocks behind the opening of a file. -/
def blocksOf (bytes : List UInt8) : List Block :=
  match Opening.read (.start bytes) with
  | ⟨.ok opening, c, _⟩ => match (readBlocks opening c).result with
    | .ok blocks => blocks
    | .error _ => []
  | ⟨.error _, _, _⟩ => []

theorem blocksOf_of_file {opening : Opening} {blocks : List Block} {isOpen : Bool}
    {bytes : List UInt8} (h : Grammar.File opening blocks isOpen bytes) :
    blocksOf bytes = blocks := by
  obtain ⟨c, ws, c', ws', hopening, hblocks⟩ := readBlocks_of_file h
  simp only [blocksOf, hopening, hblocks]

/-- Nothing of a hunk depends on its place but its number, if no header declares it. -/
theorem hunks_append_unit {opening : Opening} (hdeclared : opening.declared = [])
    {xs : List Block} (hnames : Block.namesUsed xs = true) (ys : List Block) :
    hunks opening (xs ++ .unit :: ys) = hunks opening xs ++
      (hunks opening ys).map fun h => { h with id := h.id + (hunks opening xs).length } := by
  simp only [hunks, hdeclared, List.getElem?_nil, Section.ofBlocks_unit hnames, ite_self,
    List.mapIdx_append, List.length_mapIdx]
  congr 1
  refine List.ext_getElem? fun i => ?_
  rw [List.getElem?_mapIdx, List.getElem?_map, List.getElem?_mapIdx, Option.map_map]
  rfl

/-- Two object files decode together to what each of them decodes to, with the hunks of the second
numbered behind those of the first, if each name in the first has come to a hunk there. -/
theorem decode_append_object (ha : (decode a).result = .ok as) (hb : (decode b).result = .ok bs)
    (hkind : kindOf a = .object) (hkind' : kindOf b = .object)
    (hnames : Block.namesUsed (blocksOf a) = true) :
    (decode (a ++ b)).result = .ok (as ++ bs.map fun h => { h with id := h.id + as.length }) := by
  obtain ⟨opening, xs, isOpen, hfile, rfl⟩ := file_of_decode ha
  obtain ⟨opening', ys, isOpen', hfile', rfl⟩ := file_of_decode hb
  rw [kindOf_of_file hfile] at hkind
  rw [kindOf_of_file hfile'] at hkind'
  rw [blocksOf_of_file hfile] at hnames
  obtain rfl := hfile.eq_of_object hkind
  obtain rfl := hfile'.eq_of_object hkind'
  rw [decode_of_file (hfile.append hfile'), hunks_append_unit rfl hnames]

/-- A unit with a code hunk that has a name and that nothing closes. -/
def openUnit : List UInt8 := [0x3E7, 0, 0x3E8, 1, 0x61000000, 0x3E9, 0].flatMap Word.bytes

/-- A unit with a hunk that is closed. -/
def closedUnit : List UInt8 := [0x3E7, 0, 0x3EB, 2, 0x3F2].flatMap Word.bytes

theorem decode_append_closedUnit : (decode (openUnit ++ closedUnit)).result = .ok
    [⟨0, .code, .any, 0, some "a", some [], none, none⟩,
      ⟨1, .bss, .any, 8, none, none, none, none⟩] := by
  have ha : (decode openUnit).result = .ok [⟨0, .code, .any, 0, some "a", some [], none, none⟩] := by
    decide +kernel
  have hb : (decode closedUnit).result = .ok [⟨0, .bss, .any, 8, none, none, none, none⟩] := by
    decide +kernel
  exact decode_append_object ha hb (by decide +kernel) (by decide +kernel) (by decide +kernel)

end File
end AmigaHunk
