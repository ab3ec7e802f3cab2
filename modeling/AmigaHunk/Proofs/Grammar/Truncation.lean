import AmigaHunk.Proofs.File.Section
import AmigaHunk.Proofs.Grammar.Faults
import AmigaHunk.Proofs.Grammar.Unique

/-! Files that are cut short. They decode only where a block ends, and then to what the blocks
before that place say. -/
namespace AmigaHunk
open Decoder

namespace Grammar

/-- Places in a file where its opening or a block behind it ends. -/
inductive Boundary : List UInt8 → Nat → Prop where
  | mk {first before after : List UInt8} {opening : AmigaHunk.Opening}
    {blocks more : List AmigaHunk.Block} {isOpen isOpen' : Bool} (ho : Opening first opening)
    (hb : Blocks opening.kind false before blocks isOpen)
    (ha : Blocks opening.kind isOpen after more isOpen') :
    Boundary (first ++ (before ++ after)) (first.length + before.length)

/-- What ends at such a place is a file of its own. -/
theorem Boundary.exists_file {bytes : List UInt8} {n : Nat} (h : Boundary bytes n) :
    ∃ opening blocks isOpen, File opening blocks isOpen (bytes.take n) := by
  cases h with
  | @mk first before after _ _ _ _ _ ho hb ha =>
    have htake : (first ++ (before ++ after)).take (first.length + before.length) =
        first ++ before := by
      rw [← List.append_assoc, ← List.length_append, List.take_left]
    rw [htake]
    exact ⟨_, _, _, .mk ho hb⟩

theorem File.boundary {left rest : List UInt8} {opening : AmigaHunk.Opening}
    {blocks more : List AmigaHunk.Block} {isOpen isOpen' : Bool} (h : File opening blocks isOpen left)
    (hmore : Blocks opening.kind isOpen rest more isOpen') : Boundary (left ++ rest) left.length := by
  cases h with
  | mk ho hb =>
    rw [List.append_assoc, List.length_append]
    exact .mk ho hb hmore

/-- A file starts with a header or a unit. -/
theorem File.low30_tag {tag : UInt32} {rest : List UInt8} {opening : AmigaHunk.Opening}
    {blocks : List AmigaHunk.Block} {isOpen : Bool}
    (h : File opening blocks isOpen (Word.bytes tag ++ rest)) :
    Word.low30 tag = Tag.header.number ∨ Word.low30 tag = Tag.unit.number := by
  generalize hbytes : Word.bytes tag ++ rest = bytes at h
  cases h with
  | mk ho hb =>
    cases ho with
    | header first ht =>
      rw [List.append_assoc] at hbytes
      obtain rfl := Word.bytes_append_inj hbytes
      exact .inl ht
    | unit first ht =>
      rw [List.append_assoc] at hbytes
      obtain rfl := Word.bytes_append_inj hbytes
      exact .inr ht

end Grammar

/-- The second hunk is the first one, perhaps with more symbols and tables behind its own. -/
structure Hunk.Continues (h h' : Hunk) : Prop where
  id_eq : h'.id = h.id
  kind_eq : h'.kind = h.kind
  memory_eq : h'.memory = h.memory
  size_eq : h'.size = h.size
  name_eq : h'.name = h.name
  code_eq : h'.code = h.code
  symbols_prefix : h.symbolList <+: h'.symbolList
  tables_prefix : h.tableList <+: h'.tableList

namespace Section

theorem Continues.toHunk {s s' : Section} (h : s.Continues s') (id : Nat)
    (declared : Option HeaderEntry) : (s.toHunk id declared).Continues (s'.toHunk id declared) where
  id_eq := rfl
  kind_eq := h.kind_eq
  memory_eq := by
    simp only [Section.toHunk, h.memory_eq]
  size_eq := by
    simp only [Section.toHunk, h.size_eq]
  name_eq := h.name_eq
  code_eq := by
    simp only [Section.toHunk, h.kind_eq, h.payload_eq]
  symbols_prefix := by
    simpa only [Hunk.symbolList, Section.toHunk, getD_nonempty?] using h.symbols_prefix
  tables_prefix := by
    simpa only [Hunk.tableList, Section.toHunk, getD_nonempty?] using h.tables_prefix

end Section

namespace File
variable {opening : Opening} {bytes : List UInt8}

/-- Further blocks may continue the last hunk, and no other. -/
theorem hunks_append {xs : List Block} (ys : List Block) {i : Nat} {h : Hunk}
    (hget : (hunks opening xs)[i]? = some h) :
    ∃ h', (hunks opening (xs ++ ys))[i]? = some h' ∧ h.Continues h' ∧
      (i + 1 < (hunks opening xs).length → h' = h) := by
  rw [hunks, List.getElem?_mapIdx] at hget
  obtain ⟨s, hs, rfl⟩ := Option.map_eq_some_iff.1 hget
  obtain ⟨s', hs', hcontinues, hlast⟩ := Section.ofBlocks_append none xs ys hs
  refine ⟨s'.toHunk i opening.declared[i]?, ?_, hcontinues.toHunk i _, fun hi => ?_⟩
  · rw [hunks, List.getElem?_mapIdx, hs']
    rfl
  · rw [hunks, List.length_mapIdx] at hi
    rw [hlast hi]

theorem length_hunks_append (opening : Opening) (xs ys : List Block) :
    (hunks opening xs).length ≤ (hunks opening (xs ++ ys)).length := by
  cases hlast : (hunks opening xs).getLast? with
  | none =>
    rw [List.getLast?_eq_none_iff.1 hlast]
    exact Nat.zero_le _
  | some h =>
    rw [List.getLast?_eq_getElem?] at hlast
    obtain ⟨h', hget, -⟩ := hunks_append ys hlast
    have := (List.getElem?_eq_some_iff.1 hget).1
    omega

/-- The first bytes of a file decode exactly if a block ends behind them, and else have a fault. All
hunks that they give but the last are those of the file, and the last one is the beginning of it. -/
theorem decode_take {hs : List Hunk} {n : Nat} (h : (decode bytes).result = .ok hs)
    (hn : n ≤ bytes.length) :
    ((∃ hs', (decode (bytes.take n)).result = .ok hs') ↔ Grammar.Boundary bytes n) ∧
    (¬Grammar.Boundary bytes n →
      ∃ offset fault, (decode (bytes.take n)).result = .error (.malformed offset fault)) ∧
    ∀ hs', (decode (bytes.take n)).result = .ok hs' → hs'.length ≤ hs.length ∧
      ∀ i h', hs'[i]? = some h' → ∃ h, hs[i]? = some h ∧ h'.Continues h ∧
        (i + 1 < hs'.length → h = h') := by
  obtain ⟨opening, blocks, isOpen, hfile, rfl⟩ := file_of_decode h
  rw [← List.take_append_drop n bytes] at hfile
  have hcut : ∀ hs', (decode (bytes.take n)).result = .ok hs' → Grammar.Boundary bytes n ∧
      ∃ before more, hs' = hunks opening before ∧ blocks = before ++ more := by
    intro hs' h'
    obtain ⟨opening', before, isOpen', hfile', rfl⟩ := file_of_decode h'
    obtain ⟨rfl, more, rfl, hmore⟩ := hfile'.exists_more hfile
    have hboundary := hfile'.boundary hmore
    rw [List.take_append_drop, List.length_take_of_le hn] at hboundary
    exact ⟨hboundary, before, more, rfl, rfl⟩
  have haccepts : (∃ hs', (decode (bytes.take n)).result = .ok hs') ↔ Grammar.Boundary bytes n :=
    ⟨fun ⟨hs', h'⟩ => (hcut hs' h').1, fun hb => (accepts_iff_file _).2 hb.exists_file⟩
  refine ⟨haccepts, fun hnot => ?_, fun hs' h' => ?_⟩
  · cases hresult : (decode (bytes.take n)).result with
    | ok hs' => exact absurd (haccepts.1 ⟨hs', hresult⟩) hnot
    | error e =>
      cases isFault_or_unknown hresult with
      | inl hfault =>
        obtain ⟨offset, fault, rfl⟩ := hfault
        exact ⟨offset, fault, rfl⟩
      | inr hunknown =>
        obtain ⟨tag, rest, htake, hheader, hunit⟩ := hunknown
        rw [htake, List.append_assoc] at hfile
        cases hfile.low30_tag with
        | inl ht => exact absurd ht hheader
        | inr ht => exact absurd ht hunit
  · obtain ⟨-, before, more, rfl, rfl⟩ := hcut hs' h'
    exact ⟨length_hunks_append opening before more, fun i h' hget => hunks_append more hget⟩

/-- Two code hunks, of which the first has two symbol blocks. -/
def twoHunks : List UInt8 :=
  [0x3F3, 0, 2, 0, 1, 0, 0, 0x3E9, 0, 0x3F0, 1, 0x61000000, 0, 0, 0x3F0, 1, 0x62000000, 0, 0,
    0x3E9, 0].flatMap Word.bytes

/-- The first symbol block ends behind 56 bytes. -/
theorem decode_take_twoHunks : ∃ hs, (decode twoHunks).result = .ok hs ∧
    56 ≤ twoHunks.length ∧ Grammar.Boundary twoHunks 56 ∧
    (∃ h, hs[0]? = some h ∧
      (Hunk.mk 0 .code .any 0 none (some []) (some [⟨"a", 0⟩]) none).Continues h) ∧
    57 ≤ twoHunks.length ∧ ¬Grammar.Boundary twoHunks 57 := by
  have h : (decode twoHunks).result = .ok
      [⟨0, .code, .any, 0, none, some [], some [⟨"a", 0⟩, ⟨"b", 0⟩], none⟩,
        ⟨1, .code, .any, 0, none, some [], none, none⟩] := by decide +kernel
  have hcut : (decode (twoHunks.take 56)).result = .ok
      [⟨0, .code, .any, 0, none, some [], some [⟨"a", 0⟩], none⟩] := by decide +kernel
  have hshort : (decode (twoHunks.take 57)).result =
      .error (.malformed 56 (.short 4 1)) := by decide +kernel
  have h56 : 56 ≤ twoHunks.length := by decide
  have h57 : 57 ≤ twoHunks.length := by decide
  obtain ⟨hiff, -, hhunks⟩ := decode_take h h56
  obtain ⟨first, hget, hcontinues, -⟩ := (hhunks _ hcut).2 0 _ rfl
  refine ⟨_, h, h56, hiff.1 ⟨_, hcut⟩, ⟨first, hget, hcontinues⟩, h57, fun hb => ?_⟩
  obtain ⟨hs', h'⟩ := (decode_take h h57).1.2 hb
  rw [hshort] at h'
  cases h'

end File
end AmigaHunk
