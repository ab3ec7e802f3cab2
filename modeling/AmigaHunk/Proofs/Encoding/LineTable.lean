import AmigaHunk.Proofs.Encoding.Grammar
import AmigaHunk.Proofs.Grammar.Faults
import AmigaHunk.Proofs.Grammar.Unique
import AmigaHunk.Proofs.LineTable.StableSort
import Mathlib.Data.List.Infix

/-! What written line tables decode to. A sum that no longword holds is a fault, and nothing else
is. -/
namespace AmigaHunk

namespace LineTable

theorem sort_of_pairwise {entries : List LineEntry} (h : entries.Pairwise (·.offset ≤ ·.offset)) :
    sort entries = entries := by
  rw [sort_eq_insertionSort, h.insertionSort_eq]

end LineTable

namespace Encoding
open Grammar

section
variable {layout : LineTable.Layout} {base : UInt32} {name : Name} {rows : List UInt8}

/-- The bytes of a table say where its name ends and its entries start. -/
theorem payload_tableBytes_iff (hname : name.bytes.length / 4 < 0x100000000)
    {t : Option LineTable} : Payload (tableBytes layout base name rows) t ↔
      ∃ entries, t = some (.ofEntries name.text entries) ∧ Entries base layout rows entries := by
  constructor
  · intro h
    generalize hbytes : tableBytes layout base name rows = bytes at h
    cases h with
    | short h =>
      rw [← hbytes, length_tableBytes] at h
      omega
    | other base' w hw =>
      obtain rfl := Word.bytes_append_inj hbytes
      obtain rfl := Word.bytes_append_inj (List.append_cancel_left hbytes)
      rw [LineTable.Layout.ofWord?_word] at hw
      cases hw
    | table base' layout' ht he =>
      obtain rfl := Word.bytes_append_inj hbytes
      replace hbytes := List.append_cancel_left hbytes
      have hword := Word.bytes_append_inj hbytes
      obtain rfl : layout = layout' := by
        have hsome := LineTable.Layout.ofWord?_word layout
        rw [hword, LineTable.Layout.ofWord?_word, Option.some.injEq] at hsome
        exact hsome.symm
      replace hbytes := List.append_cancel_left hbytes
      have htext : Decoder.Reads Decoder.text 0 (counted name.bytes) name.text :=
        Decoder.reads_text.2 (Name.text_grammar hname)
      obtain ⟨-, rfl, rfl⟩ := htext.unique (Decoder.reads_text.2 ht) hbytes
      exact ⟨_, rfl, he⟩
  · rintro ⟨entries, rfl, he⟩
    exact .table base layout (Name.text_grammar hname) he

/-- What comes of a table in a debug block whose payload starts at `start`. -/
def decodeTable (start : Nat) (layout : LineTable.Layout) (base : UInt32) (name : Name)
    (rows : List UInt8) : Except DecodeError (Option LineTable) :=
  (LineTable.read ⟨start, tableBytes layout base name rows⟩).result

/-- Where the entries are known under a condition, a table is a fault without it. -/
theorem decodeTable_of_entries_iff (hname : name.bytes.length / 4 < 0x100000000) (start : Nat)
    {entries : List LineEntry} {Fits : Prop}
    (h : ∀ es, Entries base layout rows es ↔ Fits ∧ es = entries) :
    (Fits → decodeTable start layout base name rows =
      .ok (some (.ofEntries name.text entries))) ∧
    (¬Fits → ∃ offset fault,
      decodeTable start layout base name rows = .error (.malformed offset fault)) := by
  rw [decodeTable]
  refine ⟨fun hfits => ?_, fun hnot => ?_⟩
  · have hpayload : Payload (tableBytes layout base name rows)
        (some (.ofEntries name.text entries)) :=
      (payload_tableBytes_iff hname).2 ⟨entries, rfl, (h entries).2 ⟨hfits, rfl⟩⟩
    have hfills : Decoder.Fills LineTable.read start _ _ := LineTable.fills_read.2 hpayload
    obtain ⟨c, es, hread⟩ := hfills
    rw [hread]
  · cases hread : LineTable.read ⟨start, tableBytes layout base name rows⟩ with
    | mk result c es =>
      cases result with
      | ok t =>
        have hpayload := LineTable.fills_read.1 ⟨c, es, hread⟩
        obtain ⟨entries', -, he⟩ := (payload_tableBytes_iff hname).1 hpayload
        exact absurd ((h entries').1 he).1 hnot
      | error e =>
        have hwithin : Cursor.Within ⟨start, tableBytes layout base name rows⟩ start
            (start + (tableBytes layout base name rows).length) := ⟨Nat.le_refl _, Nat.le_refl _⟩
        obtain ⟨offset, fault, rfl, -⟩ :=
          Decoder.Faulting.isFaultIn hwithin (congrArg Outcome.result hread)
        exact ⟨offset, fault, rfl⟩

end

section Pairs
variable {base : UInt32} {rows : List LineEntry}

/-- No sum of `base` and an offset wraps around. -/
def OffsetsFit (base : UInt32) (rows : List LineEntry) : Prop :=
  ∀ row ∈ rows, base.toNat + row.offset.toNat < 0x100000000

instance : Decidable (OffsetsFit base rows) :=
  inferInstanceAs (Decidable (∀ row ∈ rows, base.toNat + row.offset.toNat < 0x100000000))

/-- The entry that a pair of longwords stands for. -/
def pairEntry (base : UInt32) (row : LineEntry) : LineEntry :=
  ⟨base + row.offset, UInt32.ofNat (Word.low24 row.line)⟩

theorem pairEntry_grammar {row : LineEntry}
    (h : base.toNat + row.offset.toNat < 0x100000000) :
    Pair base (pairBytes row) (pairEntry base row) :=
  .mk row.line row.offset (by rw [Word.add?, if_pos h])

theorem entry_of_pair {row e : LineEntry} {b rest rest' : List UInt8} (h : Pair base b e)
    (hbytes : b ++ rest = pairBytes row ++ rest') :
    base.toNat + row.offset.toNat < 0x100000000 ∧ e = pairEntry base row ∧ rest = rest' := by
  cases h with
  | mk line offset hplace =>
    rw [pairBytes, List.append_assoc, List.append_assoc] at hbytes
    obtain rfl := Word.bytes_append_inj hbytes
    replace hbytes := List.append_cancel_left hbytes
    obtain rfl := Word.bytes_append_inj hbytes
    have hfits : base.toNat + row.offset.toNat < 0x100000000 :=
      Word.add?_eq_some_iff.1 hplace ▸ UInt32.toNat_lt _
    rw [Word.add?, if_pos hfits, Option.some.injEq] at hplace
    exact ⟨hfits, by rw [pairEntry, hplace], List.append_cancel_left hbytes⟩

theorem entries_of_pairs {b rest : List UInt8} {entries : List LineEntry}
    (h : Chain (fun _ b e _ => Pair base b e) () b entries ())
    (hlength : entries.length = rows.length) (hbytes : b ++ rest = rows.flatMap pairBytes) :
    OffsetsFit base rows ∧ entries = rows.map (pairEntry base) := by
  induction rows generalizing b entries with
  | nil =>
    rw [List.length_eq_zero_iff.1 hlength]
    exact ⟨nofun, rfl⟩
  | cons row rows ih =>
    cases h with
    | nil _ => cases hlength
    | cons hpair hmore =>
      rw [List.append_assoc, List.flatMap_cons] at hbytes
      obtain ⟨hfits, rfl, hrest⟩ := entry_of_pair hpair hbytes
      obtain ⟨hall, rfl⟩ := ih hmore (Nat.succ_injective hlength) hrest
      exact ⟨List.forall_mem_cons.2 ⟨hfits, hall⟩, rfl⟩

theorem length_flatMap_pairBytes (rows : List LineEntry) :
    (rows.flatMap pairBytes).length = 8 * rows.length := by
  induction rows with
  | nil => rfl
  | cons row rows ih =>
    rw [List.flatMap_cons, List.length_append, ih, List.length_cons, pairBytes, List.length_append,
      Word.length_bytes, Word.length_bytes]
    omega

theorem entries_pairs_iff {entries : List LineEntry} :
    Entries base .pairs (rows.flatMap pairBytes) entries ↔
      OffsetsFit base rows ∧ entries = rows.map (pairEntry base) := by
  constructor
  · intro h
    have hrows := length_flatMap_pairBytes rows
    generalize hbytes : rows.flatMap pairBytes = bytes at h hrows
    cases h with
    | pairs hchain hextra =>
      have hlength := hchain.length_pairs
      rw [List.length_append] at hrows
      exact entries_of_pairs hchain (by omega) hbytes.symm
  · rintro ⟨hfits, rfl⟩
    have hchain : Chain (fun _ b e _ => Pair base b e) () (rows.flatMap pairBytes)
        (rows.map (pairEntry base)) () :=
      Chain.map fun row hrow => pairEntry_grammar (hfits row hrow)
    have h := Entries.pairs hchain (by decide : ([] : List UInt8).length < 8)
    rwa [List.append_nil] at h

end Pairs

section Deltas
variable {base : UInt32} {steps : List Step} {line offset : Nat}

namespace Step

/-- How far the offset and the line have moved on behind each of the steps. -/
def totals (steps : List Step) : List (Nat × Nat) :=
  steps.inits.tail.map fun taken =>
    ((taken.map (·.offset.value)).sum, (taken.map (·.line.value)).sum)

theorem totals_cons (s : Step) (steps : List Step) : totals (s :: steps) =
    (s.offset.value, s.line.value) ::
      (totals steps).map fun p => (s.offset.value + p.1, s.line.value + p.2) := by
  have hinits : steps.inits = [] :: steps.inits.tail := by cases steps <;> rfl
  rw [totals, List.inits_cons, List.tail_cons, hinits, List.map_cons, List.map_cons, totals,
    List.map_map, List.map_map]
  rfl

theorem length_totals (steps : List Step) : (totals steps).length = steps.length := by
  rw [totals, List.length_map, List.length_tail, List.length_inits, Nat.add_sub_cancel]

theorem pairwise_totals (steps : List Step) : (totals steps).Pairwise (·.1 ≤ ·.1) := by
  induction steps with
  | nil => exact .nil
  | cons s steps ih =>
    rw [totals_cons]
    refine .cons (List.forall_mem_map.2 fun p _ => Nat.le_add_right _ _) ?_
    exact List.pairwise_map.2 (ih.imp fun h => Nat.add_le_add_left h _)

theorem entriesFrom_eq (base line offset : Nat) (steps : List Step) :
    entriesFrom base line offset steps = (totals steps).map fun p =>
      ⟨UInt32.ofNat (base + (offset + p.1)), UInt32.ofNat (line + p.2)⟩ := by
  induction steps generalizing line offset with
  | nil => rfl
  | cons s steps ih =>
    rw [entriesFrom, ih, totals_cons, List.map_cons, List.map_map]
    simp only [Function.comp_def, Nat.add_assoc]

end Step

/-- No total wraps around, not even on top of `base`. -/
def TotalsFit (base : UInt32) (steps : List Step) : Prop :=
  ∀ p ∈ Step.totals steps, base.toNat + p.1 < 0x100000000 ∧ p.2 < 0x100000000

/-- The same behind entries that have come to this line and this offset. -/
def TotalsFitFrom (base : UInt32) (line offset : Nat) (steps : List Step) : Prop :=
  ∀ p ∈ Step.totals steps, base.toNat + (offset + p.1) < 0x100000000 ∧ line + p.2 < 0x100000000

theorem totalsFitFrom_zero : TotalsFitFrom base 0 0 steps ↔ TotalsFit base steps := by
  simp only [TotalsFitFrom, TotalsFit, Nat.zero_add]

theorem totalsFitFrom_cons {s : Step} : TotalsFitFrom base line offset (s :: steps) ↔
    (base.toNat + (offset + s.offset.value) < 0x100000000 ∧ line + s.line.value < 0x100000000) ∧
      TotalsFitFrom base (line + s.line.value) (offset + s.offset.value) steps := by
  simp only [TotalsFitFrom, Step.totals_cons, List.forall_mem_cons, List.forall_mem_map,
    Nat.add_assoc]

theorem chain_of_totalsFitFrom (h : TotalsFitFrom base line offset steps) :
    ∃ last, Chain (Move base) ⟨UInt32.ofNat offset, UInt32.ofNat line⟩ (steps.flatMap Step.bytes)
      (Step.entriesFrom base.toNat line offset steps) last := by
  induction steps generalizing line offset with
  | nil => exact ⟨_, .nil _⟩
  | cons s steps ih =>
    obtain ⟨⟨hoffset, hline⟩, hmore⟩ := totalsFitFrom_cons.1 h
    obtain ⟨last, hchain⟩ := ih hmore
    exact ⟨last, .cons (Step.grammar hline hoffset) hchain⟩

theorem delta_unique {d : Delta} {b rest rest' : List UInt8} {w : UInt32} (h : Grammar.Delta b w)
    (hbytes : b ++ rest = d.bytes ++ rest') : w = UInt32.ofNat d.value ∧ rest = rest' := by
  have hread : Decoder.Reads LineTable.readDelta 0 b w := LineTable.reads_readDelta.2 h
  exact (hread.unique (LineTable.reads_readDelta.2 d.grammar) hbytes).2

theorem Delta.value_lt (d : Delta) : d.value < 0x100000000 := by
  cases d with
  | short n _ => exact n.toNat_lt.trans (by decide)
  | middle n _ => exact n.toNat_lt.trans (by decide)
  | long n => exact n.toNat_lt

theorem entry_of_move {s : Step} {e next : LineEntry} {b rest rest' : List UInt8}
    (hline : line < 0x100000000) (hoffset : offset < 0x100000000)
    (h : Move base ⟨UInt32.ofNat offset, UInt32.ofNat line⟩ b e next)
    (hbytes : b ++ rest = s.bytes ++ rest') :
    (base.toNat + (offset + s.offset.value) < 0x100000000 ∧ line + s.line.value < 0x100000000) ∧
      e = ⟨UInt32.ofNat (base.toNat + (offset + s.offset.value)),
        UInt32.ofNat (line + s.line.value)⟩ ∧
      next = ⟨UInt32.ofNat (offset + s.offset.value), UInt32.ofNat (line + s.line.value)⟩ ∧
      rest = rest' := by
  cases h with
  | @mk left right lines offsets line' offset' place hl ho hline' hoffset' hplace =>
    rw [Step.bytes, List.append_assoc, List.append_assoc] at hbytes
    obtain ⟨rfl, hbytes⟩ := delta_unique hl hbytes
    obtain ⟨rfl, hbytes⟩ := delta_unique ho hbytes
    rw [Word.add?_eq_some_iff, Word.toNat_ofNat hline, Word.toNat_ofNat s.line.value_lt] at hline'
    rw [Word.add?_eq_some_iff, Word.toNat_ofNat hoffset,
      Word.toNat_ofNat s.offset.value_lt] at hoffset'
    rw [Word.add?_eq_some_iff, hoffset'] at hplace
    have hofNat (w : UInt32) (n : Nat) (h : w.toNat = n) : w = UInt32.ofNat n := by
      rw [← h, UInt32.ofNat_toNat]
    refine ⟨⟨hplace ▸ place.toNat_lt, hline' ▸ line'.toNat_lt⟩, ?_, ?_, hbytes⟩
    · rw [hofNat _ _ hplace, hofNat _ _ hline']
    · rw [hofNat _ _ hoffset', hofNat _ _ hline']

theorem entries_of_moves {b rest rest' : List UInt8} {entries : List LineEntry} {last : LineEntry}
    (hline : line < 0x100000000) (hoffset : offset < 0x100000000)
    (h : Chain (Move base) ⟨UInt32.ofNat offset, UInt32.ofNat line⟩ b entries last)
    (hlength : entries.length = steps.length)
    (hbytes : b ++ rest = steps.flatMap Step.bytes ++ rest') :
    TotalsFitFrom base line offset steps ∧
      entries = Step.entriesFrom base.toNat line offset steps := by
  induction steps generalizing b entries line offset with
  | nil =>
    rw [List.length_eq_zero_iff.1 hlength]
    exact ⟨nofun, rfl⟩
  | cons s steps ih =>
    cases h with
    | nil _ => cases hlength
    | cons hmove hmore =>
      rw [List.append_assoc, List.flatMap_cons, List.append_assoc] at hbytes
      obtain ⟨hfits, rfl, rfl, hrest⟩ := entry_of_move hline hoffset hmove hbytes
      obtain ⟨hall, rfl⟩ :=
        ih hfits.2 (by omega) hmore (Nat.succ_injective hlength) hrest
      exact ⟨totalsFitFrom_cons.2 ⟨hfits, hall⟩, rfl⟩

/-- The entry to which an offset and a line have come. -/
def totalEntry (base : UInt32) (p : Nat × Nat) : LineEntry :=
  ⟨UInt32.ofNat (base.toNat + p.1), UInt32.ofNat p.2⟩

theorem Step.entriesFrom_zero :
    entriesFrom base.toNat 0 0 steps = (totals steps).map (totalEntry base) := by
  simp only [entriesFrom_eq, Nat.zero_add]
  rfl

/-- What a debug block holds behind the name of a table in steps. The bytes behind the steps do not
count. -/
def stepRows (steps : List Step) (padding : List UInt8) : List UInt8 :=
  Word.bytes (UInt32.ofNat steps.length) ++ (steps.flatMap Step.bytes ++ padding)

theorem entries_deltas_iff (hcount : steps.length < 0x100000000) {padding : List UInt8}
    {entries : List LineEntry} : Entries base .deltas (stepRows steps padding) entries ↔
      TotalsFit base steps ∧ entries = (Step.totals steps).map (totalEntry base) := by
  rw [← Step.entriesFrom_zero, ← totalsFitFrom_zero]
  constructor
  · intro h
    generalize hbytes : stepRows steps padding = bytes at h
    cases h with
    | deltas count hchain hn =>
      obtain rfl := Word.bytes_append_inj hbytes
      rw [Word.toNat_ofNat hcount] at hn
      exact entries_of_moves (by decide) (by decide) hchain hn (List.append_cancel_left hbytes).symm
  · rintro ⟨hfits, rfl⟩
    obtain ⟨last, hchain⟩ := chain_of_totalsFitFrom hfits
    exact .deltas _ hchain (by rw [Step.length_entriesFrom, Word.toNat_ofNat hcount])

/-- Entries in steps are in order, as no step leads back. -/
theorem sort_totals (h : TotalsFit base steps) :
    LineTable.sort ((Step.totals steps).map (totalEntry base)) =
      (Step.totals steps).map (totalEntry base) := by
  apply LineTable.sort_of_pairwise
  refine List.pairwise_map.2 ((Step.pairwise_totals steps).imp_of_mem fun hp hq hle => ?_)
  rw [totalEntry, totalEntry, UInt32.le_iff_toNat_le, Word.toNat_ofNat (h _ hp).1,
    Word.toNat_ofNat (h _ hq).1]
  exact Nat.add_le_add_left hle _

end Deltas

/-- The offset and the line of an entry, as far as steps lead to it. -/
def place (e : LineEntry) : Nat × Nat := (e.offset.toNat, e.line.toNat)

section
variable {base : UInt32} {rows : List LineEntry} {steps : List Step}

theorem totalsFit_iff (hlines : ∀ row ∈ rows, row.line.toNat < 0x1000000)
    (hsteps : Step.totals steps = rows.map place) :
    TotalsFit base steps ↔ OffsetsFit base rows := by
  rw [TotalsFit, OffsetsFit, hsteps, List.forall_mem_map]
  refine forall₂_congr fun row hrow => ?_
  have hline := hlines row hrow
  exact and_iff_left (hline.trans (by decide))

theorem map_totalEntry (hlines : ∀ row ∈ rows, row.line.toNat < 0x1000000)
    (hsteps : Step.totals steps = rows.map place) :
    (Step.totals steps).map (totalEntry base) = rows.map (pairEntry base) := by
  rw [hsteps, List.map_map]
  refine List.map_congr_left fun row hrow => ?_
  rw [Function.comp_apply, totalEntry, pairEntry, place, Word.low24,
    Nat.mod_eq_of_lt (hlines row hrow), UInt32.ofNat_add, UInt32.ofNat_toNat, UInt32.ofNat_toNat]

end

namespace Step

/-- The steps, in their widest form, that lead from the last entry on to each of the next. -/
def between (last : LineEntry) : List LineEntry → List Step
  | [] => []
  | e :: es => ⟨.long (e.line - last.line), .long (e.offset - last.offset)⟩ :: between e es

/-- Entries that never go back can be written in steps. -/
theorem totals_between {last : LineEntry} {es : List LineEntry}
    (h : (last :: es).Pairwise fun e e' => e.offset ≤ e'.offset ∧ e.line ≤ e'.line) :
    (totals (between last es)).map (fun p => (last.offset.toNat + p.1, last.line.toNat + p.2)) =
      es.map place := by
  induction es generalizing last with
  | nil => rfl
  | cons e es ih =>
    obtain ⟨hle, hes⟩ := List.pairwise_cons.1 h
    obtain ⟨hoffset, hline⟩ := hle e List.mem_cons_self
    have hoffset' : last.offset.toNat + (e.offset - last.offset).toNat = e.offset.toNat := by
      rw [UInt32.toNat_sub_of_le _ _ hoffset]
      exact Nat.add_sub_cancel' hoffset
    have hline' : last.line.toNat + (e.line - last.line).toNat = e.line.toNat := by
      rw [UInt32.toNat_sub_of_le _ _ hline]
      exact Nat.add_sub_cancel' hline
    rw [between, totals_cons, List.map_cons, List.map_cons, List.map_map, ← ih hes]
    simp only [Function.comp_def, Delta.value, ← Nat.add_assoc, hoffset', hline', place]

end Step

/-- Tables in pairs and in steps are decoded exactly, and no sum in them wraps around. Entries that
can be written in both ways come out the same. -/
theorem decodeTable_encoded {name : Name} (hname : name.bytes.length / 4 < 0x100000000)
    (start : Nat) (base : UInt32) :
    (∀ rows : List LineEntry,
      (OffsetsFit base rows → ∃ sorted, LineTable.StablySorted (rows.map (pairEntry base)) sorted ∧
        decodeTable start .pairs base name (rows.flatMap pairBytes) =
          .ok (some ⟨name.text, sorted⟩)) ∧
      (¬OffsetsFit base rows → ∃ offset fault,
        decodeTable start .pairs base name (rows.flatMap pairBytes) =
          .error (.malformed offset fault))) ∧
    (∀ (steps : List Step) (padding : List UInt8), steps.length < 0x100000000 →
      (TotalsFit base steps →
        decodeTable start .deltas base name (stepRows steps padding) =
          .ok (some ⟨name.text, (Step.totals steps).map (totalEntry base)⟩)) ∧
      (¬TotalsFit base steps → ∃ offset fault,
        decodeTable start .deltas base name (stepRows steps padding) =
          .error (.malformed offset fault))) ∧
    ∀ rows : List LineEntry, rows.length < 0x100000000 →
      (∀ row ∈ rows, row.line.toNat < 0x1000000) →
      (rows.Pairwise fun e e' => e.offset ≤ e'.offset ∧ e.line ≤ e'.line) →
      (∃ steps, Step.totals steps = rows.map place) ∧
      ∀ steps padding, Step.totals steps = rows.map place → ∀ t,
        decodeTable start .pairs base name (rows.flatMap pairBytes) = .ok t ↔
          decodeTable start .deltas base name (stepRows steps padding) = .ok t := by
  have hpairs (rows : List LineEntry) := decodeTable_of_entries_iff hname start
    (fun es => (entries_pairs_iff : Entries base .pairs (rows.flatMap pairBytes) es ↔ _))
  have hdeltas (steps : List Step) (padding : List UInt8) (hcount : steps.length < 0x100000000) :=
    decodeTable_of_entries_iff hname start
      (fun es => (entries_deltas_iff hcount : Entries base .deltas (stepRows steps padding) es ↔ _))
  refine ⟨fun rows => ⟨fun hfits => ?_, (hpairs rows).2⟩, fun steps padding hcount => ?_, ?_⟩
  · exact ⟨_, LineTable.stablySorted_sort _, (hpairs rows).1 hfits⟩
  · refine ⟨fun hfits => ?_, (hdeltas steps padding hcount).2⟩
    have hread := (hdeltas steps padding hcount).1 hfits
    rwa [LineTable.ofEntries, sort_totals hfits] at hread
  · intro rows hrows hlines hpairwise
    refine ⟨⟨Step.between ⟨0, 0⟩ rows, ?_⟩, fun steps padding hsteps t => ?_⟩
    · have hfirst : (⟨0, 0⟩ :: rows : List LineEntry).Pairwise
          fun e e' => e.offset ≤ e'.offset ∧ e.line ≤ e'.line :=
        .cons (fun e _ => ⟨UInt32.zero_le, UInt32.zero_le⟩) hpairwise
      have htotals := Step.totals_between hfirst
      simpa using htotals
    · have hcount : steps.length < 0x100000000 := by
        rwa [← Step.length_totals, hsteps, List.length_map]
      obtain ⟨hok, hfault⟩ := hpairs rows
      obtain ⟨hok', hfault'⟩ := hdeltas steps padding hcount
      rw [totalsFit_iff hlines hsteps, map_totalEntry hlines hsteps] at hok'
      rw [totalsFit_iff hlines hsteps] at hfault'
      by_cases hfits : OffsetsFit base rows
      · rw [hok hfits, hok' hfits]
      · obtain ⟨offset, fault, hread⟩ := hfault hfits
        obtain ⟨offset', fault', hread'⟩ := hfault' hfits
        simp only [hread, hread', reduceCtorEq]

def letterName : Name := ⟨"a", by decide⟩

def twoRows : List LineEntry := [⟨0, 7⟩, ⟨2, 9⟩]

/-- The same entries in steps of all widths. -/
def twoSteps : List Step :=
  [⟨.short 7 (by decide), .long 0⟩, ⟨.middle 2 (by decide), .short 2 (by decide)⟩]

theorem decodeTable_twoRows : letterName.bytes.length / 4 < 0x100000000 ∧
    OffsetsFit 0x10 twoRows ∧ Step.totals twoSteps = twoRows.map place ∧
    decodeTable 0 .deltas 0x10 letterName (stepRows twoSteps [0]) =
      .ok (some ⟨"a", [⟨0x10, 7⟩, ⟨0x12, 9⟩]⟩) ∧
    decodeTable 0 .pairs 0x10 letterName (twoRows.flatMap pairBytes) =
      .ok (some ⟨"a", [⟨0x10, 7⟩, ⟨0x12, 9⟩]⟩) ∧
    ∃ offset fault, decodeTable 0 .pairs 0xFFFFFFFE letterName (twoRows.flatMap pairBytes) =
      .error (.malformed offset fault) := by
  have hname : letterName.bytes.length / 4 < 0x100000000 := by decide +kernel
  have hfits : OffsetsFit 0x10 twoRows := by decide
  have hlines : ∀ row ∈ twoRows, row.line.toNat < 0x1000000 := by decide
  have hsteps : Step.totals twoSteps = twoRows.map place := by decide
  obtain ⟨-, hdeltas, hboth⟩ := decodeTable_encoded hname 0 0x10
  have hread : decodeTable 0 .deltas 0x10 letterName (stepRows twoSteps [0]) =
      .ok (some ⟨"a", [⟨0x10, 7⟩, ⟨0x12, 9⟩]⟩) :=
    (hdeltas twoSteps [0] (by decide)).1 ((totalsFit_iff hlines hsteps).2 hfits)
  have hsame := (hboth twoRows (by decide) hlines (by decide)).2 twoSteps [0] hsteps
  obtain ⟨hpairs, -⟩ := decodeTable_encoded hname 0 0xFFFFFFFE
  exact ⟨hname, hfits, hsteps, hread, (hsame _).2 hread, (hpairs twoRows).2 (by decide)⟩

end Encoding
end AmigaHunk
