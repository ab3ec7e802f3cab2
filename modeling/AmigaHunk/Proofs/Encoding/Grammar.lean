import AmigaHunk.Proofs.Encoding.LoadFile
import AmigaHunk.Proofs.Grammar.File
import AmigaHunk.Proofs.Text.Utf8

/-! The bytes of a load file are of the grammar of files. -/
namespace AmigaHunk

namespace Word
variable {flags low : Nat}

theorem toNat_pack (hf : flags < 4) (hl : low < 0x40000000) :
    (pack flags low).toNat = flags * 0x40000000 + low :=
  toNat_ofNat (by omega)

theorem flags_pack (hf : flags < 4) (hl : low < 0x40000000) :
    Word.flags (pack flags low) = flags := by
  rw [Word.flags, toNat_pack hf hl]
  omega

theorem low30_pack (hf : flags < 4) (hl : low < 0x40000000) : low30 (pack flags low) = low := by
  rw [low30, toNat_pack hf hl]
  omega

theorem low29_pack (hf : flags < 4) (hl : low < 0x20000000) : low29 (pack flags low) = low := by
  rw [low29, toNat_pack hf (by omega)]
  omega

end Word

theorem Tag.number_lt (t : Tag) : t.number < 0x20000000 := by
  cases t <;> decide

theorem MemoryKind.flags_lt (m : MemoryKind) : m.flags < 4 := by
  cases m <;> simp [flags]

theorem Grammar.memory_extra {w : UInt32} {m : MemoryKind} (h : Word.flags w = m.flags) :
    Memory w m.extra m := by
  have ho : m.flags ≠ 3 → MemoryKind.ofWord w = m → Memory w [] m := by
    intro hn hm
    have hw : Word.flags w ≠ 3 := by rwa [h]
    have hmemory := Memory.flags hw
    rwa [hm] at hmemory
  cases m with
  | attributes bits => exact .attributes bits h
  | any => exact ho (by decide) (by rw [MemoryKind.ofWord, h]; rfl)
  | chip => exact ho (by decide) (by rw [MemoryKind.ofWord, h]; rfl)
  | fast => exact ho (by decide) (by rw [MemoryKind.ofWord, h]; rfl)

theorem Decoder.trimZeros_append_zeros {b : List UInt8} (h : b.getLast? ≠ some 0) (n : Nat) :
    trimZeros (b ++ List.replicate n 0) = b := by
  have hb : b.reverse.dropWhile (· = 0) = b.reverse := by
    rw [← List.head?_reverse] at h
    cases hr : b.reverse with
    | nil => rfl
    | cons x xs =>
      have hx : x ≠ 0 := by
        intro h0
        rw [hr, h0] at h
        exact h rfl
      rw [List.dropWhile_cons_of_neg (by simpa using hx)]
  rw [trimZeros, List.reverse_append, List.reverse_replicate]
  induction n with
  | zero => rw [List.replicate_zero, List.nil_append, hb, List.reverse_reverse]
  | succ n ih => rwa [List.replicate_succ, List.cons_append, List.dropWhile_cons_of_pos (by simp)]

theorem LineTable.sort_eq_insertionSort (entries : List LineEntry) :
    sort entries = entries.insertionSort (·.offset ≤ ·.offset) := by
  have hinsert (e : LineEntry) (xs : List LineEntry) :
      insert e xs = xs.orderedInsert (·.offset ≤ ·.offset) e := by
    induction xs with
    | nil => rfl
    | cons x xs ih => rw [insert, List.orderedInsert_cons, ih]
  induction entries with
  | nil => rfl
  | cons e entries ih =>
    rw [List.insertionSort_cons, ← ih, ← hinsert]
    rfl

namespace Encoding
open Grammar

theorem dvd_length_padLong (bytes : List UInt8) : 4 ∣ (padLong bytes).length := by
  rw [padLong, List.length_append, List.length_replicate]
  omega

theorem length_eq_of_dvd {bytes : List UInt8} (h : 4 ∣ bytes.length)
    (hl : bytes.length / 4 < 0x100000000) :
    bytes.length = 4 * (UInt32.ofNat (bytes.length / 4)).toNat := by
  rw [Word.toNat_ofNat hl]
  omega

theorem counted_grammar {bytes : List UInt8} (h : 4 ∣ bytes.length)
    (hl : bytes.length / 4 < 0x100000000) : Counted (counted bytes) bytes :=
  .mk _ (length_eq_of_dvd h hl)

theorem length_counted (bytes : List UInt8) : (counted bytes).length = bytes.length + 4 := by
  rw [counted, List.length_append, Word.length_bytes]
  omega

namespace Name

theorem dvd_length (n : Name) : 4 ∣ n.bytes.length := dvd_length_padLong _

/-- What is read of a name behind its padding is the name. -/
theorem decode_bytes (n : Name) : Utf8.decode (Decoder.trimZeros n.bytes) = n.text := by
  have hlast := Utf8.getLast?_encode n.text_tight
  rw [bytes, padLong, Decoder.trimZeros_append_zeros hlast, Utf8.decode_encode]

theorem text_grammar {n : Name} (hl : n.bytes.length / 4 < 0x100000000) :
    Text (counted n.bytes) n.text := by
  have h := Text.mk _ (length_eq_of_dvd n.dvd_length hl)
  rwa [n.decode_bytes] at h

theorem length_pos {n : Name} (h : n.text ≠ "") : 0 < n.bytes.length := by
  have hc : n.text.toList ≠ [] := by
    intro he
    exact h (String.toList_eq_nil_iff.1 he)
  have he : 0 < (Utf8.encode n.text).length := by
    obtain ⟨c, cs, hcs⟩ := List.exists_cons_of_ne_nil hc
    have hpos := c.utf8Size_pos
    rw [Utf8.encode, hcs, List.flatMap_cons, List.length_append, String.length_utf8EncodeChar]
    omega
  rw [bytes, padLong, List.length_append]
  omega

end Name

theorem SymbolEntry.grammar (e : SymbolEntry) :
    Grammar.SymbolEntry e.bytes (some e.symbol) := by
  have hlt := e.name_lt
  have hpos := Name.length_pos e.name_nonempty
  have hdvd := e.name.dvd_length
  have hlow : Word.low24 (UInt32.ofNat (e.name.bytes.length / 4)) = e.name.bytes.length / 4 := by
    rw [Word.low24, Word.toNat_ofNat (by omega)]
    omega
  have hlength : e.name.bytes.length =
      4 * Word.low24 (UInt32.ofNat (e.name.bytes.length / 4)) := by omega
  have h := Grammar.SymbolEntry.symbol _ e.offset (by omega) hlength
  rwa [e.name.decode_bytes, ← List.append_assoc] at h

section Tables
variable {layout : LineTable.Layout} {base : UInt32} {name : Name} {rows : List UInt8}

theorem length_tableBytes :
    (tableBytes layout base name rows).length = name.bytes.length + rows.length + 12 := by
  simp only [tableBytes, List.length_append, Word.length_bytes, length_counted]
  omega

theorem tableBytes_grammar {entries : List LineEntry}
    (hl : (tableBytes layout base name rows).length / 4 < 0x100000000)
    (h : Entries base layout rows entries) :
    Payload (tableBytes layout base name rows) (some (.ofEntries name.text entries)) := by
  rw [length_tableBytes] at hl
  exact .table base layout (Name.text_grammar (by omega)) h

theorem dvd_length_tableBytes (h : 4 ∣ rows.length) :
    4 ∣ (tableBytes layout base name rows).length := by
  have hname := name.dvd_length
  rw [length_tableBytes]
  omega

end Tables

theorem pairBytes_grammar {base : UInt32} {e : LineEntry} (hline : e.line.toNat < 0x1000000)
    (hoffset : base.toNat + e.offset.toNat < 0x100000000) :
    Pair base (pairBytes e) ⟨base + e.offset, e.line⟩ := by
  have hplace : Word.add? base e.offset = some (base + e.offset) := by
    rw [Word.add?, if_pos hoffset]
  have hlow : UInt32.ofNat (Word.low24 e.line) = e.line := by
    rw [Word.low24, Nat.mod_eq_of_lt hline, UInt32.ofNat_toNat]
  have h := Pair.mk e.line e.offset hplace
  rwa [hlow] at h

theorem PairTable.entries_grammar (t : PairTable) :
    Chain (fun _ b e _ => Pair t.base b e) () (t.entries.flatMap pairBytes)
      (t.entries.map fun e => ⟨t.base + e.offset, e.line⟩) () :=
  Chain.map fun e he => pairBytes_grammar (t.line_lt e he) (t.offset_lt e he)

theorem PairTable.payload_grammar (t : PairTable) : Payload t.bytes (some t.table) := by
  have h := Entries.pairs t.entries_grammar (by decide : ([] : List UInt8).length < 8)
  rw [List.append_nil] at h
  rw [table, ← LineTable.sort_eq_insertionSort]
  exact tableBytes_grammar t.length_lt h

theorem PairTable.dvd_length (t : PairTable) : 4 ∣ t.bytes.length := by
  have h := t.entries_grammar.length_pairs
  apply dvd_length_tableBytes
  omega

theorem Delta.grammar (d : Delta) : Grammar.Delta d.bytes (UInt32.ofNat d.value) := by
  cases d with
  | short n h =>
    have hb : bigEndian [n] = n.toNat := by simp [bigEndian]
    have hn : n.toNat ≠ 0 := fun h0 => h (UInt8.toNat_inj.1 h0)
    have hd := Grammar.Delta.short (b := [n]) rfl (by rwa [hb])
    rwa [hb] at hd
  | middle n h =>
    have hlt := n.toNat_lt
    have hb : bigEndian (bigEndianBytes 2 n.toNat) = n.toNat := by
      rw [bigEndian_bigEndianBytes, Nat.mod_eq_of_lt (by omega)]
    have hn : n.toNat ≠ 0 := fun h0 => h (UInt16.toNat_inj.1 h0)
    have hd := Grammar.Delta.middle (length_bigEndianBytes 2 n.toNat) (by rwa [hb])
    rwa [hb] at hd
  | long n =>
    rw [value, UInt32.ofNat_toNat]
    exact .long n

namespace Step
variable {base : UInt32}

theorem grammar {line offset : Nat} {s : Step} (hline : line + s.line.value < 0x100000000)
    (hoffset : base.toNat + (offset + s.offset.value) < 0x100000000) :
    Move base ⟨UInt32.ofNat offset, UInt32.ofNat line⟩ s.bytes
      ⟨UInt32.ofNat (base.toNat + (offset + s.offset.value)), UInt32.ofNat (line + s.line.value)⟩
      ⟨UInt32.ofNat (offset + s.offset.value), UInt32.ofNat (line + s.line.value)⟩ := by
  refine .mk s.line.grammar s.offset.grammar ?_ ?_ ?_
  · rw [Word.add?_eq_some_iff, Word.toNat_ofNat (by omega), Word.toNat_ofNat (by omega),
      Word.toNat_ofNat (by omega)]
  · rw [Word.add?_eq_some_iff, Word.toNat_ofNat (by omega), Word.toNat_ofNat (by omega),
      Word.toNat_ofNat (by omega)]
  · rw [Word.add?_eq_some_iff, Word.toNat_ofNat (by omega), Word.toNat_ofNat (by omega)]

/-- All sums stay longwords, since the last ones are. -/
theorem steps_grammar {steps : List Step} {line offset : Nat}
    (hline : line + (steps.map (·.line.value)).sum < 0x100000000)
    (hoffset : base.toNat + (offset + (steps.map (·.offset.value)).sum) < 0x100000000) :
    ∃ last, Chain (Move base) ⟨UInt32.ofNat offset, UInt32.ofNat line⟩ (steps.flatMap bytes)
      (entriesFrom base.toNat line offset steps) last := by
  induction steps generalizing line offset with
  | nil => exact ⟨_, .nil _⟩
  | cons s steps ih =>
    rw [List.map_cons, List.sum_cons] at hline hoffset
    have hlines : line + s.line.value + (steps.map (·.line.value)).sum < 0x100000000 := by omega
    have hoffsets : base.toNat + (offset + s.offset.value + (steps.map (·.offset.value)).sum) <
        0x100000000 := by omega
    obtain ⟨last, hmore⟩ := ih hlines hoffsets
    exact ⟨last, .cons (grammar (by omega) (by omega)) hmore⟩

theorem length_entriesFrom (base line offset : Nat) (steps : List Step) :
    (entriesFrom base line offset steps).length = steps.length := by
  induction steps generalizing line offset with
  | nil => rfl
  | cons s steps ih => rw [entriesFrom, List.length_cons, ih, List.length_cons]

theorem le_of_mem_entriesFrom {base line offset : Nat} {steps : List Step} {e : LineEntry}
    (hoffset : base + (offset + (steps.map (·.offset.value)).sum) < 0x100000000)
    (he : e ∈ entriesFrom base line offset steps) : base + offset ≤ e.offset.toNat := by
  induction steps generalizing line offset with
  | nil => cases he
  | cons s steps ih =>
    rw [List.map_cons, List.sum_cons] at hoffset
    cases List.mem_cons.1 he with
    | inl he =>
      rw [he, Word.toNat_ofNat (by omega)]
      omega
    | inr he =>
      have := ih (by omega) he
      omega

/-- Steps lead to entries in order, since no step leads back. -/
theorem pairwise_entriesFrom {base line offset : Nat} {steps : List Step}
    (hoffset : base + (offset + (steps.map (·.offset.value)).sum) < 0x100000000) :
    (entriesFrom base line offset steps).Pairwise (·.offset ≤ ·.offset) := by
  induction steps generalizing line offset with
  | nil => exact .nil
  | cons s steps ih =>
    rw [List.map_cons, List.sum_cons] at hoffset
    refine .cons (fun e he => ?_) (ih (by omega))
    have hle := le_of_mem_entriesFrom (by omega) he
    rw [UInt32.le_iff_toNat_le, Word.toNat_ofNat (by omega)]
    exact hle

end Step

namespace DeltaTable

theorem sum_offsets_lt (t : DeltaTable) :
    t.base.toNat + (0 + (t.steps.map (·.offset.value)).sum) < 0x100000000 := by
  rw [Nat.zero_add]
  exact t.offsets_lt

theorem entries_grammar (t : DeltaTable) : Entries t.base .deltas (deltaBytes t.steps)
    (Step.entriesFrom t.base.toNat 0 0 t.steps) := by
  have hlines : 0 + (t.steps.map (·.line.value)).sum < 0x100000000 := by
    rw [Nat.zero_add]
    exact t.lines_lt
  obtain ⟨last, h⟩ := Step.steps_grammar hlines t.sum_offsets_lt
  have hcount := Word.toNat_ofNat t.count_lt
  exact .deltas _ h (by rw [Step.length_entriesFrom, hcount])

theorem table_eq (t : DeltaTable) :
    LineTable.ofEntries t.name.text (Step.entriesFrom t.base.toNat 0 0 t.steps) = t.table := by
  have hpairwise : (Step.entriesFrom t.base.toNat 0 0 t.steps).Pairwise (·.offset ≤ ·.offset) :=
    Step.pairwise_entriesFrom t.sum_offsets_lt
  rw [LineTable.ofEntries, LineTable.sort_eq_insertionSort, hpairwise.insertionSort_eq]
  rfl

theorem payload_grammar (t : DeltaTable) : Payload t.bytes (some t.table) := by
  rw [← t.table_eq]
  exact tableBytes_grammar t.length_lt t.entries_grammar

theorem dvd_length (t : DeltaTable) : 4 ∣ t.bytes.length := by
  have h := dvd_length_padLong (t.steps.flatMap Step.bytes)
  apply dvd_length_tableBytes
  rw [deltaBytes, List.length_append, Word.length_bytes]
  omega

end DeltaTable

namespace Part

def block : Part → Block
  | symbols entries => .symbols (entries.map SymbolEntry.symbol)
  | pairs t => .debug (some t.table)
  | deltas t => .debug (some t.table)

theorem grammar (p : Part) : Grammar.Block .load true p.bytes p.block := by
  have htag : ∀ t : Tag, Word.low29 (Word.pack 0 t.number) = t.number := fun t =>
    Word.low29_pack (by decide) t.number_lt
  cases p with
  | symbols entries =>
    have h : Many Grammar.SymbolEntry (entries.flatMap SymbolEntry.bytes ++ Word.bytes 0)
        (entries.map SymbolEntry.symbol) :=
      Many.map (.last 0 rfl) fun e _ => e.grammar
    exact .mk _ (.symbols (htag .symbol) rfl h)
  | pairs t =>
    have hc := counted_grammar t.dvd_length t.length_lt
    exact .mk _ (.debug (htag .debug) rfl hc t.payload_grammar)
  | deltas t =>
    have hc := counted_grammar t.dvd_length t.length_lt
    exact .mk _ (.debug (htag .debug) rfl hc t.payload_grammar)

end Part

namespace Segment

def blocks (s : Segment) : List Block :=
  .segment s.kind s.memory (4 * s.longs) s.payload :: (s.parts.map Part.block ++ [.close])

theorem open_grammar (s : Segment) : Grammar.Block .load false
    (Word.bytes (Word.pack s.memory.flags s.kind.tag.number) ++
      (s.memory.extra ++ (Word.bytes (UInt32.ofNat s.longs) ++ s.payload)))
    (.segment s.kind s.memory (4 * s.longs) s.payload) := by
  have hlt := s.longs_lt
  have hlow := Word.low29_pack s.memory.flags_lt s.kind.tag.number_lt
  have hnumber := s.kind.tag.number_lt
  have hflags : Word.flags (Word.pack s.memory.flags s.kind.tag.number) = s.memory.flags :=
    Word.flags_pack s.memory.flags_lt (by omega)
  have hlongs : Word.low30 (UInt32.ofNat s.longs) = s.longs := by
    rw [Word.low30, Word.toNat_ofNat (by omega)]
    omega
  have hpayload := s.length_payload
  rw [← hlongs] at hpayload
  have h : Body .load false _ _ _ :=
    .segment s.kind hlow (UInt32.ofNat s.longs) (memory_extra hflags) hpayload
  rw [hlongs] at h
  exact .mk _ h

theorem grammar (s : Segment) : Blocks .load false s.bytes s.blocks false := by
  have hparts : Blocks .load true (s.parts.flatMap Part.bytes) (s.parts.map Part.block) true := by
    refine Chain.map fun p _ => ⟨p.grammar, ?_⟩
    cases p <;> rfl
  have hend : Grammar.Block .load true (Word.bytes (Word.pack 0 Tag.endHunk.number)) .close := by
    have hlow := Word.low29_pack (by decide : 0 < 4) Tag.endHunk.number_lt
    have h : Body .load true (Word.pack 0 Tag.endHunk.number) [] .close := .close (.inl hlow)
    have hb := Grammar.Block.mk _ h
    rwa [List.append_nil] at hb
  exact .cons ⟨s.open_grammar, rfl⟩ (hparts.append (.single ⟨hend, rfl⟩))

end Segment

theorem Size.grammar (s : Size) : SizeEntry s.bytes s.entry := by
  have h := SizeEntry.mk (Word.pack s.memory.flags s.longs)
    (memory_extra (Word.flags_pack s.memory.flags_lt s.longs_lt))
  rwa [Word.low30_pack s.memory.flags_lt s.longs_lt] at h

end Encoding

namespace LoadFile
open Encoding Grammar

def opening (f : LoadFile) : Opening := ⟨.load, f.sizes.map Size.entry⟩

def blocks (f : LoadFile) : List Block := f.segments.flatMap Segment.blocks

theorem opening_grammar (f : LoadFile) : Grammar.Opening f.headerBytes f.opening := by
  have htag := Word.low30_pack (by decide : 0 < 4)
    (by decide : Tag.header.number < 0x40000000)
  have hresidents : Many Resident (Word.bytes 0) [] := .stop .last
  have hn := f.length_sizes
  have hpos := List.length_pos_iff.2 f.sizes_nonempty
  have hsizes : Chain (fun _ b e _ => SizeEntry b e) () (f.sizes.flatMap Size.bytes)
      (f.sizes.map Size.entry) () := Chain.map fun s _ => s.grammar
  exact .header _ htag f.first f.last (by omega) hresidents (Word.length_bytes f.tableSize)
    (by rw [List.length_map]; omega) hsizes

theorem grammar (f : LoadFile) : Grammar.File f.opening f.blocks false f.bytes :=
  .mk f.opening_grammar (Chain.flatMap fun s _ => s.grammar)

end LoadFile
end AmigaHunk
