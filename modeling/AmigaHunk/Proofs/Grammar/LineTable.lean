import AmigaHunk.LineTable.Decoder
import AmigaHunk.Proofs.Binary.Lists

/-! The grammar of line tables in debug blocks. The decoder of a debug block stops without a fault
exactly on the payloads of the grammar. -/
namespace AmigaHunk

namespace Grammar

/-- A text behind its length in longwords. Zeros at its end are no part of it. -/
inductive Text : List UInt8 → String → Prop where
  | mk (longs : UInt32) {body : List UInt8} (h : body.length = 4 * longs.toNat) :
    Text (Word.bytes longs ++ body) (Utf8.decode (Decoder.trimZeros body))

/-- A step of a number: one byte; or, behind a zero byte, two; or, behind three zero bytes, four.
Only the last form may hold a zero. -/
inductive Delta : List UInt8 → UInt32 → Prop where
  | short {b : List UInt8} (h : b.length = 1) (h0 : bigEndian b ≠ 0) :
    Delta b (UInt32.ofNat (bigEndian b))
  | middle {b : List UInt8} (h : b.length = 2) (h0 : bigEndian b ≠ 0) :
    Delta ([0] ++ b) (UInt32.ofNat (bigEndian b))
  | long (w : UInt32) : Delta ([0] ++ ([0, 0] ++ Word.bytes w)) w

/-- A line, in the three low bytes of a longword, and an offset that counts from `base`. -/
inductive Pair (base : UInt32) : List UInt8 → LineEntry → Prop where
  | mk (line offset : UInt32) {place : UInt32} (h : Word.add? base offset = some place) :
    Pair base (Word.bytes line ++ Word.bytes offset) ⟨place, UInt32.ofNat (Word.low24 line)⟩

/-- How far the line and the offset move on from the entry before, whose offset counts from zero. -/
inductive Move (base : UInt32) : LineEntry → List UInt8 → LineEntry → LineEntry → Prop where
  | mk {last : LineEntry} {left right : List UInt8} {lines offsets line offset place : UInt32}
    (hl : Delta left lines) (ho : Delta right offsets)
    (line_eq : Word.add? last.line lines = some line)
    (offset_eq : Word.add? last.offset offsets = some offset)
    (place_eq : Word.add? base offset = some place) :
    Move base last (left ++ right) ⟨place, line⟩ ⟨offset, line⟩

/-- The entries of a table in each layout. What is left behind them does not count. -/
inductive Entries (base : UInt32) : LineTable.Layout → List UInt8 → List LineEntry → Prop where
  | pairs {b extra : List UInt8} {entries : List LineEntry}
    (h : Chain (fun _ b e _ => Pair base b e) () b entries ()) (hx : extra.length < 8) :
    Entries base .pairs (b ++ extra) entries
  | deltas (count : UInt32) {b extra : List UInt8} {entries : List LineEntry} {last : LineEntry}
    (h : Chain (Move base) ⟨0, 0⟩ b entries last) (hn : entries.length = count.toNat) :
    Entries base .deltas (Word.bytes count ++ (b ++ extra)) entries

/-- What a debug block holds: a line table, or something else. -/
inductive Payload : List UInt8 → Option LineTable → Prop where
  | short {b : List UInt8} (h : b.length < 8) : Payload b none
  | other (base w : UInt32) {b : List UInt8} (h : LineTable.Layout.ofWord? w = none) :
    Payload (Word.bytes base ++ (Word.bytes w ++ b)) none
  | table (base : UInt32) (layout : LineTable.Layout) {t b : List UInt8} {name : String}
    {entries : List LineEntry} (ht : Text t name) (he : Entries base layout b entries) :
    Payload (Word.bytes base ++ (Word.bytes layout.word ++ (t ++ b)))
      (some (.ofEntries name entries))

theorem Delta.pos {b : List UInt8} {w : UInt32} (h : Delta b w) : 1 ≤ b.length := by
  cases h with
  | short h _ => omega
  | middle _ _ => simp
  | long w => simp

theorem Move.two_le {base : UInt32} {last e next : LineEntry} {b : List UInt8}
    (h : Move base last b e next) : 2 ≤ b.length := by
  cases h with
  | mk hl ho _ _ _ =>
    have := hl.pos
    have := ho.pos
    rw [List.length_append]
    omega

theorem Pair.length {base : UInt32} {b : List UInt8} {e : LineEntry} (h : Pair base b e) :
    b.length = 8 := by
  cases h with
  | mk line offset h => simp

theorem Chain.length_pairs {base : UInt32} {b : List UInt8} {entries : List LineEntry} {u v : Unit}
    (h : Chain (fun _ b e _ => Pair base b e) u b entries v) : b.length = 8 * entries.length := by
  induction h with
  | nil _ => rfl
  | cons hi _ ih =>
    rw [List.length_append, List.length_cons, hi.length, ih]
    omega

end Grammar

namespace Decoder
open Grammar

theorem reads_text {offset : Nat} {bytes : List UInt8} {s : String} :
    Reads text offset bytes s ↔ Text bytes s := by
  change Reads (word >>= fun w => padded w.toNat) offset bytes s ↔ _
  simp only [reads_bind, reads_word, reads_padded]
  constructor
  · intro h
    obtain ⟨w, _, body, rfl, rfl, h, rfl⟩ := h
    exact .mk w h
  · intro h
    obtain ⟨w, h⟩ := h
    exact ⟨w, _, _, rfl, rfl, h, rfl⟩

end Decoder

namespace LineTable
open Decoder Grammar

instance (a b : UInt32) (fault : Fault) : Steady (sum a b fault) := by
  unfold sum
  cases Word.add? a b <;> infer_instance

theorem reads_sum {a b c : UInt32} {fault : Fault} {offset : Nat} {bytes : List UInt8} :
    Reads (sum a b fault) offset bytes c ↔ bytes = [] ∧ Word.add? a b = some c := by
  unfold sum
  cases Word.add? a b with
  | none => simp [not_reads_fail]
  | some d => simp [reads_pure, eq_comm]

instance (base : UInt32) : Steady (readPair base) := by
  unfold readPair
  infer_instance

theorem reads_readPair {base : UInt32} {offset : Nat} {bytes : List UInt8} {e : LineEntry} :
    Reads (readPair base) offset bytes e ↔ Pair base bytes e := by
  simp only [readPair, reads_bind, reads_word, reads_sum, reads_pure]
  constructor
  · intro h
    obtain ⟨line, _, _, rfl, rfl, o, _, _, rfl, rfl, place, _, _, rfl, ⟨rfl, h⟩, rfl, rfl⟩ := h
    simpa using Pair.mk line o h
  · intro h
    obtain ⟨line, o, h⟩ := h
    exact ⟨line, _, _, rfl, rfl, o, _, _, (List.append_nil _).symm, rfl, _, _, _, rfl, ⟨rfl, h⟩,
      rfl, rfl⟩

instance : Steady readDelta := by
  unfold readDelta
  infer_instance

theorem reads_readDelta {offset : Nat} {bytes : List UInt8} {w : UInt32} :
    Reads readDelta offset bytes w ↔ Delta bytes w := by
  simp only [readDelta, reads_bind, reads_byte, reads_halfword, reads_ite, reads_pure, reads_word]
  constructor
  · intro h
    obtain ⟨_, left, right, rfl, ⟨hl, rfl⟩, ⟨h0, rfl, rfl⟩ | ⟨h0, hr⟩⟩ := h
    · rw [List.append_nil]
      exact .short hl h0
    · obtain rfl := bigEndian_eq_zero hl (not_not.1 h0)
      obtain ⟨_, middle, rest, rfl, ⟨hm, rfl⟩, ⟨h0, rfl, rfl⟩ | ⟨h0, rfl⟩⟩ := hr
      · rw [List.append_nil]
        exact .middle hm h0
      · obtain rfl := bigEndian_eq_zero hm (not_not.1 h0)
        exact .long w
  · intro h
    cases h with
    | short hl h0 => exact ⟨_, bytes, [], (List.append_nil _).symm, ⟨hl, rfl⟩, .inl ⟨h0, rfl, rfl⟩⟩
    | @middle b hl h0 =>
      exact ⟨_, [0], b, rfl, ⟨rfl, rfl⟩, .inr ⟨by decide, _, b, [], (List.append_nil _).symm,
        ⟨hl, rfl⟩, .inl ⟨h0, rfl, rfl⟩⟩⟩
    | long =>
      exact ⟨_, [0], _, rfl, ⟨rfl, rfl⟩, .inr ⟨by decide, _, [0, 0], _, rfl, ⟨rfl, rfl⟩,
        .inr ⟨by decide, rfl⟩⟩⟩

instance (base : UInt32) (last : LineEntry) : Steady (readStep base last) := by
  unfold readStep
  infer_instance

theorem reads_readStep {base : UInt32} {last : LineEntry} {offset : Nat} {bytes : List UInt8}
    {r : Option (LineEntry × LineEntry)} :
    Reads (readStep base last) offset bytes r ↔
      ∃ e next, r = some (e, next) ∧ Move base last bytes e next := by
  simp only [readStep, reads_bind, reads_readDelta, reads_sum, reads_pure]
  constructor
  · intro h
    obtain ⟨lines, left, _, rfl, hl, offsets, right, _, rfl, ho, line, _, _, rfl, ⟨rfl, h₁⟩, o, _,
      _, rfl, ⟨rfl, h₂⟩, place, _, _, rfl, ⟨rfl, h₃⟩, rfl, rfl⟩ := h
    exact ⟨_, _, rfl, by simpa using Move.mk hl ho h₁ h₂ h₃⟩
  · intro h
    obtain ⟨e, next, rfl, h⟩ := h
    cases h with
    | @mk left right lines offsets line o place hl ho h₁ h₂ h₃ =>
      exact ⟨lines, left, right, rfl, hl, offsets, right, [], (List.append_nil _).symm, ho, line,
        [], [], rfl, ⟨rfl, h₁⟩, o, [], [], rfl, ⟨rfl, h₂⟩, place, [], [], rfl, ⟨rfl, h₃⟩, rfl, rfl⟩

theorem fills_readPairs {base : UInt32} {offset : Nat} {bytes : List UInt8}
    {entries : List LineEntry} :
    Fills (readPairs base) offset bytes entries ↔ Entries base .pairs bytes entries := by
  simp only [readPairs, fills_remaining, fills_bind, reads_times fun _ _ _ => reads_readPair]
  simp only [fills_iff, reads_ite, reads_bind, reads_offset, reads_warn, reads_pure]
  constructor
  · intro h
    obtain ⟨ws, b, extra, rfl, ⟨hn, hc⟩, taken, _, rfl, h⟩ := h
    have hl := hc.length_pairs
    have he : taken = [] ∧ entries = ws := by
      obtain ⟨-, _, _, _, rfl, ⟨rfl, -⟩, _, _, _, rfl, rfl, rfl, rfl⟩ | ⟨-, rfl, rfl⟩ := h <;>
        exact ⟨rfl, rfl⟩
    obtain ⟨rfl, rfl⟩ := he
    refine .pairs hc ?_
    simp only [List.length_append, List.nil_append] at hn ⊢
    omega
  · intro h
    cases h with
    | @pairs b extra _ hc hx =>
      have hl := hc.length_pairs
      refine ⟨entries, b, extra, rfl, ⟨?_, hc⟩, [], extra, rfl, ?_⟩
      · rw [List.length_append]
        omega
      · by_cases h0 : extra.length = 0
        · exact .inr ⟨not_not.2 h0, rfl, rfl⟩
        · exact .inl ⟨h0, _, [], [], rfl, ⟨rfl, rfl⟩, (), [], [], rfl, rfl, rfl, rfl⟩

/-- The check of the count against the bytes that are left rejects no table, since an entry takes
two bytes or more. -/
theorem readDeltas_agrees (base : UInt32) :
    Agrees (readDeltas base)
      (word >>= fun count => collect (readStep base) count.toNat ⟨0, 0⟩) := by
  refine Agrees.bind fun count => agrees_of_room (.entryCount count.toNat) (by decide) ?_
  intro offset bytes entries h
  obtain ⟨hn, next, hc⟩ := (reads_collect fun _ _ _ _ => reads_readStep).1 h
  have := hc.length_le fun _ _ _ _ => Move.two_le
  omega

theorem fills_readDeltas {base : UInt32} {offset : Nat} {bytes : List UInt8}
    {entries : List LineEntry} :
    Fills (readDeltas base) offset bytes entries ↔ Entries base .deltas bytes entries := by
  rw [(readDeltas_agrees base).fills_iff]
  simp only [fills_iff, reads_bind, reads_word, reads_collect fun _ _ _ _ => reads_readStep]
  constructor
  · intro h
    obtain ⟨_, extra, rfl, count, _, b, rfl, rfl, hn, last, hc⟩ := h
    rw [List.append_assoc]
    exact .deltas count hc hn
  · intro h
    cases h with
    | @deltas count b extra _ last hc hn =>
      exact ⟨_, extra, (List.append_assoc ..).symm, count, _, b, rfl, rfl, hn, last, hc⟩

theorem Layout.fills_read {layout : Layout} {base : UInt32} {offset : Nat} {bytes : List UInt8}
    {entries : List LineEntry} :
    Fills (layout.read base) offset bytes entries ↔ Entries base layout bytes entries := by
  cases layout with
  | pairs => exact fills_readPairs
  | deltas => exact fills_readDeltas

@[simp] theorem Layout.ofWord?_word (layout : Layout) :
    Layout.ofWord? layout.word = some layout := by
  cases layout <;> rfl

theorem Layout.ofWord?_eq_some_iff {w : UInt32} {layout : Layout} :
    Layout.ofWord? w = some layout ↔ w = layout.word := by
  constructor
  · intro h
    unfold Layout.ofWord? at h
    split at h
    · cases h
      assumption
    · split at h <;> cases h
      assumption
  · intro h
    subst h
    exact ofWord?_word layout

theorem fills_ofEntries {d : Decoder (List LineEntry)} {name : String} {offset : Nat}
    {bytes : List UInt8} {t : Option LineTable} :
    Fills (d >>= fun entries => pure (some (ofEntries name entries))) offset bytes t ↔
      ∃ entries, t = some (ofEntries name entries) ∧ Fills d offset bytes entries := by
  constructor
  · intro h
    obtain ⟨c, ws, h⟩ := h
    obtain ⟨entries, c₁, ws₁, ws₂, hd, hf, -⟩ := bind_eq_ok.1 h
    cases hf
    exact ⟨entries, rfl, c, ws₁, hd⟩
  · intro h
    obtain ⟨entries, rfl, c, ws, hd⟩ := h
    exact ⟨c, ws ++ [], bind_eq_ok.2 ⟨entries, c, ws, _, hd, rfl, rfl⟩⟩

/-- A debug block is decoded exactly if its payload is of the grammar, and to what it says. -/
theorem fills_read {offset : Nat} {bytes : List UInt8} {t : Option LineTable} :
    Fills LineTable.read offset bytes t ↔ Payload bytes t := by
  rw [LineTable.read, fills_remaining]
  by_cases h8 : bytes.length < 8
  · simp only [if_pos h8, fills_iff, reads_pure]
    constructor
    · intro h
      obtain ⟨_, extra, rfl, rfl, rfl⟩ := h
      exact .short h8
    · intro h
      cases h with
      | short _ => exact ⟨[], bytes, rfl, rfl, rfl⟩
      | other base w _ =>
        simp only [List.length_append, Word.length_bytes] at h8
        omega
      | table base layout _ _ =>
        simp only [List.length_append, Word.length_bytes] at h8
        omega
  · simp only [if_neg h8, fills_bind, reads_word]
    constructor
    · intro h
      obtain ⟨base, _, _, rfl, rfl, w, _, b, rfl, rfl, h⟩ := h
      cases hw : Layout.ofWord? w with
      | none =>
        simp only [hw, fills_iff, reads_pure] at h
        obtain ⟨_, _, _, _, rfl⟩ := h
        exact .other base w hw
      | some layout =>
        simp only [hw, fills_bind, reads_text, fills_ofEntries, Layout.fills_read] at h
        obtain ⟨name, t, b, rfl, ht, entries, rfl, he⟩ := h
        obtain rfl := Layout.ofWord?_eq_some_iff.1 hw
        exact .table base layout ht he
    · intro h
      cases h with
      | short h => exact absurd h h8
      | @other base w b hw =>
        refine ⟨base, _, _, rfl, rfl, w, _, b, rfl, rfl, ?_⟩
        simp only [hw, fills_iff, reads_pure]
        exact ⟨[], b, rfl, rfl, trivial⟩
      | @table base layout t b name entries ht he =>
        refine ⟨base, _, _, rfl, rfl, layout.word, _, _, rfl, rfl, ?_⟩
        simp only [Layout.ofWord?_word, fills_bind, reads_text, fills_ofEntries, Layout.fills_read]
        exact ⟨name, t, b, rfl, ht, entries, rfl, he⟩

end LineTable
end AmigaHunk
