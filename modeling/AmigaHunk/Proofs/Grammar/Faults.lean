import AmigaHunk.Proofs.Binary.Faults
import AmigaHunk.Proofs.Grammar.FileDecoder

/-! A file is refused as a whole only for its first longword. What else fails is a fault at an offset
in the file, and none in front of the block that it is in. -/
namespace AmigaHunk
open Decoder
variable {lo hi : Nat}

namespace LineTable

instance (a b : UInt32) (fault : Fault) : Faulting lo hi (sum a b fault) := by
  unfold sum
  cases Word.add? a b <;> infer_instance

instance (base : UInt32) : Faulting lo hi (readPair base) := by
  unfold readPair
  infer_instance

instance : Faulting lo hi readDelta := by
  unfold readDelta
  infer_instance

instance (base : UInt32) (last : LineEntry) : Faulting lo hi (readStep base last) := by
  unfold readStep
  infer_instance

instance (layout : Layout) (base : UInt32) : Faulting lo hi (layout.read base) := by
  cases layout with
  | pairs =>
    change Faulting lo hi (readPairs base)
    unfold readPairs
    infer_instance
  | deltas =>
    change Faulting lo hi (readDeltas base)
    unfold readDeltas
    infer_instance

instance : Faulting lo hi LineTable.read := by
  have htable : ∀ (base : UInt32) (layout? : Option Layout), Faulting lo hi (match layout? with
      | none => (pure none : Decoder (Option LineTable))
      | some layout => do
        let name ← text
        return some (ofEntries name (← layout.read base))) := by
    intro base layout?
    cases layout? <;> infer_instance
  unfold LineTable.read
  infer_instance

end LineTable

instance (w : UInt32) : Faulting lo hi (MemoryKind.read w) := by
  rw [MemoryKind.read_eq]
  infer_instance

namespace Block

instance (tag : UInt32) (kind : HunkKind) : Faulting lo hi (readSegment tag kind) := by
  unfold readSegment
  infer_instance

instance : Faulting lo hi readSymbol := by
  unfold readSymbol
  infer_instance

instance : Faulting lo hi skipLongRelocations := by
  unfold skipLongRelocations skipLongGroup
  infer_instance

instance : Faulting lo hi skipShortRelocations := by
  unfold skipShortRelocations skipShortGroup
  infer_instance

instance : Faulting lo hi skipExternals := by
  unfold skipExternals skipExternal
  infer_instance

instance : Faulting lo hi skipCounted := by
  unfold skipCounted
  infer_instance

instance (start : Nat) : Faulting start hi (skipOverlay start) := by
  unfold skipOverlay
  infer_instance

instance : Faulting lo hi readUnit := by
  unfold readUnit
  infer_instance

instance (start : Nat) (tag : UInt32) : Faulting lo hi (skipUnknown start tag) := by
  unfold skipUnknown
  infer_instance

instance (current : Option Nat) (start : Nat) (tag : Tag) :
    Faulting start hi (requireOpen current start tag) := by
  unfold requireOpen
  infer_instance

instance (current : Option Nat) (start : Nat) : Faulting start hi (readDebug current start) := by
  have hplace : ∀ n, Faulting start hi (do
      let place ← split n
      requireOpen current start .debug
      return debug (← inside place LineTable.read)) := by
    refine fun n => Faulting.split_bind fun place h => ?_
    have := Faulting.inside h LineTable.read
    infer_instance
  unfold readDebug
  dsimp only
  infer_instance

instance (current : Option Nat) : Faulting lo hi (warnOpen current) := by
  unfold warnOpen
  cases current <;> infer_instance

instance (kind : FileKind) (current : Option Nat) (start : Nat) (tag : UInt32) :
    Faulting start hi (readBody kind current start tag) := by
  unfold readBody
  cases Tag.ofNumber? (Word.low29 tag) with
  | none => infer_instance
  | some t => cases t <;> infer_instance

instance (kind : FileKind) (current : Option Nat) : Faulting lo hi (Block.read kind current) := by
  unfold Block.read
  exact Faulting.offset_bind fun start => inferInstance

end Block

namespace Opening

instance : Faulting lo hi skipResident := by
  unfold skipResident
  infer_instance

instance : Faulting lo hi readEntry := by
  unfold readEntry
  infer_instance

instance : Faulting lo hi readHeader := by
  -- Both branches of the check of the range go on like this.
  have hentries : ∀ count, Faulting lo hi (do
      if (← remaining) / 4 < count then fail (.headerTooShort count)
      times count readEntry) := by
    intro count
    infer_instance
  unfold readHeader
  dsimp only
  infer_instance

/-- An opening fails with a fault, unless it is neither a header nor a unit. -/
theorem isFaultIn_or_unknown {c : Cursor} {e : DecodeError}
    (h : (Opening.read c).result = .error e) :
    e.IsFaultIn c.offset (c.offset + c.rest.length) ∨
      ∃ tag rest, c.rest = Word.bytes tag ++ rest ∧ Word.low30 tag ≠ Tag.header.number ∧
        Word.low30 tag ≠ Tag.unit.number ∧
        e = .unknownBlock c.offset (UInt32.ofNat (Word.low30 tag)) := by
  have hc : c.Within c.offset (c.offset + c.rest.length) := ⟨Nat.le_refl _, Nat.le_refl _⟩
  rw [read_eq, bind_of_ok (rfl : Decoder.offset c = ⟨.ok c.offset, c, []⟩)] at h
  cases hw : word c with
  | mk result c' ws =>
    cases result with
    | error e' =>
      rw [bind_of_error hw] at h
      cases h
      exact .inl (Faulting.isFaultIn (d := word) hc (by rw [hw]))
    | ok tag =>
      have hc' := Faulting.within hc hw
      rw [bind_of_ok hw] at h
      obtain ⟨b, hrest, hb⟩ := Steady.reads hw
      rw [reads_word.1 hb] at hrest
      by_cases hheader : Word.low30 tag = Tag.header.number
      · rw [if_pos hheader] at h
        exact .inl (Faulting.isFaultIn (d := Opening.mk .load <$> readHeader) hc' h)
      by_cases hunit : Word.low30 tag = Tag.unit.number
      · rw [if_neg hheader, if_pos hunit] at h
        exact .inl (Faulting.isFaultIn
          (d := Block.readUnit >>= fun _ => pure (Opening.mk .object [])) hc' h)
      · rw [if_neg hheader, if_neg hunit] at h
        cases h
        exact .inr ⟨tag, c'.rest, hrest, hheader, hunit, rfl⟩

end Opening

namespace File

instance (opening : Opening) (p : Progress) : Faulting lo hi (readNext opening p) := by
  unfold readNext
  infer_instance

instance (opening : Opening) (p : Progress) : Faulting lo hi (blocksFrom opening p) where
  within {c _ _ _} hc h :=
    Faulting.within (d := collect (readNext opening) (c.rest.length + 1) p) hc h
  isFaultIn {c _} hc h :=
    Faulting.isFaultIn (d := collect (readNext opening) (c.rest.length + 1) p) hc h

theorem isFaultIn_or_unknown {bytes : List UInt8} {e : DecodeError}
    (h : (decode bytes).result = .error e) :
    e.IsFaultIn 0 bytes.length ∨ ∃ tag rest, bytes = Word.bytes tag ++ rest ∧
      Word.low30 tag ≠ Tag.header.number ∧ Word.low30 tag ≠ Tag.unit.number ∧
      e = .unknownBlock 0 (UInt32.ofNat (Word.low30 tag)) := by
  cases ho : Opening.read (.start bytes) with
  | mk result c ws =>
    cases result with
    | error e' =>
      rw [decode, read, bind_of_error ho] at h
      cases h
      have hopening := Opening.isFaultIn_or_unknown (c := .start bytes) (by rw [ho])
      simpa only [Cursor.start, Nat.zero_add] using hopening
    | ok opening =>
      rw [result_of_opening ho] at h
      obtain ⟨b, bs, rfl, rfl, -⟩ := Steady.split ho
      have hwithin : (Cursor.mk (0 + b.length) bs).Within 0 (b ++ bs).length := by
        refine ⟨Nat.zero_le _, Nat.le_of_eq ?_⟩
        rw [List.length_append, Nat.zero_add]
      cases hb : (blocksFrom opening .start ⟨0 + b.length, bs⟩).result with
      | error e' =>
        rw [hb] at h
        cases h
        exact .inl (Faulting.isFaultIn hwithin hb)
      | ok blocks =>
        rw [hb] at h
        cases h

theorem isFault_or_unknown {bytes : List UInt8} {e : DecodeError}
    (h : (decode bytes).result = .error e) :
    e.IsFault ∨ ∃ tag rest, bytes = Word.bytes tag ++ rest ∧
      Word.low30 tag ≠ Tag.header.number ∧ Word.low30 tag ≠ Tag.unit.number := by
  obtain hfault | ⟨tag, rest, hbytes, hheader, hunit, -⟩ := isFaultIn_or_unknown h
  · exact .inl hfault.isFault
  · exact .inr ⟨tag, rest, hbytes, hheader, hunit⟩

end File
end AmigaHunk
