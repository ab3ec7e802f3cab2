import AmigaHunk.Proofs.Binary.Shift
import AmigaHunk.Proofs.Grammar.FileDecoder

/-! Blocks that lie some longwords further on decode to the same, and their errors lie as far on. -/
namespace AmigaHunk
open Decoder

namespace LineTable

instance (a b : UInt32) (fault : Fault) : Uniform (sum a b fault) := by
  unfold sum
  cases Word.add? a b <;> infer_instance

instance (base : UInt32) : Uniform (readPair base) := by
  unfold readPair
  infer_instance

instance : Uniform readDelta := by
  unfold readDelta
  infer_instance

instance (base : UInt32) (last : LineEntry) : Uniform (readStep base last) := by
  unfold readStep
  infer_instance

instance (base : UInt32) : Uniform (readDeltas base) := by
  unfold readDeltas
  infer_instance

instance (base : UInt32) : Uniform (readPairs base) where
  shifts {k} hk := by
    refine (Uniform.shifts hk).bind fun n => (Uniform.shifts hk).bind fun entries =>
      (Uniform.shifts hk).bind fun extra => Shifts.ite ?_ (Uniform.shifts hk)
    exact Shifts.offset_bind fun o =>
      (Shifts.warn k (.trailingBytes extra o)).bind fun _ => Uniform.shifts hk

instance (layout : Layout) (base : UInt32) : Uniform (layout.read base) := by
  cases layout
  · exact inferInstanceAs (Uniform (readPairs base))
  · exact inferInstanceAs (Uniform (readDeltas base))

instance : Uniform LineTable.read where
  shifts {k} hk := by
    refine (Uniform.shifts hk).bind fun n => Shifts.ite (Uniform.shifts hk) ?_
    refine (Uniform.shifts hk).bind fun base => (Uniform.shifts hk).bind fun w => ?_
    cases Layout.ofWord? w with
    | none => exact Uniform.shifts hk
    | some layout =>
      exact (Uniform.shifts hk).bind fun name => (Uniform.shifts hk).bind fun entries =>
        Uniform.shifts hk

end LineTable

instance (w : UInt32) : Uniform (MemoryKind.read w) := by
  rw [MemoryKind.read_eq]
  infer_instance

namespace Block
variable {k : Nat}

instance (tag : UInt32) (kind : HunkKind) : Uniform (readSegment tag kind) := by
  unfold readSegment
  infer_instance

instance : Uniform readSymbol := by
  unfold readSymbol
  infer_instance

instance : Uniform skipLongGroup := by
  unfold skipLongGroup
  infer_instance

instance : Uniform skipShortGroup := by
  unfold skipShortGroup
  infer_instance

instance : Uniform skipExternal := by
  unfold skipExternal
  infer_instance

instance : Uniform skipLongRelocations :=
  inferInstanceAs (Uniform (many skipLongGroup >>= fun _ => pure ()))

instance : Uniform skipShortRelocations :=
  inferInstanceAs (Uniform (many skipShortGroup >>= fun _ => align))

instance : Uniform skipExternals :=
  inferInstanceAs (Uniform (many skipExternal >>= fun _ => pure ()))

instance : Uniform skipCounted :=
  inferInstanceAs (Uniform (word >>= fun longs => skipLongs longs.toNat))

instance : Uniform readUnit := inferInstanceAs (Uniform (text >>= fun _ => pure ()))

instance (current : Option Nat) : Uniform (warnOpen current) where
  shifts {k} hk := by
    cases current with
    | none => exact fun _ => rfl
    | some id => exact Shifts.warn k (.notClosed id)

theorem shifts_skipOverlay (hk : 4 ∣ k) (start : Nat) :
    Shifts k (skipOverlay start) (skipOverlay (start + k)) :=
  (Uniform.shifts hk).bind fun _ =>
    .ite ((Shifts.failAt k start _).bind fun _ => Uniform.shifts hk) (Uniform.shifts hk)

theorem shifts_skipUnknown (hk : 4 ∣ k) (start : Nat) (tag : UInt32) :
    Shifts k (skipUnknown start tag) (skipUnknown (start + k) tag) :=
  (Uniform.shifts hk).bind fun longs =>
    .ite ((Shifts.warn k (.unknownBlock start (Word.low29 tag) longs.toNat)).bind
      fun _ => Uniform.shifts hk) (Uniform.shifts hk)

theorem shifts_requireOpen (hk : 4 ∣ k) (current : Option Nat) (start : Nat) (tag : Tag) :
    Shifts k (requireOpen current start tag) (requireOpen current (start + k) tag) :=
  .ite (Uniform.shifts hk) (Shifts.failAt k start _)

theorem shifts_readDebug (hk : 4 ∣ k) (current : Option Nat) (start : Nat) :
    Shifts k (readDebug current start) (readDebug current (start + k)) := by
  refine (Uniform.shifts hk).bind fun longs => (Uniform.shifts hk).bind fun _ => ?_
  refine Shifts.split_bind hk _ fun place => ?_
  refine (shifts_requireOpen hk current start .debug).bind fun _ => ?_
  exact (Shifts.inside (Uniform.shifts hk) place).bind fun _ => Uniform.shifts hk

theorem shifts_readBody (hk : 4 ∣ k) (kind : FileKind) (current : Option Nat) (start : Nat)
    (tag : UInt32) :
    Shifts k (readBody kind current start tag) (readBody kind current (start + k) tag) := by
  unfold readBody
  cases Tag.ofNumber? (Word.low29 tag) with
  | none => exact (shifts_skipUnknown hk start tag).bind fun _ => Uniform.shifts hk
  | some t =>
    cases t with
    | symbol =>
      exact (shifts_requireOpen hk current start .symbol).bind fun _ => Uniform.shifts hk
    | debug => exact shifts_readDebug hk current start
    | overlay => exact (shifts_skipOverlay hk start).bind fun _ => Uniform.shifts hk
    | header => exact Shifts.failAt k start _
    | _ => exact Uniform.shifts hk

instance (kind : FileKind) (current : Option Nat) : Uniform (Block.read kind current) where
  shifts hk := Shifts.offset_bind fun start => (Uniform.shifts hk).bind fun tag =>
    shifts_readBody hk kind current start tag

end Block

namespace File

instance (opening : Opening) (p : Progress) : Uniform (readNext opening p) := by
  unfold readNext
  infer_instance

instance (opening : Opening) (p : Progress) : Uniform (blocksFrom opening p) where
  shifts hk c := Shifts.collect (fun _ => Uniform.shifts hk) (c.rest.length + 1) p c

end File
end AmigaHunk
