/-! Longwords: big-endian bytes, the fields packed into one longword, and sums that must fit. -/
namespace AmigaHunk

/-- The number written by `bytes`, first byte most significant. -/
def bigEndian (bytes : List UInt8) : Nat := bytes.foldl (fun n b => n * 256 + b.toNat) 0

namespace Word

def low24 (w : UInt32) : Nat := w.toNat % 0x1000000

def low29 (w : UInt32) : Nat := w.toNat % 0x20000000

def low30 (w : UInt32) : Nat := w.toNat % 0x40000000

/-- The two top bits. -/
def flags (w : UInt32) : Nat := w.toNat / 0x40000000

/-- Bit 29 of a tag: a loader may skip the block if it does not know it. -/
def isAdvisory (w : UInt32) : Bool := w.toNat / 0x20000000 % 2 == 1

/-- The sum of two longwords, if it is one. -/
def add? (a b : UInt32) : Option UInt32 :=
  if a.toNat + b.toNat < 0x100000000 then some (a + b) else none

theorem add?_eq_some_iff {a b c : UInt32} : add? a b = some c ↔ c.toNat = a.toNat + b.toNat := by
  unfold add?
  split
  · rw [Option.some.injEq, ← UInt32.toNat_inj, UInt32.toNat_add, Nat.mod_eq_of_lt ‹_›, eq_comm]
  · simp only [reduceCtorEq, false_iff]
    intro h
    have := c.toNat_lt
    omega

end Word
end AmigaHunk
