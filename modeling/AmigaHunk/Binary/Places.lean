import AmigaHunk.Binary.Decoder

/-! Reading step by step in nested places: a stack of cursors, of which the top one moves. -/
namespace AmigaHunk

structure Places where
  top : Cursor
  below : List Cursor
  deriving DecidableEq, Repr

def Places.start (bytes : List UInt8) : Places := ⟨.start bytes, []⟩

inductive Step where
  | byte
  | halfword
  | word
  | take (n : Nat)
  | skip (n : Nat)
  | skipLongs (longs : Nat)
  | padded (longs : Nat)
  | text
  | align
  /-- Goes on in the next `n` bytes, leaving the place below behind them. -/
  | split (n : Nat)
  /-- Goes back to the place below, if there is one. -/
  | leave
  deriving DecidableEq, Repr

inductive Reading where
  | nothing
  | number (n : Nat)
  | bytes (bytes : List UInt8)
  | text (s : String)
  deriving DecidableEq, Repr

namespace Step

/-- A step that reads at the top place. -/
def atTop (d : Decoder Reading) (p : Places) : Except DecodeError Reading × Places :=
  let o := d p.top
  (o.result, ⟨o.cursor, p.below⟩)

def run (p : Places) : Step → Except DecodeError Reading × Places
  | byte => atTop (.number <$> Decoder.byte) p
  | halfword => atTop (.number <$> Decoder.halfword) p
  | word => atTop ((fun w => .number w.toNat) <$> Decoder.word) p
  | take n => atTop (.bytes <$> Decoder.take n) p
  | skip n => atTop ((fun _ => .nothing) <$> Decoder.skip n) p
  | skipLongs longs => atTop ((fun _ => .nothing) <$> Decoder.skipLongs longs) p
  | padded longs => atTop (.text <$> Decoder.padded longs) p
  | text => atTop (.text <$> Decoder.text) p
  | align => atTop ((fun _ => .nothing) <$> Decoder.align) p
  | split n =>
    match Decoder.split n p.top with
    | ⟨.ok place, c, _⟩ => (.ok .nothing, ⟨place, c :: p.below⟩)
    | ⟨.error e, c, _⟩ => (.error e, ⟨c, p.below⟩)
  | leave =>
    match p.below with
    | [] => (.ok .nothing, p)
    | c :: below => (.ok .nothing, ⟨c, below⟩)

end Step

/-- What each step of a script answers, and where the top place stands after it. -/
def Places.runAll (p : Places) : List Step → List (Except DecodeError Reading × Cursor)
  | [] => []
  | s :: steps =>
    let (answer, p) := s.run p
    (answer, p.top) :: p.runAll steps

end AmigaHunk
