/-! Text of bytes that need not be UTF-8: each maximal ill-formed run of bytes stands for one
replacement character. -/
namespace AmigaHunk.Utf8

/-- A sequence begun but not finished: how many bytes are still owed, the range of the next one,
and the bits gathered so far. -/
structure Owing where
  count : Nat
  low : Nat
  high : Nat
  bits : Nat
  deriving DecidableEq, Repr

/-- What a byte starts: a whole character, a longer sequence, or nothing. -/
inductive Start where
  | whole (c : Char)
  | longer (owing : Owing)
  | stray
  deriving DecidableEq, Repr

/-- The table of well-formed sequences, by first byte. The range of the second byte excludes
overlong forms, surrogates and values past the last character. -/
def Start.ofByte (b : Nat) : Start :=
  if b < 0x80 then .whole (Char.ofNat b)
  else if b < 0xC2 then .stray
  else if b < 0xE0 then .longer ⟨1, 0x80, 0xBF, b - 0xC0⟩
  else if b = 0xE0 then .longer ⟨2, 0xA0, 0xBF, 0⟩
  else if b = 0xED then .longer ⟨2, 0x80, 0x9F, 0xD⟩
  else if b < 0xF0 then .longer ⟨2, 0x80, 0xBF, b - 0xE0⟩
  else if b = 0xF0 then .longer ⟨3, 0x90, 0xBF, 0⟩
  else if b < 0xF4 then .longer ⟨3, 0x80, 0xBF, b - 0xF0⟩
  else if b = 0xF4 then .longer ⟨3, 0x80, 0x8F, 4⟩
  else .stray

def replacement : Char := Char.ofNat 0xFFFD

/-- The text read so far, last character first, and the sequence under way. -/
structure State where
  text : List Char
  owing : Option Owing
  deriving DecidableEq, Repr

def State.begin (text : List Char) (b : Nat) : State :=
  match Start.ofByte b with
  | .whole c => ⟨c :: text, none⟩
  | .longer owing => ⟨text, some owing⟩
  | .stray => ⟨replacement :: text, none⟩

/-- A byte that does not continue the sequence under way ends it and is looked at afresh. -/
def State.push (s : State) (byte : UInt8) : State :=
  let b := byte.toNat
  match s.owing with
  | none => .begin s.text b
  | some o =>
    if o.low ≤ b ∧ b ≤ o.high then
      let bits := o.bits * 64 + b % 64
      if o.count = 1 then ⟨Char.ofNat bits :: s.text, none⟩
      else ⟨s.text, some ⟨o.count - 1, 0x80, 0xBF, bits⟩⟩
    else .begin (replacement :: s.text) b

def State.finish (s : State) : List Char :=
  match s.owing with
  | none => s.text.reverse
  | some _ => (replacement :: s.text).reverse

/-- The text of `bytes`. -/
def decode (bytes : List UInt8) : String :=
  String.ofList (bytes.foldl State.push ⟨[], none⟩).finish

/-- The bytes of a text. -/
def encode (s : String) : List UInt8 := s.toList.flatMap String.utf8EncodeChar

end AmigaHunk.Utf8
