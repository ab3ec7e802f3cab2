/-! Written numbers: the digits that are printed, and reading digits back under a bound. -/
namespace AmigaHunk.Numeral

def decimal (n : Nat) : String := String.ofList (Nat.toDigits 10 n)

def hex (n : Nat) : String := String.ofList (Nat.toDigits 16 n)

/-- The eight hexadecimal digits of a longword. -/
def hex8 (w : UInt32) : String := String.ofList ((Nat.toDigits 16 w.toNat).leftpad 8 '0')

/-- A number right-aligned in a column of the given width. -/
def column (width n : Nat) : String := String.ofList ((Nat.toDigits 10 n).leftpad width ' ')

/-- Why a text is not a number below the bound. -/
inductive Fault where
  | empty
  | invalidDigit
  | tooLarge
  deriving DecidableEq, Repr

def Fault.message : Fault → String
  | .empty => "cannot parse integer from empty string"
  | .invalidDigit => "invalid digit found in string"
  | .tooLarge => "number too large to fit in target type"

/-- The value of a digit; letters of either case count from ten. -/
def digit? (radix : Nat) (c : Char) : Option Nat :=
  let value :=
    if c.isDigit then some (c.toNat - '0'.toNat)
    else if c.isLower then some (c.toNat - 'a'.toNat + 10)
    else if c.isUpper then some (c.toNat - 'A'.toNat + 10)
    else none
  value.filter (· < radix)

/-- Reads digits from the left onto `value`; the first character that is no digit, or the first
digit that reaches `bound`, decides the fault. -/
def readDigits (radix bound : Nat) : Nat → List Char → Except Fault Nat
  | value, [] => .ok value
  | value, c :: cs =>
    match digit? radix c with
    | none => .error .invalidDigit
    | some d =>
      if value * radix + d < bound then readDigits radix bound (value * radix + d) cs
      else .error .tooLarge

/-- An unsigned numeral below `bound`: one `+` may stand in front, a sign alone is no number. -/
def read (radix bound : Nat) : List Char → Except Fault Nat
  | [] => .error .empty
  | ['+'] => .error .invalidDigit
  | '+' :: digits => readDigits radix bound 0 digits
  | digits => readDigits radix bound 0 digits

/-- A signed numeral whose value is at least zero and below `bound`: with a minus, only zero. -/
def readNonNegative? (bound : Nat) : List Char → Option Nat
  | '-' :: d :: digits => (readDigits 10 1 0 (d :: digits)).toOption
  | digits => (read 10 bound digits).toOption

end AmigaHunk.Numeral
