import AmigaHunk.Block.Tag
import AmigaHunk.Text.Numeral

/-! What can go wrong: faults inside a binary, and files that cannot be read. -/
namespace AmigaHunk

/-- What is inconsistent in a binary. Lengths are in bytes where the name does not say longs. -/
inductive Fault where
  | short (wanted left : Nat)
  | blockTooLong (longs left : Nat)
  | hunkRange (first last : Nat)
  | headerTooShort (count : Nat)
  | lateHeader
  | outsideHunk (tag : Tag)
  | overlayTooLong
  | entryCount (count left : Nat)
  | lineTooLarge
  | offsetTooLarge
  deriving DecidableEq, Repr

open Numeral in
def Fault.message : Fault → String
  | short wanted left => s!"wanted {decimal wanted} bytes, only {decimal left} left"
  | blockTooLong longs left =>
    s!"block declares {decimal longs} longwords, only {decimal left} bytes left"
  | hunkRange first last =>
    s!"HUNK_HEADER last hunk {decimal last} before first hunk {decimal first}"
  | headerTooShort count => s!"HUNK_HEADER declares {decimal count} hunks, buffer too short"
  | lateHeader => "HUNK_HEADER after the first block"
  | outsideHunk tag => s!"{tag.label} outside of a hunk"
  | overlayTooLong => "overlay table size overflows"
  | entryCount count left =>
    s!"HCLN table claims {decimal count} entries in {decimal left} bytes"
  | lineTooLarge => "HCLN line number overflows"
  | offsetTooLarge => "line table offset overflows 32 bits"

/-- Why a binary cannot be decoded, and where. -/
inductive DecodeError where
  | malformed (offset : Nat) (fault : Fault)
  | unknownBlock (offset : Nat) (tag : UInt32)
  deriving DecidableEq, Repr

open Numeral in
def DecodeError.message : DecodeError → String
  | malformed offset fault => s!"Malformed hunk binary at offset 0x{hex offset}: {fault.message}"
  | unknownBlock offset tag => s!"Unknown hunk block 0x{hex8 tag} at offset 0x{hex offset}"

/-- Why a request fails. A cause is the host's own text. -/
inductive Error where
  | decode (error : DecodeError)
  | sourceUnreadable (path cause : String)
  | io (cause : String)
  deriving DecidableEq, Repr

def Error.message : Error → String
  | decode error => error.message
  | sourceUnreadable path cause => s!"Unable to read source file {path}: {cause}"
  | io cause => s!"IO error: {cause}"

/-- Whether the binary itself is at fault. -/
def Error.isMalformed : Error → Bool
  | decode _ => true
  | _ => false

end AmigaHunk
