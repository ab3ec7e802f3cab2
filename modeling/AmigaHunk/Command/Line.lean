import AmigaHunk.Command.Basic
import AmigaHunk.Log.Names

/-! What a command line says, once its words are sorted: the options, and a task with its operands,
which are still to be read. -/
namespace AmigaHunk

namespace Operand

/-- An offset in decimal, or behind `0x` in hexadecimal digits. -/
def offset (s : String) : Except Numeral.Fault UInt32 :=
  let digits := match s.toList with
    | '0' :: 'x' :: digits | '0' :: 'X' :: digits => Numeral.read 16 0x100000000 digits
    | digits => Numeral.read 10 0x100000000 digits
  digits.map UInt32.ofNat

def offsetMessage (s : String) (fault : Numeral.Fault) : String :=
  s!"Invalid offset {s}: {fault.message}"

def segment? (s : String) : Option Nat := (Numeral.read 10 0x10000000000000000 s.toList).toOption

def line? (s : String) : Option UInt32 :=
  (Numeral.readNonNegative? 0x100000000 s.toList).map UInt32.ofNat

end Operand

/-- The words that tell what to do. -/
inductive Verb where
  | dump
  | symbols
  | lookup
  | address
  | segments
  deriving DecidableEq, Repr

structure Options where
  replacements : List Replacement
  workspaceRoots : List HostText
  sourceRoots : List HostText
  logLevel : Option LogLevel
  deriving DecidableEq, Repr

/-- Without a workspace root the working directory is one, if the host tells it. -/
def Options.paths (o : Options) (working : Except String HostText) : Except String PathConfig :=
  let roots := if o.workspaceRoots = [] then working.map ([·]) else .ok o.workspaceRoots
  roots.map (⟨o.replacements, ·, o.sourceRoots⟩)

/-- A command line. The file is the one that the listing of symbols may be limited to. -/
structure CommandLine where
  options : Options
  verb : Verb
  program : HostText
  file : Option String
  operands : List String
  deriving DecidableEq, Repr

namespace CommandLine

def task? (line : CommandLine) : Option Task :=
  match line.verb, line.operands with
  | .dump, [] => some .dump
  | .symbols, [] => some (.symbols line.file)
  | .lookup, [segment, offset] => do
    return .lookup (← Operand.segment? segment) (← (Operand.offset offset).toOption)
  | .address, [file, number] => do return .address file (← Operand.line? number)
  | .segments, [file] => some (.segments file)
  | _, _ => none

def command? (line : CommandLine) : Option Command := line.task?.map (⟨line.program, ·⟩)

end CommandLine
end AmigaHunk
