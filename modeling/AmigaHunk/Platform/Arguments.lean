import AmigaHunk.Command.Program
import AmigaHunk.Platform.Help

/-! A parser for the arguments of the program, which are read from left to right. The first that is
wrong, or that asks for help, decides. A real program has a parser from a library; this one stands
in for it, so that the program can be run, and nothing is proved about it. -/
namespace AmigaHunk

open Help (Word)

/-- The options, which stand before or behind the name of the task, and the file option of the
symbols task. -/
inductive Switch where
  | replace
  | workspaceRoot
  | sourceRoot
  | logLevel
  | file
  deriving DecidableEq, Repr

/-- The options on one side of the name of the task. -/
structure Side where
  options : Options
  file : Option String
  deriving DecidableEq, Repr

namespace Side

def empty : Side := ⟨⟨[], [], [], none⟩, none⟩

/-- The value of a switch in this place; paths are not empty, and the last two come once. -/
def add (side : Side) (value : String) : Switch → Option Side
  | .replace => (Replacement.parse? value).map fun r =>
    { side with options.replacements := side.options.replacements ++ [r] }
  | .workspaceRoot =>
    if value = "" then none
    else some { side with options.workspaceRoots := side.options.workspaceRoots ++ [.ofText value] }
  | .sourceRoot =>
    if value = "" then none
    else some { side with options.sourceRoots := side.options.sourceRoots ++ [.ofText value] }
  | .logLevel =>
    if side.options.logLevel.isSome then none
    else (LogLevel.parse? value).map fun level => { side with options.logLevel := some level }
  | .file => if side.file.isSome then none else some { side with file := some value }

/-- What is given behind the name of the task replaces what is given before it. -/
def inherit (inner outer : Options) : Options where
  replacements := if inner.replacements = [] then outer.replacements else inner.replacements
  workspaceRoots := if inner.workspaceRoots = [] then outer.workspaceRoots else inner.workspaceRoots
  sourceRoots := if inner.sourceRoots = [] then outer.sourceRoots else inner.sourceRoots
  logLevel := inner.logLevel.or outer.logLevel

end Side

/-- How far the arguments are read. `before` and `behind` are the options on the two sides of the
name of the task; `waiting` is a switch whose value comes next; with `literal` nothing more is an
option. -/
structure Scan where
  word : Option Word
  before : Side
  behind : Side
  operands : List String
  waiting : Option Switch
  literal : Bool
  deriving DecidableEq, Repr

namespace Scan

def start : Scan := ⟨none, .empty, .empty, [], none, false⟩

def misuse {α : Type} : Except Exit α := .error .misuse

def help {α : Type} (topic : Option Word) : Except Exit α := .error ⟨0, Help.page topic, []⟩

def version {α : Type} : Except Exit α := .error ⟨0, [Help.version], []⟩

def switch? (s : Scan) : String → Option Switch
  | "replace" => some .replace
  | "workspace-root" => some .workspaceRoot
  | "source-root" => some .sourceRoot
  | "log-level" => some .logLevel
  | "file" => if s.word = some (.task .symbols) then some .file else none
  | _ => none

def give (s : Scan) (switch : Switch) (value : String) : Except Exit Scan :=
  match s.word with
  | none =>
    match s.before.add value switch with
    | some side => .ok { s with before := side, waiting := none }
    | none => misuse
  | some _ =>
    match s.behind.add value switch with
    | some side => .ok { s with behind := side, waiting := none }
    | none => misuse

/-- Whether a word takes the argument as its operand at this index. The program comes first. -/
def accepts (arg : String) : Word → Nat → Bool
  | .help, 0 => (Word.ofName? arg).isSome
  | .task _, 0 => arg ≠ ""
  | .task .lookup, 1 => (Operand.segment? arg).isSome
  | .task .lookup, 2 => (Operand.offset arg).isOk
  | .task .address, 1 | .task .segments, 1 => true
  | .task .address, 2 => (Operand.line? arg).isSome
  | _, _ => false

/-- A plain argument: the name of the task, and after it an operand. -/
def plain (s : Scan) (arg : String) : Except Exit Scan :=
  match s.word with
  | none =>
    if s.literal then misuse
    else match Word.ofName? arg with
      | some word => .ok { s with word := some word }
      | none => misuse
  | some word =>
    if accepts arg word s.operands.length then .ok { s with operands := s.operands ++ [arg] }
    else misuse

/-- A switch by its long name, with its value behind an equals sign or in the next argument. -/
def long (s : Scan) (text : List Char) : Except Exit Scan :=
  let name := String.ofList (text.takeWhile (· ≠ '='))
  match text.dropWhile (· ≠ '=') with
  | _ :: value =>
    match s.switch? name with
    | some switch => s.give switch (String.ofList value)
    | none => misuse
  | [] =>
    if name = "help" then help s.word
    else if name = "version" ∧ s.word = none then version
    else match s.switch? name with
      | some switch => .ok { s with waiting := some switch }
      | none => misuse

/-- A switch by its letter. -/
def short (s : Scan) : List Char → Except Exit Scan
  | 'h' :: _ => help s.word
  | 'V' :: _ => if s.word = none then version else misuse
  | 'f' :: value =>
    if s.word ≠ some (.task .symbols) then misuse
    else match value with
      | [] => .ok { s with waiting := some .file }
      | '=' :: value => s.give .file (String.ofList value)
      | value => s.give .file (String.ofList value)
  | _ => misuse

/-- An argument that starts with a dash is no value, unless it is the dash alone. Behind `help`
nothing is an option. -/
def step (s : Scan) (arg : String) : Except Exit Scan :=
  if s.word = some .help then s.plain arg
  else match s.waiting, s.literal, arg.toList with
  | some switch, _, '-' :: [] => s.give switch arg
  | some _, _, '-' :: _ => misuse
  | some switch, _, _ => s.give switch arg
  | none, false, ['-', '-'] => .ok { s with literal := true }
  | none, false, '-' :: '-' :: text => s.long text
  | none, false, '-' :: c :: text => s.short (c :: text)
  | none, _, _ => s.plain arg

def finish (s : Scan) : Except Exit CommandLine :=
  match s.waiting, s.word, s.operands with
  | none, some .help, topic => help (topic.head?.bind Word.ofName?)
  | none, some (.task verb), program :: operands =>
    .ok ⟨Side.inherit s.behind.options s.before.options, verb, program, s.behind.file, operands⟩
  | _, _, _ => misuse

/-- Sorts the words of a command line. -/
def parse (args : List String) : Except Exit CommandLine := do
  (← args.foldlM step .start).finish

end Scan
end AmigaHunk
