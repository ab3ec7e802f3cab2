import AmigaHunk.Command.Line

/-! What the program says about itself: a page of help on the whole, one on each of its words, and
its version. The parser of a real program makes these from what it knows of the options. -/
namespace AmigaHunk.Help

/-- The words that may name a task; the last one names none, but asks for help. -/
inductive Word where
  | task (verb : Verb)
  | help
  deriving DecidableEq, Repr

namespace Word

def all : List Word :=
  [task .dump, task .symbols, task .lookup, task .address, task .segments, help]

def name : Word → String
  | task .dump => "dump"
  | task .symbols => "symbols"
  | task .lookup => "lookup"
  | task .address => "address"
  | task .segments => "segments"
  | help => "help"

def ofName? (s : String) : Option Word := all.find? (·.name = s)

end Word

def program : String := "hunkdbg"

def version : String := s!"{program} 0.0.0"

/-- A term of a list, and what it means. -/
structure Entry where
  term : String
  meaning : String
  deriving DecidableEq, Repr

def Entry.width (e : Entry) : Nat := e.term.length

def Entry.row (width : Nat) (e : Entry) : String :=
  "  " ++ String.ofList (e.term.toList.rightpad width ' ') ++ "  " ++ e.meaning

/-- A list under a title; the meanings stand in a column of their own. -/
def list (title : String) (entries : List Entry) : List String :=
  let width := (entries.map Entry.width).foldl max 0
  "" :: s!"{title}:" :: entries.map (·.row width)

/-- The options that stand on both sides of the name of the task. -/
def commonOptions : List Entry :=
  [⟨"    --replace <FROM=TO>", "Rewrite recorded source paths (FROM=TO, first match wins)"⟩,
   ⟨"    --workspace-root <DIR>", "Project root used to find sources (default: current directory)"⟩,
   ⟨"    --source-root <DIR>", "Extra directory probed for sources not found otherwise"⟩,
   ⟨"    --log-level <LOG_LEVEL>", "Log level (overrides RUST_LOG)"⟩]

def fileOption : Entry :=
  ⟨"-f, --file <FILE>", "Only hunks whose line tables reference this source file"⟩

def helpOption : Entry := ⟨"-h, --help", "Print help"⟩

def versionOption : Entry := ⟨"-V, --version", "Print version"⟩

def binary : Entry := ⟨"<PROGRAM>", "Hunk executable to inspect"⟩

def source : Entry := ⟨"<FILE>", "Source file as recorded or as found in the workspace"⟩

def about : Word → String
  | .task .dump => "List hunks with their symbols and source files"
  | .task .symbols => "List symbols, optionally only those of hunks built from a file"
  | .task .lookup => "Source line for an address"
  | .task .address => "First address generated for a source line"
  | .task .segments => "Segments containing code from a source file"
  | .help => "Print this message or the help of the given subcommand(s)"

def operands : Word → List Entry
  | .task .dump | .task .symbols => [binary]
  | .task .lookup => [binary, ⟨"<SEGMENT>", "Segment (hunk index)"⟩,
      ⟨"<OFFSET>", "Offset within the segment (hex format: 0x24 or decimal)"⟩]
  | .task .address => [binary, source, ⟨"<LINE>", "1-based line number"⟩]
  | .task .segments => [binary, source]
  | .help => [⟨"[COMMAND]...", "Print help for the subcommand(s)"⟩]

def options : Word → List Entry
  | .help => []
  | .task .symbols => fileOption :: commonOptions ++ [helpOption]
  | .task _ => commonOptions ++ [helpOption]

def usage (words : List String) : String := " ".intercalate ("Usage:" :: program :: words)

def programPage : List String :=
  ["Source-level debug information for Amiga hunk executables", "",
    usage ["[OPTIONS]", "<COMMAND>"]] ++
  list "Commands" (Word.all.map fun w => ⟨w.name, about w⟩) ++
  list "Options" (commonOptions ++ [helpOption, versionOption])

def wordPage (w : Word) : List String :=
  let optional := if options w = [] then [] else ["[OPTIONS]"]
  [about w, "", usage (w.name :: optional ++ (operands w).map Entry.term)] ++
    list "Arguments" (operands w) ++
    if options w = [] then [] else list "Options" (options w)

/-- The page on a word, or on the program. -/
def page : Option Word → List String
  | none => programPage
  | some w => wordPage w

end AmigaHunk.Help
