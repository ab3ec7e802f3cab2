import AmigaHunk.Session.Basic

/-! The commands of the program, and what they print. -/
namespace AmigaHunk

/-- What is asked of the binary at a path. -/
inductive Task where
  | dump
  | symbols (file : Option String)
  | lookup (segment : Nat) (offset : UInt32)
  | address (file : String) (line : UInt32)
  | segments (file : String)
  deriving DecidableEq, Repr

structure Command where
  program : HostText
  task : Task
  deriving DecidableEq, Repr

/-- The lines printed, or a message about what went wrong. -/
abbrev Report := Except String (List String)

open Numeral

def SegmentSymbol.label (s : SegmentSymbol) : String :=
  s!"{column 3 s.segment}  0x{hex8 s.symbol.offset}  {s.symbol.name}"

/-- An empty line, the hunk, its code, its symbols and its sources. -/
def Hunk.report (h : Hunk) : Session.Action (List String) := do
  let sources ← h.tableList.mapM fun t => do
    let path ← Session.resolveName t.name
    return s!"  Source: {t.name} -> {path} ({decimal t.entries.length} lines)"
  return ["", h.label] ++
    (h.code.map fun code => s!"  Code: {decimal code.length} bytes").toList ++
    h.symbolList.map (fun s => s!"  {s.label}") ++ sources

namespace Task

/-- What the task prints about the binary of the session. -/
def report : Task → Session.Action Report
  | dump => do
    let hunks := (← get).hunks
    return .ok (s!"Hunks: {decimal hunks.length}" :: (← hunks.mapM Hunk.report).flatten)
  | symbols file => do return .ok ((← Session.symbols file).map (·.label))
  | lookup segment offset => do
    match ← Session.locate segment offset with
    | some found => return .ok [found.label]
    | none => return .error s!"No line information for {(Address.mk segment offset).label}"
  | address file line => do
    match ← Session.address file line with
    | some found => return .ok [found.label]
    | none => return .error s!"No code generated for {file}:{decimal line.toNat}"
  | segments file => do return .ok ((← Session.segments file).map decimal)

end Task

/-- Loads the program and reports on it. -/
def Command.report (c : Command) : Session.Action Report := do
  match ← Session.load c.program with
  | .error e => return .error e.message
  | .ok false => return .error s!"Program not found: {c.program.text}"
  | .ok true => c.task.report

end AmigaHunk
