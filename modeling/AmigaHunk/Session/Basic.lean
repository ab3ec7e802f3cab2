import AmigaHunk.File.Basic
import AmigaHunk.Path.Resolver
import AmigaHunk.Source.TextCache

/-! A session: one loaded binary, and questions about the source behind its code. -/
namespace AmigaHunk

/-- An address as a binary knows it: an offset in a segment, whose place in memory the loader
decides. -/
structure Address where
  segment : Nat
  offset : UInt32
  deriving DecidableEq, Repr

namespace Address

/-- The address in memory of a segment loaded at `base`, if there is one. -/
def relocate (a : Address) (base : UInt32) : Option UInt32 := Word.add? base a.offset

def label (a : Address) : String := s!"{Numeral.decimal a.segment}:0x{Numeral.hex8 a.offset}"

/-- By segment, then by offset. -/
def le (a b : Address) : Bool :=
  a.segment < b.segment || (a.segment == b.segment && a.offset ≤ b.offset)

def sort (as : List Address) : List Address := as.mergeSort le

end Address

/-- The hunks of the binary, with the paths and the texts found so far. -/
structure Session where
  hunks : List Hunk
  resolver : Resolver
  texts : TextCache
  deriving DecidableEq, Repr

/-- A place in a source file, with the text of the line if there is one. -/
structure Location where
  file : String
  line : UInt32
  text : Option String
  deriving DecidableEq, Repr

def Location.label (l : Location) : String :=
  let text := match l.text with
    | some text => s!"  {text}"
    | none => ""
  s!"{l.file}:{Numeral.decimal l.line.toNat}{text}"

structure SegmentSymbol where
  symbol : Symbol
  segment : Nat
  deriving DecidableEq, Repr

namespace Session

/-- A question may ask the host, and may leave new answers in the caches. -/
abbrev Action (α : Type) := StateT Session Query α

def start (hunks : List Hunk) (config : PathConfig) : Session :=
  ⟨hunks, Resolver.start config, TextCache.start⟩

def withResolver {α : Type} (act : StateT Resolver Query α) : Action α := do
  let s ← get
  let (a, resolver) ← act.run s.resolver
  set { s with resolver := resolver }
  return a

def withTexts {α : Type} (act : StateT TextCache Query α) : Action α := do
  let s ← get
  let (a, texts) ← act.run s.texts
  set { s with texts := texts }
  return a

/-- Takes up the binary at `path` in place of the one before, if it exists and decodes; the
configuration stays, and the caches are emptied. -/
def load (path : HostText) : Action (Except Error Bool) := do
  if !(← Query.exists? path) then return .ok false
  match ← Query.contents path with
  | .error cause => return .error (.io cause)
  | .ok bytes =>
    let o := File.decode bytes
    o.warnings.forM fun w => (Query.warn w : Action Unit)
    match o.result with
    | .error e => return .error (.decode e)
    | .ok hunks =>
      (Query.note (.loaded path.text hunks.length) : Action Unit)
      set (start hunks (← get).resolver.config)
      return .ok true

/-- The bytes of the code hunks. -/
def codeData (s : Session) : List (List UInt8) :=
  (s.hunks.filter (·.kind = .code)).filterMap (·.code)

def resolveName (name : String) : Action String := withResolver (Resolver.resolve name)

/-- Whether the source of a table, where it lies now, is the file `wanted`. -/
def isFor (wanted : String) (t : LineTable) : Action Bool := do
  return Path.same (← resolveName t.name) wanted

/-- Whether a hunk has a symbol list and, if a file is wanted, a table for it. -/
def isListed (wanted : Option String) (h : Hunk) : Action Bool := do
  if h.symbols.isNone then return false
  match wanted with
  | none => return true
  | some file => h.tableList.anyM (isFor file)

/-- All symbols, or all those of the hunks with a table for `file`. -/
def symbols (file : Option String) : Action (List SegmentSymbol) := do
  let wanted ← file.mapM resolveName
  let hunks ← (← get).hunks.filterM (isListed wanted)
  return hunks.flatMap fun h => h.symbolList.map (⟨·, h.id⟩)

/-- A line of a file where it lies now, counted from zero. -/
def textLine (path : String) (index : Nat) : Action (Except Error (Option String)) :=
  withTexts (TextCache.line path index)

/-- The text of a line counted from one; a file that cannot be read has none, with a warning. -/
def textFor (path : String) (line : UInt32) : Action (Option String) := do
  if line = 0 then return none
  match ← textLine path (line.toNat - 1) with
  | .ok text => return text
  | .error e =>
    (Query.warn (.noSourceText e) : Action Unit)
    return none

/-- The first table that covers `offset` decides. -/
def covering (h : Hunk) (offset : UInt32) : Option (LineTable × UInt32) :=
  h.tableList.findSome? fun t => (t.findLine offset).map (t, ·)

def locate (segment : Nat) (offset : UInt32) : Action (Option Location) := do
  match (← get).hunks[segment]?.bind (covering · offset) with
  | none => return none
  | some (t, line) =>
    let file ← resolveName t.name
    return some ⟨file, line, ← textFor file line⟩

/-- The offset of a line in the first of the tables that is for `wanted` and has it. -/
def offsetOf (wanted : String) (line : UInt32) (h : Hunk) : Action (Option UInt32) :=
  h.tableList.findSomeM? fun t => do
    if ← isFor wanted t then return t.offsetOf line else return none

/-- The first address of a line of `file`. -/
def address (file : String) (line : UInt32) : Action (Option Address) := do
  (← get).hunks.zipIdx.findSomeM? fun (h, segment) => do
    return (← offsetOf (Path.normalize file) line h).map (⟨segment, ·⟩)

/-- The segments with a table for `file`, each as often as it has one. -/
def segments (file : String) : Action (List Nat) := do
  let tables := (← get).hunks.zipIdx.flatMap fun (h, segment) => h.tableList.map (·, segment)
  return (← tables.filterM fun (t, _) => isFor (Path.normalize file) t).map (·.2)

/-- A line of the source recorded as `name`, counted from zero. -/
def sourceLine (name : String) (index : Nat) : Action (Except Error (Option String)) := do
  textLine (← resolveName name) index

end Session
end AmigaHunk
