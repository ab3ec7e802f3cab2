import AmigaHunk.Session.Basic

/-! The requests that a session answers, as values. -/
namespace AmigaHunk

inductive Request where
  | load (path : HostText)
  | hunks
  | codeData
  | symbols (file : Option String)
  | locate (segment : Nat) (offset : UInt32)
  | address (file : String) (line : UInt32)
  | segments (file : String)
  | resolveName (name : String)
  | sourceLine (name : String) (index : Nat)
  deriving DecidableEq, Repr

inductive Answer where
  | loaded (found : Bool)
  | hunks (hunks : List Hunk)
  | codeData (codes : List (List UInt8))
  | symbols (symbols : List SegmentSymbol)
  | location (location : Option Location)
  | address (address : Option Address)
  | segments (segments : List Nat)
  | name (path : String)
  | line (text : Option String)
  | failed (error : Error)
  deriving DecidableEq, Repr

/-- A result as an answer. -/
def Answer.ofExcept {α : Type} (f : α → Answer) : Except Error α → Answer
  | .ok a => f a
  | .error e => failed e

def Request.answer : Request → Session.Action Answer
  | load path => Answer.ofExcept .loaded <$> Session.load path
  | hunks => do return .hunks (← get).hunks
  | codeData => do return .codeData (← get).codeData
  | symbols file => .symbols <$> Session.symbols file
  | locate segment offset => .location <$> Session.locate segment offset
  | address file line => .address <$> Session.address file line
  | segments file => .segments <$> Session.segments file
  | resolveName name => .name <$> Session.resolveName name
  | sourceLine name index => Answer.ofExcept .line <$> Session.sourceLine name index

/-- Whether a request only asks about the binary that is loaded. -/
def Request.isQuestion : Request → Bool
  | load _ => false
  | _ => true

end AmigaHunk
