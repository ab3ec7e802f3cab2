import AmigaHunk.Log.Config
import AmigaHunk.Text.Numeral

/-! Which events are logged, and how they are written. A real program has a library for both; this
module stands in for it, so that the program can be run, and nothing is proved about it. Of the
directives that such a library knows, only those by level and by target are read here. -/
namespace AmigaHunk

/-- Why a text is not a list of directives. -/
inductive DirectiveFault where
  | malformed
  | level
  deriving DecidableEq, Repr

def DirectiveFault.message : DirectiveFault → String
  | .malformed => "invalid filter directive"
  | .level => "error parsing level filter: expected one of \"off\", \"error\", \"warn\", " ++
    "\"info\", \"debug\", \"trace\", or a number 0-5"

/-- Lets events through up to a level, from the targets whose names start with `target`. -/
structure Directive where
  target : List Char
  limit : Nat
  deriving DecidableEq, Repr

namespace Directive

/-- A limit by name or number. The empty text stands for errors alone. -/
def limit? (s : List Char) : Option Nat :=
  match (Numeral.read 10 6 s).toOption with
  | some n => some n
  | none =>
    match (String.ofList s).toLower with
    | "off" => some 0
    | "" | "error" => some LogLevel.error.rank
    | "warn" => some LogLevel.warn.rank
    | "info" => some LogLevel.info.rank
    | "debug" => some LogLevel.debug.rank
    | "trace" => some LogLevel.trace.rank
    | _ => none

/-- What a directive may start with. -/
def isFirst (c : Char) : Bool :=
  c.isAlphanum || c == '-' || c == ':' || c == '_' || 128 ≤ c.toNat

/-- A limit, the name of a target, or `target=limit`. A target alone has no limit. -/
def parse (s : List Char) : Except DirectiveFault Directive :=
  if !s.head?.any isFirst then .error .malformed
  else
    match s.dropWhile (· ≠ '='), limit? s with
    | [], some limit => .ok ⟨[], limit⟩
    | [], none => .ok ⟨s, LogLevel.trace.rank⟩
    | _ :: level, _ =>
      match limit? level with
      | some limit => .ok ⟨s.takeWhile (· ≠ '='), limit⟩
      | none => .error .level

/-- The directives of a text are separated by commas. The first fault counts. -/
def parseAll (s : String) : Except DirectiveFault (List Directive) :=
  ((s.toList.splitOn ',').filter (· ≠ [])).mapM parse

/-- The limit for a target. The directive with the longest name decides, and among equal names the
last; without one, nothing is let through. -/
def limitOf (target : List Char) (directives : List Directive) : Nat :=
  let fitting := directives.filter (·.target.isPrefixOf target)
  (fitting.foldl (fun best d => if best.target.length ≤ d.target.length then d else best)
    ⟨[], 0⟩).limit

end Directive

inductive LogFilter where
  | level (level : LogLevel)
  | directives (directives : List Directive)
  deriving DecidableEq, Repr

namespace LogFilter

def admits (e : Event) : LogFilter → Bool
  | level limit => e.level.rank ≤ limit.rank
  | directives ds => e.level.rank ≤ Directive.limitOf e.target.toList ds

def ofDirectives (text : String) : Except String LogFilter :=
  match Directive.parseAll text with
  | .ok ds => .ok (directives ds)
  | .error fault => .error fault.message

def library : FilterLibrary LogFilter := ⟨level, ofDirectives⟩

end LogFilter

/-- How an event is written: with the colors of a terminal, without them, or as an object. -/
inductive LogStyle where
  | colored
  | plain
  | object
  deriving DecidableEq, Repr

def LogFormat.onScreen : LogFormat → LogStyle
  | pretty => .colored
  | json => .object

def LogFormat.inFile : LogFormat → LogStyle
  | pretty => .plain
  | json => .object

/-- A character of a text inside an object. -/
def quoteChar (c : Char) : List Char :=
  if c = '"' ∨ c = '\\' then ['\\', c]
  else if c.toNat < 32 then '\\' :: 'u' :: (Nat.toDigits 16 c.toNat).leftpad 4 '0'
  else [c]

def quote (s : String) : String := "\"" ++ String.ofList (s.toList.flatMap quoteChar) ++ "\""

namespace Detail

/-- A name in italics, and a dimmed equals sign before the value. -/
def colored (d : Detail) : String := s!"\x1b[3m{d.name}\x1b[0m\x1b[2m=\x1b[0m{d.value}"

def plain (d : Detail) : String := s!"{d.name}={d.value}"

def member (d : Detail) : String := s!"{quote d.name}:{quote d.value}"

end Detail

namespace Event

/-- The text of an event, which is a single line only as far as its values are. An object is
always a single line. -/
def text (e : Event) : LogStyle → String
  | .colored => " ".intercalate (e.level.label.toUpper :: e.summary :: e.details.map Detail.colored)
  | .plain => " ".intercalate (e.level.label.toUpper :: e.summary :: e.details.map Detail.plain)
  | .object =>
    let fields := ",".intercalate ((⟨"message", e.summary⟩ :: e.details).map Detail.member)
    s!"\x7b\"level\":{quote e.level.label.toUpper},\"fields\":\x7b{fields}\x7d\x7d"

end Event
end AmigaHunk
