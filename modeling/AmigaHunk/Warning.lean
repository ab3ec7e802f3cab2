import AmigaHunk.Error

/-! Oddities that are reported without failing. -/
namespace AmigaHunk

inductive Warning where
  /-- A segment block came while the hunk before it was open. -/
  | notClosed (segment : Nat)
  /-- The last hunk was open at the end of the file. -/
  | endsOpen (segment : Nat)
  | hunkCount (declared decoded : Nat)
  | unknownBlock (offset tag longs : Nat)
  | trailingBytes (extra offset : Nat)
  | noSourceText (error : Error)
  deriving DecidableEq, Repr

/-- One value of a report, by its name. -/
structure Detail where
  name : String
  value : String
  deriving DecidableEq, Repr

namespace Warning

def summary : Warning → String
  | notClosed _ => "hunk not closed by HUNK_END"
  | endsOpen _ => "file ends without HUNK_END"
  | hunkCount .. => "hunk count differs from HUNK_HEADER table"
  | unknownBlock .. => "skipping unknown block"
  | trailingBytes .. => "ignoring trailing bytes after LINE table"
  | noSourceText _ => "no source text available"

open Numeral in
def details : Warning → List Detail
  | notClosed segment | endsOpen segment => [⟨"segment", decimal segment⟩]
  | hunkCount declared decoded =>
    [⟨"declared", decimal declared⟩, ⟨"decoded", decimal decoded⟩]
  | unknownBlock offset tag longs =>
    [⟨"offset", decimal offset⟩, ⟨"tag", decimal tag⟩, ⟨"longs", decimal longs⟩]
  | trailingBytes extra offset => [⟨"extra", decimal extra⟩, ⟨"offset", decimal offset⟩]
  | noSourceText error => [⟨"err", error.message⟩]

def message (w : Warning) : String :=
  w.details.foldl (fun text d => s!"{text} {d.name}={d.value}") w.summary

end Warning
end AmigaHunk
