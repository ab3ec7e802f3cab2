import AmigaHunk.Proofs.Encoding.Grammar
import AmigaHunk.Proofs.Grammar.FileDecoder

/-! The bytes of a load file decode to its hunks. -/
namespace AmigaHunk
open Encoding

namespace Section
variable {blocks : List Block} {parts : List Part}

end Section

namespace LoadFile

/-- A code hunk that the header wants in chip memory, with two lines in the wrong order. -/
def sample : LoadFile where
  tableSize := 1
  first := 0
  last := 0
  sizes := [⟨.chip, 2, by decide⟩]
  segments := [⟨.code, .any, 1, [0x4E, 0x71, 0x4E, 0x75],
    [.symbols [⟨⟨"main", by decide⟩, 0, by decide, by decide⟩],
      .pairs ⟨0, ⟨"a.c", by decide⟩, [⟨2, 8⟩, ⟨0, 7⟩], by decide, by decide, by decide⟩],
    by decide, rfl⟩]
  sizes_nonempty := by decide
  length_sizes := rfl

example : (File.decode sample.bytes).result = .ok [⟨0, .code, .chip, 8, none,
    some [0x4E, 0x71, 0x4E, 0x75], some [⟨"main", 0⟩], some [⟨"a.c", [⟨0, 7⟩, ⟨2, 8⟩]⟩]⟩] := by
  decide +kernel

end LoadFile
end AmigaHunk
