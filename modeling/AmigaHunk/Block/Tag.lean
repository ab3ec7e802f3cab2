/-! The kinds of block that have a name, with their codes. -/
namespace AmigaHunk

inductive Tag where
  | unit | name | code | data | bss | reloc32 | reloc16 | reloc8 | ext | symbol | debug | endHunk
  | header | overlay | endNode | drel32 | drel16 | drel8 | lib | index | reloc32Short
  | relReloc32 | absReloc16
  deriving DecidableEq, Repr

namespace Tag

def number : Tag → Nat
  | unit => 0x3E7
  | name => 0x3E8
  | code => 0x3E9
  | data => 0x3EA
  | bss => 0x3EB
  | reloc32 => 0x3EC
  | reloc16 => 0x3ED
  | reloc8 => 0x3EE
  | ext => 0x3EF
  | symbol => 0x3F0
  | debug => 0x3F1
  | endHunk => 0x3F2
  | header => 0x3F3
  | overlay => 0x3F5
  | endNode => 0x3F6
  | drel32 => 0x3F7
  | drel16 => 0x3F8
  | drel8 => 0x3F9
  | lib => 0x3FA
  | index => 0x3FB
  | reloc32Short => 0x3FC
  | relReloc32 => 0x3FD
  | absReloc16 => 0x3FE

def ofNumber? : Nat → Option Tag
  | 0x3E7 => some unit
  | 0x3E8 => some name
  | 0x3E9 => some code
  | 0x3EA => some data
  | 0x3EB => some bss
  | 0x3EC => some reloc32
  | 0x3ED => some reloc16
  | 0x3EE => some reloc8
  | 0x3EF => some ext
  | 0x3F0 => some symbol
  | 0x3F1 => some debug
  | 0x3F2 => some endHunk
  | 0x3F3 => some header
  | 0x3F5 => some overlay
  | 0x3F6 => some endNode
  | 0x3F7 => some drel32
  | 0x3F8 => some drel16
  | 0x3F9 => some drel8
  | 0x3FA => some lib
  | 0x3FB => some index
  | 0x3FC => some reloc32Short
  | 0x3FD => some relReloc32
  | 0x3FE => some absReloc16
  | _ => none

def label : Tag → String
  | unit => "HUNK_UNIT"
  | name => "HUNK_NAME"
  | code => "HUNK_CODE"
  | data => "HUNK_DATA"
  | bss => "HUNK_BSS"
  | reloc32 => "HUNK_RELOC32"
  | reloc16 => "HUNK_RELOC16"
  | reloc8 => "HUNK_RELOC8"
  | ext => "HUNK_EXT"
  | symbol => "HUNK_SYMBOL"
  | debug => "HUNK_DEBUG"
  | endHunk => "HUNK_END"
  | header => "HUNK_HEADER"
  | overlay => "HUNK_OVERLAY"
  | endNode => "HUNK_BREAK"
  | drel32 => "HUNK_DREL32"
  | drel16 => "HUNK_DREL16"
  | drel8 => "HUNK_DREL8"
  | lib => "HUNK_LIB"
  | index => "HUNK_INDEX"
  | reloc32Short => "HUNK_RELOC32SHORT"
  | relReloc32 => "HUNK_RELRELOC32"
  | absReloc16 => "HUNK_ABSRELOC16"

/-- The name of a tag number, for people to read. -/
def nameOf (n : Nat) : String := ((ofNumber? n).map label).getD "unknown"

@[simp] theorem ofNumber?_number (t : Tag) : ofNumber? t.number = some t := by cases t <;> rfl

theorem ofNumber?_eq_some_iff {n : Nat} {t : Tag} : ofNumber? n = some t ↔ n = t.number := by
  constructor
  · intro h
    unfold ofNumber? at h
    split at h <;> simp_all <;> subst t <;> rfl
  · rintro rfl
    exact ofNumber?_number t

end Tag
end AmigaHunk
