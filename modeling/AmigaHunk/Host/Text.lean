import AmigaHunk.Path.Basic
import AmigaHunk.Text.Utf8

/-! Texts of the host, such as its paths: bytes, which need not be those of a text. -/
namespace AmigaHunk

structure HostText where
  bytes : List UInt8
  deriving DecidableEq, Repr

namespace HostText

def ofText (s : String) : HostText := ⟨Utf8.encode s⟩

instance : Coe String HostText := ⟨ofText⟩

/-- What can be shown of it: the bytes that are no text become replacement characters. -/
def text (t : HostText) : String := Utf8.decode t.bytes

/-- Whether its bytes are those of a text. -/
def IsText (t : HostText) : Prop := ofText t.text = t

instance (t : HostText) : Decidable t.IsText := inferInstanceAs (Decidable (ofText t.text = t))

def slash : UInt8 := 0x2F

/-- The pieces of `p` under `root`; an absolute path counts as relative. -/
def joinUnder (root : HostText) (p : String) : HostText :=
  ⟨(Path.pieces p.toList).foldl
    (fun bytes piece => Path.push slash bytes (piece.flatMap String.utf8EncodeChar)) root.bytes⟩

end HostText

/-- The text of joining where the root is a text, too. -/
def Path.joinUnder (root p : String) : String := (HostText.joinUnder root p).text

end AmigaHunk
