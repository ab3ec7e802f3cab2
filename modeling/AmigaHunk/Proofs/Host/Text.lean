import AmigaHunk.Host.Text
import AmigaHunk.Proofs.Text.Tight
import Mathlib.Tactic.SplitIfs

/-! What is shown of joined paths. The decoder takes up the bytes of a character where they start,
whatever stands in front of them, and it shows a slash for the byte of a slash alone. So joining
behind bytes that are no text shows what joining behind their text does. -/
namespace AmigaHunk

namespace Utf8

namespace State
variable {s : State}

/-- The text read so far, backwards, if no more bytes come. -/
def closed (s : State) : List Char :=
  match s.owing with
  | none => s.text
  | some _ => replacement :: s.text

theorem finish_eq (s : State) : s.finish = s.closed.reverse := by
  rw [finish, closed]
  cases s.owing <;> rfl

/-- A byte that continues no sequence ends the one under way. -/
theorem Proper.push_closed (h : s.Proper) {byte : UInt8}
    (hbyte : byte.toNat < 0x80 ∨ 0xBF < byte.toNat) :
    s.push byte = State.push ⟨s.closed, none⟩ byte := by
  obtain ⟨text, owing⟩ := s
  cases owing with
  | none => rfl
  | some o =>
    have hlow := (h o rfl).low_le
    have hhigh := (h o rfl).le_high
    have hnot : ¬(o.low ≤ byte.toNat ∧ byte.toNat ≤ o.high) := by omega
    simp only [State.push, if_neg hnot, closed]

theorem exists_encodeChar (c : Char) : ∃ byte bytes, String.utf8EncodeChar c = byte :: bytes ∧
    (byte.toNat < 0x80 ∨ 0xBF < byte.toNat) := by
  have hv : c.val.toNat < 0x110000 := by
    have := c.valid
    simp only [UInt32.isValidChar, Nat.isValidChar] at this
    omega
  have hofNat {n : Nat} (hn : n < 256) : (UInt8.ofNat n).toNat = n := UInt8.toNat_ofNat_of_lt' hn
  rw [String.utf8EncodeChar]
  generalize c.val.toNat = v at hv
  split_ifs
  · exact ⟨_, _, rfl, .inl (by rw [hofNat] <;> omega)⟩
  · exact ⟨_, _, rfl, .inr (by rw [hofNat] <;> omega)⟩
  · exact ⟨_, _, rfl, .inr (by rw [hofNat] <;> omega)⟩
  · exact ⟨_, _, rfl, .inr (by rw [hofNat] <;> omega)⟩

theorem Proper.closed_foldl_push (h : s.Proper) (cs : List Char) :
    ((cs.flatMap String.utf8EncodeChar).foldl State.push s).closed = cs.reverse ++ s.closed := by
  cases cs with
  | nil => rfl
  | cons c cs =>
    have hchar : (String.utf8EncodeChar c).foldl State.push s = ⟨c :: s.closed, none⟩ := by
      rw [← foldl_push_char]
      obtain ⟨byte, bytes, hc, hbyte⟩ := exists_encodeChar c
      rw [hc, List.foldl_cons, List.foldl_cons, h.push_closed hbyte]
    rw [List.flatMap_cons, List.foldl_append, hchar, foldl_push_text]
    simp [closed]

theorem closed_push_ne_nil (s : State) (byte : UInt8) : (s.push byte).closed ≠ [] := by
  have hbegin (text : List Char) (b : Nat) : (begin text b).closed ≠ [] := by
    rw [begin]
    cases Start.ofByte b <;> exact List.cons_ne_nil _ _
  obtain ⟨text, owing⟩ := s
  cases owing with
  | none => exact hbegin _ _
  | some o =>
    simp only [State.push]
    split_ifs
    · exact List.cons_ne_nil _ _
    · exact List.cons_ne_nil _ _
    · exact hbegin _ _

end State

theorem toList_decode (bytes : List UInt8) :
    (decode bytes).toList = (bytes.foldl State.push ⟨[], none⟩).closed.reverse := by
  rw [decode, String.toList_ofList, State.finish_eq]

theorem toList_decode_append (bytes : List UInt8) (cs : List Char) :
    (decode (bytes ++ cs.flatMap String.utf8EncodeChar)).toList = (decode bytes).toList ++ cs := by
  have hproper := State.proper_foldl bytes proper_start
  rw [toList_decode, toList_decode, List.foldl_append, hproper.closed_foldl_push,
    List.reverse_append, List.reverse_reverse]

theorem toList_decode_eq_nil_iff {bytes : List UInt8} : (decode bytes).toList = [] ↔ bytes = [] := by
  constructor
  · intro h
    cases bytes using List.reverseRecOn with
    | nil => rfl
    | append_singleton bytes byte =>
      rw [toList_decode, List.foldl_append, List.reverse_eq_nil_iff] at h
      exact absurd h (State.closed_push_ne_nil _ byte)
  · rintro rfl
    rfl

theorem getLast?_decode_eq_slash_iff {bytes : List UInt8} :
    (decode bytes).toList.getLast? = some '/' ↔ bytes.getLast? = some HostText.slash := by
  constructor
  · intro h
    obtain ⟨byte, hlast, hbyte⟩ := getLast?_of_decode h (by decide)
    obtain rfl : byte = HostText.slash := UInt8.toNat_inj.1 hbyte
    exact hlast
  · intro h
    obtain ⟨front, rfl⟩ := List.getLast?_eq_some_iff.1 h
    have hslash := toList_decode_append front ['/']
    change (decode (front ++ [HostText.slash])).toList = _ at hslash
    rw [hslash, List.getLast?_concat]

/-- Whether nothing has to stand in front of a piece, the text of the bytes says as they do. -/
theorem open_decode_iff {bytes : List UInt8} :
    (decode bytes).toList = [] ∨ (decode bytes).toList.getLast? = some '/' ↔
      bytes = [] ∨ bytes.getLast? = some HostText.slash :=
  or_congr toList_decode_eq_nil_iff getLast?_decode_eq_slash_iff

end Utf8

namespace HostText
variable {root : HostText}

@[simp] theorem text_ofText (s : String) : (ofText s).text = s := Utf8.decode_encode s

theorem isText_ofText (s : String) : (ofText s).IsText := by rw [IsText, text_ofText]

theorem ofText_injective : Function.Injective ofText :=
  Function.LeftInverse.injective text_ofText

theorem toList_text_push (bytes : List UInt8) (piece : List Char) :
    (Utf8.decode (Path.push slash bytes (piece.flatMap String.utf8EncodeChar))).toList =
      Path.push '/' (Utf8.decode bytes).toList piece := by
  rw [Path.push, Path.push]
  by_cases h : bytes = [] ∨ bytes.getLast? = some slash
  · rw [if_pos h, if_pos (Utf8.open_decode_iff.2 h), Utf8.toList_decode_append]
  · rw [if_neg h, if_neg (mt Utf8.open_decode_iff.1 h)]
    exact Utf8.toList_decode_append bytes ('/' :: piece)

/-- What is shown of a joined path, in terms of what is shown of its root. -/
theorem toList_text_joinUnder (root : HostText) (p : String) : (root.joinUnder p).text.toList =
    (Path.pieces p.toList).foldl (Path.push '/') root.text.toList := by
  simp only [joinUnder, text]
  generalize root.bytes = bytes
  induction Path.pieces p.toList generalizing bytes with
  | nil => rfl
  | cons piece pieces ih => rw [List.foldl_cons, List.foldl_cons, ih, toList_text_push]

theorem text_joinUnder (root : HostText) (p : String) :
    (root.joinUnder p).text = Path.joinUnder root.text p := by
  rw [← String.toList_inj, Path.joinUnder, toList_text_joinUnder, toList_text_joinUnder,
    text_ofText]

theorem push_flatMap (cs piece : List Char) :
    Path.push slash (cs.flatMap String.utf8EncodeChar) (piece.flatMap String.utf8EncodeChar) =
      (Path.push '/' cs piece).flatMap String.utf8EncodeChar := by
  have hdecode : (Utf8.decode (cs.flatMap String.utf8EncodeChar)).toList = cs :=
    Utf8.toList_decode_append [] cs
  have hopen := @Utf8.open_decode_iff (cs.flatMap String.utf8EncodeChar)
  rw [hdecode] at hopen
  rw [Path.push, Path.push]
  by_cases h : cs = [] ∨ cs.getLast? = some '/'
  · rw [if_pos h, if_pos (hopen.1 h), List.flatMap_append]
  · rw [if_neg h, if_neg (mt hopen.2 h), List.flatMap_append]
    rfl

/-- Under a root that is a text lie texts. -/
theorem IsText.joinUnder (h : root.IsText) (p : String) : (root.joinUnder p).IsText := by
  have hpieces (pieces : List (List Char)) (cs : List Char) :
      pieces.foldl (fun bytes piece => Path.push slash bytes (piece.flatMap String.utf8EncodeChar))
        (cs.flatMap String.utf8EncodeChar) =
          (pieces.foldl (Path.push '/') cs).flatMap String.utf8EncodeChar := by
    induction pieces generalizing cs with
    | nil => rfl
    | cons piece pieces ih => rw [List.foldl_cons, List.foldl_cons, push_flatMap, ih]
  have hroot : root.text.toList.flatMap String.utf8EncodeChar = root.bytes := congrArg bytes h
  rw [IsText, ofText, Utf8.encode, toList_text_joinUnder, ← hpieces, hroot]
  rfl

end HostText

theorem Path.joinUnder_eq (root p : String) :
    joinUnder root p = String.ofList ((pieces p.toList).foldl (push '/') root.toList) := by
  rw [← String.toList_inj, joinUnder, HostText.toList_text_joinUnder, HostText.text_ofText,
    String.toList_ofList]

end AmigaHunk
