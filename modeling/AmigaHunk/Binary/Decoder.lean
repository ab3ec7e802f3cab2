import AmigaHunk.Binary.Word
import AmigaHunk.Text.Utf8
import AmigaHunk.Warning

/-! Reading a binary from front to back. A decoder answers a value or an error, says where it
stopped in either case, and lists its warnings on the way. -/
namespace AmigaHunk

/-- A place in a file: its offset, and the bytes from there on. -/
structure Cursor where
  offset : Nat
  rest : List UInt8
  deriving DecidableEq, Repr

def Cursor.start (bytes : List UInt8) : Cursor := ⟨0, bytes⟩

structure Outcome (α : Type) where
  result : Except DecodeError α
  cursor : Cursor
  warnings : List Warning

namespace Outcome

def after {α : Type} (o : Outcome α) (earlier : List Warning) : Outcome α :=
  ⟨o.result, o.cursor, earlier ++ o.warnings⟩

def map {α β : Type} (f : α → β) (o : Outcome α) : Outcome β :=
  ⟨o.result.map f, o.cursor, o.warnings⟩

end Outcome

def Decoder (α : Type) := Cursor → Outcome α

namespace Decoder
variable {α β σ : Type}

def andThen (d : Decoder α) (f : α → Decoder β) : Decoder β := fun c =>
  match d c with
  | ⟨.ok a, c, ws⟩ => (f a c).after ws
  | ⟨.error e, c, ws⟩ => ⟨.error e, c, ws⟩

instance : Monad Decoder where
  pure a := fun c => ⟨.ok a, c, []⟩
  bind := andThen

theorem pure_apply (a : α) (c : Cursor) : (pure a : Decoder α) c = ⟨.ok a, c, []⟩ := rfl

theorem bind_apply (d : Decoder α) (f : α → Decoder β) (c : Cursor) :
    (d >>= f) c = match d c with
      | ⟨.ok a, c, ws⟩ => (f a c).after ws
      | ⟨.error e, c, ws⟩ => ⟨.error e, c, ws⟩ := rfl

theorem bind_of_ok {d : Decoder α} {f : α → Decoder β} {c c' : Cursor} {a : α}
    {ws : List Warning} (h : d c = ⟨.ok a, c', ws⟩) : (d >>= f) c = (f a c').after ws := by
  rw [bind_apply, h]

theorem bind_of_error {d : Decoder α} {f : α → Decoder β} {c c' : Cursor} {e : DecodeError}
    {ws : List Warning} (h : d c = ⟨.error e, c', ws⟩) : (d >>= f) c = ⟨.error e, c', ws⟩ := by
  rw [bind_apply, h]

instance : LawfulMonad Decoder := LawfulMonad.mk' Decoder
  (fun d => by
    funext c
    show andThen d (fun a => pure (id a)) c = d c
    unfold andThen
    rcases d c with ⟨_ | a, c', ws⟩ <;> simp [pure_apply, Outcome.after])
  (fun a f => by
    funext c
    show (f a c).after [] = f a c
    simp [Outcome.after])
  (fun d f g => by
    funext c
    simp only [bind_apply]
    rcases d c with ⟨_ | a, c', ws⟩
    · rfl
    · simp only [Outcome.after]
      rcases f a c' with ⟨_ | b, c'', ws'⟩ <;> simp)

theorem map_apply (f : α → β) (d : Decoder α) (c : Cursor) : (f <$> d) c = (d c).map f := by
  rw [map_eq_pure_bind, bind_apply]
  rcases d c with ⟨_ | a, c', ws⟩ <;> simp [pure_apply, Outcome.after, Outcome.map, Except.map]

/-- Stops with a fault at `offset`. -/
def failAt (offset : Nat) (fault : Fault) : Decoder α := fun c =>
  ⟨.error (.malformed offset fault), c, []⟩

/-- Stops with a fault at the cursor. -/
def fail (fault : Fault) : Decoder α := fun c => failAt c.offset fault c

def warn (w : Warning) : Decoder Unit := fun c => ⟨.ok (), c, [w]⟩

def offset : Decoder Nat := fun c => ⟨.ok c.offset, c, []⟩

/-- How many bytes are left. -/
def remaining : Decoder Nat := fun c => ⟨.ok c.rest.length, c, []⟩

def atEnd : Decoder Bool := fun c => ⟨.ok c.rest.isEmpty, c, []⟩

/-- The next `n` bytes; if there are not so many, nothing is read. -/
def take (n : Nat) : Decoder (List UInt8) := fun c =>
  let bytes := c.rest.take n
  if bytes.length = n then ⟨.ok bytes, ⟨c.offset + n, c.rest.drop n⟩, []⟩
  else fail (.short n c.rest.length) c

def skip (n : Nat) : Decoder Unit := do
  let _ ← take n

def skipLongs (longs : Nat) : Decoder Unit := skip (4 * longs)

def byte : Decoder Nat := bigEndian <$> take 1

def halfword : Decoder Nat := bigEndian <$> take 2

def word : Decoder UInt32 := (UInt32.ofNat ∘ bigEndian) <$> take 4

/-- The bytes without the zeros at their end. -/
def trimZeros (bytes : List UInt8) : List UInt8 := (bytes.reverse.dropWhile (· = 0)).reverse

/-- A text padded with zeros to `longs` longwords. -/
def padded (longs : Nat) : Decoder String := (Utf8.decode ∘ trimZeros) <$> take (4 * longs)

/-- A text behind its length in longwords. -/
def text : Decoder String := do
  padded (← word).toNat

/-- Moves on to the next offset that is a multiple of four. -/
def align : Decoder Unit := do
  skip ((4 - (← offset) % 4) % 4)

/-- The next `n` bytes as a place of their own, which ends where they end. -/
def split (n : Nat) : Decoder Cursor := do
  let start ← offset
  return ⟨start, ← take n⟩

/-- Reads at another place and stays where it is. -/
def inside (place : Cursor) (d : Decoder α) : Decoder α := fun c =>
  let o := d place
  ⟨o.result, c, o.warnings⟩

/-- Fails unless `longs` longwords are left. -/
def expectLongs (longs : Nat) : Decoder Unit := fun c =>
  if (c.rest.take (4 * longs)).length = 4 * longs then ⟨.ok (), c, []⟩
  else fail (.blockTooLong longs c.rest.length) c

/-- The loop of `collect`, with the items and the warnings so far, both backwards. -/
def collectOnto (item : σ → Decoder (Option (α × σ))) :
    Nat → σ → List α → List Warning → Cursor → Outcome (List α)
  | 0, _, items, seen, c => ⟨.ok items.reverse, c, seen.reverse⟩
  | limit + 1, s, items, seen, c =>
    match item s c with
    | ⟨.error e, c, ws⟩ => ⟨.error e, c, seen.reverse ++ ws⟩
    | ⟨.ok none, c, ws⟩ => ⟨.ok items.reverse, c, seen.reverse ++ ws⟩
    | ⟨.ok (some (a, s)), c, ws⟩ => collectOnto item limit s (a :: items) (ws.reverse ++ seen) c

/-- Reads items until there is none, at most `limit` of them, handing a state on from each to
the next. -/
def collect (item : σ → Decoder (Option (α × σ))) (limit : Nat) (s : σ) : Decoder (List α) :=
  collectOnto item limit s [] []

theorem collectOnto_eq (item : σ → Decoder (Option (α × σ))) (limit : Nat) (s : σ)
    (items : List α) (seen : List Warning) (c : Cursor) :
    collectOnto item limit s items seen c =
      ((collectOnto item limit s [] [] c).map (items.reverse ++ ·)).after seen.reverse := by
  induction limit generalizing s items seen c with
  | zero => simp [collectOnto, Outcome.map, Outcome.after, Except.map]
  | succ limit ih =>
    simp only [collectOnto]
    rcases item s c with ⟨_ | _ | ⟨a, s'⟩, c', ws⟩
    · simp [Outcome.map, Outcome.after, Except.map]
    · simp [Outcome.map, Outcome.after, Except.map]
    · simp only [List.append_nil, ih s' (a :: items) (ws.reverse ++ seen), ih s' [a] ws.reverse]
      rcases collectOnto item limit s' [] [] c' with ⟨_ | as, c'', ws'⟩ <;>
        simp [Outcome.map, Outcome.after, Except.map]

@[simp] theorem collect_zero (item : σ → Decoder (Option (α × σ))) (s : σ) :
    collect item 0 s = pure [] := rfl

theorem collect_succ (item : σ → Decoder (Option (α × σ))) (limit : Nat) (s : σ) :
    collect item (limit + 1) s = item s >>= fun
      | none => pure []
      | some (a, s') => (a :: ·) <$> collect item limit s' := by
  funext c
  rw [bind_apply, collect, collectOnto]
  rcases item s c with ⟨_ | _ | ⟨a, s'⟩, c', ws⟩
  · simp
  · simp [pure_apply, Outcome.after]
  · have h := map_apply (a :: ·) (collect item limit s') c'
    simp only [h, List.append_nil, collectOnto_eq item limit s' [a] ws.reverse, List.reverse_reverse]
    rfl

/-- Exactly `n` items. -/
def times (n : Nat) (item : Decoder α) : Decoder (List α) :=
  collect (fun _ => (fun a => some (a, ())) <$> item) n ()

/-- Items up to the first `none`. Each item takes a byte or more, so the bytes left bound them. -/
def many (item : Decoder (Option α)) : Decoder (List α) := do
  collect (fun _ => Option.map (·, ()) <$> item) ((← remaining) + 1) ()

end Decoder
end AmigaHunk
