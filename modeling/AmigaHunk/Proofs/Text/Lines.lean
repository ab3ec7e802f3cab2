import AmigaHunk.Proofs.Text.Split
import AmigaHunk.Source.TextCache
import Mathlib.Data.List.Chain

/-! The lines of a text are what stands between line feeds, once every terminator is made one. -/
namespace AmigaHunk.Lines

/-- Makes each occurrence of `pattern`, which is not empty, into `text`, from the left. -/
def replaceAll (pattern text : List Char) : List Char → List Char
  | [] => []
  | c :: cs =>
    if pattern.isPrefixOf (c :: cs) then
      text ++ replaceAll pattern text (cs.drop (pattern.length - 1))
    else c :: replaceAll pattern text cs
termination_by cs => cs.length

theorem replaceAll_singleton (a b : Char) (cs : List Char) :
    replaceAll [a] [b] cs = cs.map fun c => if c = a then b else c := by
  induction cs with
  | nil => rw [replaceAll, List.map_nil]
  | cons c cs ih =>
    rw [replaceAll, List.map_cons]
    by_cases hc : c = a
    · simp [hc, ih]
    · simp [hc, Ne.symm hc, ih]

/-- The text with a line feed for each terminator: for each pair, and then for each carriage return
that is left. -/
def unify (cs : List Char) : List Char :=
  replaceAll ['\r'] ['\n'] (replaceAll ['\r', '\n'] ['\n'] cs)

/-- What follows a carriage return, without the line feed that belongs to it. -/
def afterReturn : List Char → List Char
  | '\n' :: cs => cs
  | cs => cs

theorem afterReturn_of_head? {cs : List Char} (h : cs.head? ≠ some '\n') : afterReturn cs = cs := by
  unfold afterReturn
  split
  · exact absurd rfl h
  · rfl

theorem unify_nil : unify [] = [] := by simp [unify, replaceAll]

theorem unify_cons {c : Char} (hc : c ≠ '\r') (cs : List Char) : unify (c :: cs) = c :: unify cs := by
  rw [unify, replaceAll]
  simp [hc, Ne.symm hc, unify, replaceAll_singleton]

theorem unify_return (cs : List Char) : unify ('\r' :: cs) = '\n' :: unify (afterReturn cs) := by
  rw [unify, replaceAll]
  cases cs with
  | nil => simp [afterReturn, unify, replaceAll]
  | cons c cs =>
    by_cases hc : c = '\n'
    · simp [hc, afterReturn, unify, replaceAll_singleton]
    · rw [afterReturn_of_head? (by simpa using hc)]
      simp [Ne.symm hc, unify, replaceAll_singleton]

theorem unify_append {line : List Char} (h : '\r' ∉ line) (cs : List Char) :
    unify (line ++ cs) = line ++ unify cs := by
  induction line with
  | nil => rfl
  | cons c line ih =>
    rw [List.mem_cons, not_or] at h
    rw [List.cons_append, unify_cons (Ne.symm h.1), ih h.2, List.cons_append]

theorem not_mem_unify (cs : List Char) : '\r' ∉ unify cs := by
  rw [unify, replaceAll_singleton, List.mem_map]
  rintro ⟨c, -, hc⟩
  split at hc
  · exact absurd hc (by decide)
  · contradiction

/-- Reading goes on as splitting what is left goes on behind the line under way. -/
theorem foldl_push (s : State) (cs : List Char) :
    ((cs.foldl State.push s).endLine false).ended.reverse = s.ended.reverse ++
      ((unify (if s.returned then afterReturn cs else cs)).splitOnPPrepend (· == '\n') s.line).map
        String.ofList := by
  induction cs generalizing s with
  | nil => simp [State.endLine, afterReturn, unify_nil]
  | cons c cs ih =>
    rw [List.foldl_cons, ih]
    by_cases hn : c = '\n'
    · subst hn
      cases hs : s.returned <;>
        simp [State.push, State.endLine, afterReturn, unify_cons, List.splitOnPPrepend_cons_pos, hs]
    · have hafter : afterReturn (c :: cs) = c :: cs := afterReturn_of_head? (by simpa using hn)
      by_cases hr : c = '\r'
      · subst hr
        simp [State.push, State.endLine, hafter, unify_return, List.splitOnPPrepend_cons_pos]
      · simp [State.push, hr, hn, hafter, unify_cons hr, List.splitOnPPrepend_cons_neg]

theorem split_eq (text : String) :
    split text = ((unify text.toList).splitOn '\n').map String.ofList := by
  simpa [split, List.splitOn_eq_splitOnP] using foldl_push ⟨[], [], false⟩ text.toList

/-- The number of terminators, a pair being one. -/
def terminators : List Char → Nat
  | [] => 0
  | '\r' :: '\n' :: cs => terminators cs + 1
  | c :: cs => terminators cs + if c = '\r' ∨ c = '\n' then 1 else 0

theorem count_unify (cs : List Char) : (unify cs).count '\n' = terminators cs := by
  fun_induction terminators cs with
  | case1 => simp [unify_nil]
  | case2 cs ih => simp [unify_return, afterReturn, ih]
  | case3 c cs hpair ih =>
    by_cases hr : c = '\r'
    · have hafter : afterReturn cs = cs := by
        apply afterReturn_of_head?
        intro hcs
        obtain ⟨cs, rfl⟩ := List.head?_eq_some_iff.1 hcs
        exact hpair cs hr rfl
      simp [hr, unify_return, hafter, ih]
    · simp [hr, unify_cons hr, List.count_cons, ih]

/-- A line has neither half of a terminator in it. -/
def IsLine (line : String) : Prop := '\r' ∉ line.toList ∧ '\n' ∉ line.toList

instance : DecidablePred IsLine := fun _ => inferInstanceAs (Decidable (_ ∧ _))

theorem isLine_of_mem_split {text line : String} (h : line ∈ split text) : IsLine line := by
  rw [split_eq, List.mem_map] at h
  obtain ⟨cs, hcs, rfl⟩ := h
  rw [IsLine, String.toList_ofList]
  constructor
  · exact fun hr => not_mem_unify _ (mem_of_mem_splitOn hcs hr).1
  · exact fun hn => (mem_of_mem_splitOn hcs hn).2 rfl

theorem length_split (text : String) : (split text).length = terminators text.toList + 1 := by
  rw [split_eq, List.length_map, length_splitOn, count_unify]

inductive Terminator where
  | pair | carriageReturn | lineFeed
  deriving DecidableEq, Repr

def Terminator.chars : Terminator → List Char
  | .pair => ['\r', '\n']
  | .carriageReturn => ['\r']
  | .lineFeed => ['\n']

/-- A line, and each line after it behind its terminator. -/
def join (line : String) : List (Terminator × String) → List Char
  | [] => line.toList
  | (terminator, next) :: rest => line.toList ++ (terminator.chars ++ join next rest)

/-- A line feed right after a carriage return is not a terminator of its own, so no empty line is
between the two. -/
def Apart (a b : Terminator × String) : Prop :=
  ¬ (a.1 = .carriageReturn ∧ a.2 = "" ∧ b.1 = .lineFeed)

instance : DecidableRel Apart := fun _ _ => inferInstanceAs (Decidable (¬ _))

theorem unify_terminator {terminator : Terminator} {cs : List Char}
    (h : terminator = .carriageReturn → cs.head? ≠ some '\n') :
    unify (terminator.chars ++ cs) = '\n' :: unify cs := by
  cases terminator with
  | pair => exact unify_return _
  | carriageReturn => exact (unify_return cs).trans (by rw [afterReturn_of_head? (h rfl)])
  | lineFeed => exact unify_cons (by decide) cs

theorem head?_join {next : String} (hline : IsLine next) {rest : List (Terminator × String)}
    (hapart : ∀ b ∈ rest.head?, Apart (.carriageReturn, next) b) :
    (join next rest).head? ≠ some '\n' := by
  cases hnext : next.toList with
  | cons c cs =>
    have hc : c ≠ '\n' := by
      rintro rfl
      exact hline.2 (by simp [hnext])
    cases rest <;> simpa [join, hnext] using hc
  | nil =>
    cases rest with
    | nil => simp [join, hnext]
    | cons after rest =>
      obtain ⟨terminator, line⟩ := after
      have hfeed : terminator ≠ .lineFeed := by
        rintro rfl
        exact hapart _ rfl ⟨rfl, String.toList_eq_nil_iff.1 hnext, rfl⟩
      cases terminator with
      | lineFeed => contradiction
      | pair | carriageReturn => simp [join, hnext, Terminator.chars]

theorem unify_join {line : String} {rest : List (Terminator × String)}
    (hlines : ∀ l ∈ line :: rest.map (·.2), IsLine l) (hchain : rest.IsChain Apart) :
    unify (join line rest) =
      ['\n'].intercalate ((line :: rest.map (·.2)).map String.toList) := by
  induction rest generalizing line with
  | nil =>
    have hline := unify_append (hlines line (by simp)).1 []
    simpa [join, unify_nil] using hline
  | cons next rest ih =>
    obtain ⟨terminator, next⟩ := next
    rw [List.forall_mem_cons] at hlines
    have hhead : terminator = .carriageReturn → (join next rest).head? ≠ some '\n' := by
      rintro rfl
      apply head?_join (hlines.2 next (by simp))
      exact (List.isChain_cons.1 hchain).1
    rw [join, unify_append hlines.1.1, unify_terminator hhead, ih hlines.2 hchain.tail]
    simp

/-- Splitting is cutting at line feeds once each terminator is one. The lines have no terminator in
them, and there is one more of them than there are terminators; and lines that are put together
with any terminators come back. -/
theorem split_exact :
    (∀ text, split text = ((unify text.toList).splitOn '\n').map String.ofList ∧
      (∀ line ∈ split text, IsLine line) ∧
      (split text).length = terminators text.toList + 1) ∧
    ∀ (line : String) (rest : List (Terminator × String)),
      (∀ l ∈ line :: rest.map (·.2), IsLine l) → rest.IsChain Apart →
        split (String.ofList (join line rest)) = line :: rest.map (·.2) := by
  constructor
  · intro text
    exact ⟨split_eq text, fun _ => isLine_of_mem_split, length_split text⟩
  · intro line rest hlines hchain
    have hfree : ∀ l ∈ (line :: rest.map (·.2)).map String.toList, '\n' ∉ l := by
      rw [List.forall_mem_map]
      exact fun l hl => (hlines l hl).2
    rw [split_eq, String.toList_ofList, unify_join hlines hchain,
      List.splitOn_intercalate _ hfree (by simp)]
    simp

theorem split_mixed_terminators :
    split "a\r\n\rb\n\nc\r" = ["a", "", "b", "", "c", ""] :=
  split_exact.2 "a" [(.pair, ""), (.carriageReturn, "b"), (.lineFeed, ""), (.lineFeed, "c"),
    (.carriageReturn, "")] (by decide) (by decide)

end AmigaHunk.Lines
