import AmigaHunk.Path.Replacement
import Mathlib.Data.List.TakeWhile

/-! Replacements are read back as they are written if their pattern can stand in front of an equals
sign. The first one whose pattern occurs in a path takes the leftmost occurrence out, once. -/
namespace AmigaHunk.Replacement
variable {r : Replacement} {rs : List Replacement} {s path : String}
  {pattern cs pre post : List Char}

theorem toList_label (r : Replacement) :
    r.label.toList = r.pattern.toList ++ '=' :: r.text.toList := by
  change (r.pattern ++ "=" ++ r.text).toList = _
  rw [String.toList_append, String.toList_append, List.append_assoc]
  rfl

/-- The pattern ends at the first equals sign. -/
theorem parse?_eq_some_iff : parse? s = some r ↔
    s.toList = r.pattern.toList ++ '=' :: r.text.toList ∧ r.pattern ≠ "" ∧
      '=' ∉ r.pattern.toList := by
  have hsplit := List.takeWhile_append_dropWhile (p := (· ≠ '=')) (l := s.toList)
  have hhead := List.head?_dropWhile_not (· ≠ '=') s.toList
  unfold parse?
  constructor
  · intro h
    cases hrest : s.toList.dropWhile (· ≠ '=') with
    | nil =>
      rw [hrest] at h
      cases h
    | cons c text =>
      rw [hrest] at h hsplit hhead
      obtain rfl : c = '=' := by simpa using hhead
      simp only at h
      split at h
      · cases h
      · rename_i hne
        cases h
        simp only [String.toList_ofList, ne_eq, String.ofList_eq_empty_iff]
        refine ⟨hsplit.symm, hne, fun hmem => ?_⟩
        simpa using List.mem_takeWhile_imp hmem
  · rintro ⟨hs, hne, hfree⟩
    have hkeep : ∀ c ∈ r.pattern.toList, decide (c ≠ '=') = true := by
      intro c hc
      exact decide_eq_true fun he => hfree (he ▸ hc)
    rw [hs, List.takeWhile_append_of_pos hkeep, List.dropWhile_append_of_pos hkeep]
    simp [hne]

theorem label_of_parse? (h : parse? s = some r) : r.label = s := by
  rw [← String.toList_inj, toList_label, (parse?_eq_some_iff.1 h).1]

theorem parse?_label_iff : parse? r.label = some r ↔ r.pattern ≠ "" ∧ '=' ∉ r.pattern.toList := by
  rw [parse?_eq_some_iff, toList_label, and_iff_right rfl]

theorem isSome_parse?_iff :
    (parse? s).isSome = true ↔ '=' ∈ s.toList ∧ s.toList.head? ≠ some '=' := by
  constructor
  · intro h
    obtain ⟨r, hr⟩ := Option.isSome_iff_exists.1 h
    obtain ⟨hs, hne, hfree⟩ := parse?_eq_some_iff.1 hr
    refine ⟨by simp [hs], ?_⟩
    cases hpattern : r.pattern.toList with
    | nil => exact absurd (String.toList_eq_nil_iff.1 hpattern) hne
    | cons c pattern =>
      rw [hpattern] at hfree
      rw [hs, hpattern, List.cons_append, List.head?_cons]
      rintro ⟨⟩
      exact hfree List.mem_cons_self
  · rintro ⟨hmem, hhead⟩
    obtain ⟨pattern, text, hs, hfree⟩ := List.eq_append_cons_of_mem hmem
    have hne : pattern ≠ [] := by
      rintro rfl
      simp [hs] at hhead
    have hr : parse? s = some ⟨String.ofList pattern, String.ofList text⟩ :=
      parse?_eq_some_iff.2 ⟨by simpa using hs, by simpa using hne, by simpa using hfree⟩
    rw [hr]
    rfl

/-- The leftmost occurrence of a pattern in a text, between what stands in front of it and behind
it. -/
structure Leftmost (pattern cs pre post : List Char) : Prop where
  eq_append : cs = pre ++ (pattern ++ post)
  length_le : ∀ pre' post', cs = pre' ++ (pattern ++ post') → pre.length ≤ pre'.length

theorem leftmost_nil (pattern post : List Char) : Leftmost pattern (pattern ++ post) [] post :=
  ⟨rfl, fun _ _ _ => Nat.zero_le _⟩

theorem Leftmost.cons {c : Char} (h : Leftmost pattern cs pre post) (hnot : ¬pattern <+: c :: cs) :
    Leftmost pattern (c :: cs) (c :: pre) post where
  eq_append := by rw [h.eq_append, List.cons_append]
  length_le pre' post' hsplit := by
    cases pre' with
    | nil => exact absurd ⟨post', hsplit.symm⟩ hnot
    | cons c' pre' => simpa using h.length_le pre' post' (List.cons.inj hsplit).2

/-- The search goes on as long as the pattern does not start. -/
theorem splice?_of_infix (h : pattern <:+: cs) (text : List Char) : ∃ pre post,
    Leftmost pattern cs pre post ∧ splice? pattern text cs = some (pre ++ (text ++ post)) := by
  induction cs with
  | nil =>
    obtain rfl := List.infix_nil.1 h
    exact ⟨[], [], leftmost_nil [] [], by simp [splice?]⟩
  | cons c cs ih =>
    by_cases hstart : pattern <+: c :: cs
    · obtain ⟨post, hpost⟩ := hstart
      refine ⟨[], post, hpost ▸ leftmost_nil pattern post, ?_⟩
      rw [splice?, if_pos (List.isPrefixOf_iff_prefix.2 ⟨post, hpost⟩), ← hpost, List.drop_left]
      rfl
    · obtain ⟨pre, post, hleft, hsplice⟩ := ih ((List.infix_cons_iff.1 h).resolve_left hstart)
      refine ⟨c :: pre, post, hleft.cons hstart, ?_⟩
      rw [splice?, if_neg (by simpa using hstart), hsplice]
      rfl

theorem splice?_of_not_infix (h : ¬pattern <:+: cs) (text : List Char) :
    splice? pattern text cs = none := by
  induction cs with
  | nil => simpa [splice?] using h
  | cons c cs ih =>
    rw [List.infix_cons_iff, not_or] at h
    rw [splice?, if_neg (by simpa using h.1), ih h.2]
    rfl

def Occurs (r : Replacement) (path : String) : Prop := r.pattern.toList <:+: path.toList

instance (r : Replacement) (path : String) : Decidable (r.Occurs path) :=
  inferInstanceAs (Decidable (_ <:+: _))

theorem replace?_of_not_occurs (h : ¬r.Occurs path) : r.replace? path = none := by
  rw [replace?, splice?_of_not_infix h]
  rfl

theorem replace?_of_occurs (h : r.Occurs path) : ∃ pre post,
    Leftmost r.pattern.toList path.toList pre post ∧
      r.replace? path = some (String.ofList (pre ++ (r.text.toList ++ post))) := by
  obtain ⟨pre, post, hleft, hsplice⟩ := splice?_of_infix h r.text.toList
  exact ⟨pre, post, hleft, by rw [replace?, hsplice]; rfl⟩

theorem applyFirst_of_not_occurs (h : ∀ r ∈ rs, ¬r.Occurs path) : applyFirst rs path = path := by
  have hnone : rs.findSome? (·.replace? path) = none :=
    List.findSome?_eq_none_iff.2 fun r hr => replace?_of_not_occurs (h r hr)
  rw [applyFirst, hnone]
  rfl

/-- The list is searched to the first replacement that occurs, and not after it. -/
theorem applyFirst_of_occurs (h : ∃ r ∈ rs, r.Occurs path) : ∃ front r back pre post,
    rs = front ++ r :: back ∧ (∀ r' ∈ front, ¬r'.Occurs path) ∧
      Leftmost r.pattern.toList path.toList pre post ∧
      (applyFirst rs path).toList = pre ++ (r.text.toList ++ post) := by
  induction rs with
  | nil => simp at h
  | cons r rs ih =>
    by_cases hr : r.Occurs path
    · obtain ⟨pre, post, hleft, hreplace⟩ := replace?_of_occurs hr
      refine ⟨[], r, rs, pre, post, rfl, nofun, hleft, ?_⟩
      simp [applyFirst, hreplace]
    · obtain ⟨front, r', back, pre, post, rfl, hfront, hleft, happly⟩ := ih (by simpa [hr] using h)
      refine ⟨r :: front, r', back, pre, post, rfl, ?_, hleft, ?_⟩
      · exact List.forall_mem_cons.2 ⟨hr, hfront⟩
      · simpa [applyFirst, replace?_of_not_occurs hr] using happly

theorem read_back_and_apply :
    (∀ s : String, ((parse? s).isSome = true ↔ '=' ∈ s.toList ∧ s.toList.head? ≠ some '=') ∧
      ∀ r, parse? s = some r → r.label = s) ∧
    (∀ r : Replacement, parse? r.label = some r ↔ r.pattern ≠ "" ∧ '=' ∉ r.pattern.toList) ∧
    ∀ (rs : List Replacement) (path : String),
      ((∀ r ∈ rs, ¬r.Occurs path) → applyFirst rs path = path) ∧
      ((∃ r ∈ rs, r.Occurs path) → ∃ front r back pre post,
        rs = front ++ r :: back ∧ (∀ r' ∈ front, ¬r'.Occurs path) ∧
          Leftmost r.pattern.toList path.toList pre post ∧
          (applyFirst rs path).toList = pre ++ (r.text.toList ++ post)) :=
  ⟨fun _ => ⟨isSome_parse?_iff, fun _ => label_of_parse?⟩, fun _ => parse?_label_iff,
    fun _ _ => ⟨applyFirst_of_not_occurs, applyFirst_of_occurs⟩⟩

/-- The pattern occurs twice, one place overlapping the other, and the third replacement would apply
to what the second one leaves. -/
theorem read_back_and_apply_overlapping :
    let r : Replacement := ⟨"aa", "caac=d"⟩
    let rs := [⟨"b", "x"⟩, r, ⟨"caac", ""⟩]
    parse? "aa=caac=d" = some r ∧ r.label = "aa=caac=d" ∧
    (∀ r' ∈ rs, ¬r'.Occurs "/src/a.s") ∧ applyFirst rs "/src/a.s" = "/src/a.s" ∧
    (∃ r' ∈ rs, r'.Occurs "/aaa.s") ∧ ∃ front r' back pre post,
      rs = front ++ r' :: back ∧ (∀ r'' ∈ front, ¬r''.Occurs "/aaa.s") ∧
        Leftmost r'.pattern.toList "/aaa.s".toList pre post ∧
        (applyFirst rs "/aaa.s").toList = pre ++ (r'.text.toList ++ post) ∧
        applyFirst rs "/aaa.s" = "/caac=da.s" := by
  intro r rs
  obtain ⟨hparse, -, happly⟩ := read_back_and_apply
  have hr : parse? "aa=caac=d" = some r := by decide +kernel
  have hnone : ∀ r' ∈ rs, ¬r'.Occurs "/src/a.s" := by decide +kernel
  have hsome : ∃ r' ∈ rs, r'.Occurs "/aaa.s" := by decide +kernel
  obtain ⟨front, r', back, pre, post, hrs, hfront, hleft, htext⟩ := (happly rs "/aaa.s").2 hsome
  exact ⟨hr, (hparse _).2 r hr, hnone, (happly rs "/src/a.s").1 hnone, hsome, front, r', back, pre,
    post, hrs, hfront, hleft, htext, by decide +kernel⟩

end AmigaHunk.Replacement
