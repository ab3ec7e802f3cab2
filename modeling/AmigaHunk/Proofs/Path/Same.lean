import AmigaHunk.Proofs.Path.Found
import AmigaHunk.Proofs.Path.Told

/-! When two names mean the same file. Names that are not absolute fall into classes, one for each
last name and one for those without. An absolute path means the files of all names with its last
name, and no other absolute path. -/
namespace AmigaHunk

namespace Resolver
variable {r : Resolver} {path : String}

/-- A resolver that looking for names leads to, each on the files as they are then. -/
inductive Reached : Resolver → Prop
  | start (config : PathConfig) : Reached (start config)
  | resolve {r : Resolver} (h : Reached r) (fs : FileSystem) (name : String) :
    Reached (((resolve name).run r).run fs).value.2

/-- A path that is told for a name. -/
def IsTold (path : String) : Prop :=
  ∃ r fs name, Reached r ∧ (((resolve name).run r).run fs).value.1 = path

theorem Reached.arises (h : Reached r) : r.Arises := by
  induction h with
  | start config => exact .start config
  | resolve h fs name ih => exact ih.run fs name

theorem IsTold.normalize_eq (h : IsTold path) : Path.normalize path = path := by
  obtain ⟨r, fs, name, hr, rfl⟩ := h
  exact (hr.arises.normal.of_mayAnswer (Query.mayAnswer_run fs _)).1

end Resolver

namespace Path
variable {p q : String} {name : List Char}

/-- The last segment of a path that is neither empty nor a dot is this name, and not two dots. -/
def LeadsTo (p : String) (name : List Char) : Prop :=
  ∃ front back, p.toList.splitOn '/' = front ++ name :: back ∧
    name ≠ [] ∧ name ≠ ['.'] ∧ name ≠ ['.', '.'] ∧ ∀ segment ∈ back, segment = [] ∨ segment = ['.']

theorem lastName?_eq_some_iff : lastName? p = some name ↔ LeadsTo p name := by
  rw [lastName?, LeadsTo, Option.filter_eq_some_iff, List.getLast?_filter,
    List.find?_eq_some_iff_append, isNaming_iff]
  have hback {back : List (List Char)} : (∀ segment ∈ back.reverse, (!isNaming segment) = true) ↔
      ∀ segment ∈ back, segment = [] ∨ segment = ['.'] := by
    simp [isNaming, or_iff_not_imp_left]
  constructor
  · rintro ⟨⟨hname, back, front, hsplit, hrest⟩, hdots⟩
    refine ⟨front.reverse, back.reverse, ?_, hname.1, hname.2, of_decide_eq_true hdots, ?_⟩
    · simpa using congrArg List.reverse hsplit
    · rwa [← hback, List.reverse_reverse]
  · rintro ⟨front, back, hsplit, hnil, hdot, hdots, hrest⟩
    refine ⟨⟨⟨hnil, hdot⟩, back.reverse, front.reverse, ?_, hback.2 hrest⟩, decide_eq_true hdots⟩
    simp [hsplit]

theorem same_iff_of_not_absolute (h : ¬(p.toList.head? = some '/' ∧ q.toList.head? = some '/')) :
    same p q = true ↔ ∀ name, LeadsTo p name ↔ LeadsTo q name := by
  have hnot : (isAbsolute p && isAbsolute q) = false := by simpa [isAbsolute] using h
  rw [same, hnot, if_neg Bool.false_ne_true, beq_iff_eq]
  simp only [← lastName?_eq_some_iff]
  exact ⟨fun he name => by rw [he], fun h => Option.ext h⟩

theorem same_iff_of_absolute (hp : p.toList.head? = some '/') (hq : q.toList.head? = some '/') :
    same p q = true ↔ p = q := by
  simp [same, isAbsolute, hp, hq]

theorem equivalence_same : Equivalence fun p q : { p : String // p.toList.head? ≠ some '/' } =>
    same p.1 q.1 = true where
  refl p := same_self p.1
  symm h := by rwa [same_comm]
  trans {p q r} hpq hqr := by
    have hp {q : String} : ¬(p.1.toList.head? = some '/' ∧ q.toList.head? = some '/') :=
      fun h => p.2 h.1
    have hq {r : String} : ¬(q.1.toList.head? = some '/' ∧ r.toList.head? = some '/') :=
      fun h => q.2 h.1
    rw [same_iff_of_not_absolute hp] at hpq ⊢
    rw [same_iff_of_not_absolute hq] at hqr
    exact fun name => (hpq name).trans (hqr name)

theorem same_iff_leadsTo :
    (∀ p q : String,
      (p.toList.head? = some '/' → q.toList.head? = some '/' → (same p q = true ↔ p = q)) ∧
      (¬(p.toList.head? = some '/' ∧ q.toList.head? = some '/') →
        (same p q = true ↔ ∀ name, LeadsTo p name ↔ LeadsTo q name)) ∧
      same p p = true ∧ same p q = same q p) ∧
    Equivalence (fun p q : { p : String // p.toList.head? ≠ some '/' } => same p.1 q.1 = true) ∧
    ∀ p q : String, Resolver.IsTold p → Resolver.IsTold q →
      same (normalize p) q = same p q ∧ same p (normalize q) = same p q := by
  refine ⟨fun p q => ⟨same_iff_of_absolute, same_iff_of_not_absolute, same_self p, same_comm p q⟩,
    equivalence_same, fun p q hp hq => ?_⟩
  rw [hp.normalize_eq, hq.normalize_eq]
  exact ⟨rfl, rfl⟩

/-- A path that was found means the file of a relative name that was not found anywhere. -/
theorem same_told_relative :
    let p := "/work/src/a.c"
    let q := "lib//a.c/."
    Resolver.IsTold p ∧ Resolver.IsTold q ∧ p.toList.head? = some '/' ∧
    ¬(p.toList.head? = some '/' ∧ q.toList.head? = some '/') ∧
    (∀ name, LeadsTo p name ↔ LeadsTo q name) ∧ ¬same p "/a.c" = true ∧
    same (normalize p) q = true ∧ same p (normalize q) = true := by
  intro p q
  have hp : Resolver.IsTold p :=
    ⟨.moved, Resolver.directory, "C:\\src\\a.c", .start _, by decide +kernel⟩
  have hq : Resolver.IsTold q :=
    ⟨.moved, Resolver.directory, "lib//a.c/.", .start _, by decide +kernel⟩
  have hnot : ¬(p.toList.head? = some '/' ∧ q.toList.head? = some '/') := by decide
  have hsame : same p q = true := by decide +kernel
  obtain ⟨hpairs, -, hnormal⟩ := same_iff_leadsTo
  refine ⟨hp, hq, by decide, hnot, ((hpairs p q).2.1 hnot).1 hsame, ?_,
    (hnormal p q hp hq).1.trans hsame, (hnormal p q hp hq).2.trans hsame⟩
  rw [(hpairs p "/a.c").1 (by decide) (by decide)]
  decide

/-- Both absolute paths mean the file of the relative name, and they are not the same. -/
example : same "/src/a.c" "a.c" = true ∧ same "a.c" "/lib/a.c" = true ∧
    same "/src/a.c" "/lib/a.c" = false := by
  decide +kernel

end Path
end AmigaHunk
