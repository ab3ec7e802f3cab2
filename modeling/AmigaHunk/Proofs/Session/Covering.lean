import AmigaHunk.Proofs.LineTable.Search
import AmigaHunk.Session.Basic

/-! Which table of a segment covers an offset: the first with an entry there or behind it. -/
namespace AmigaHunk.Session
variable {h : Hunk} {t : LineTable} {hunks : List Hunk} {segment : Nat} {offset line : UInt32}

theorem covering_eq_none_iff :
    covering h offset = none ↔ ∀ t ∈ h.tableList, ∀ e ∈ t.entries, e.offset < offset := by
  rw [covering, List.findSome?_eq_none_iff]
  simp only [Option.map_eq_none_iff, LineTable.findLine_eq_none_iff]

theorem covering_eq_some_iff : covering h offset = some (t, line) ↔
    ∃ before after, h.tableList = before ++ t :: after ∧ t.findLine offset = some line ∧
      ∀ u ∈ before, ∀ e ∈ u.entries, e.offset < offset := by
  rw [covering, List.findSome?_eq_some_iff]
  constructor
  · rintro ⟨before, u, after, hsplit, hu, hbefore⟩
    obtain ⟨found, hfound, heq⟩ := Option.map_eq_some_iff.1 hu
    cases heq
    exact ⟨before, after, hsplit, hfound, by simpa [LineTable.findLine_eq_none_iff] using hbefore⟩
  · rintro ⟨before, after, hsplit, hfound, hbefore⟩
    refine ⟨before, t, after, hsplit, by rw [hfound]; rfl, ?_⟩
    simpa [LineTable.findLine_eq_none_iff] using hbefore

theorem bind_covering_eq_none_iff : hunks[segment]?.bind (covering · offset) = none ↔
    hunks.length ≤ segment ∨ ∃ h, hunks[segment]? = some h ∧
      ∀ t ∈ h.tableList, ∀ e ∈ t.entries, e.offset < offset := by
  cases hget : hunks[segment]? with
  | none => simpa using hget
  | some h =>
    have hlt : segment < hunks.length := (List.getElem?_eq_some_iff.1 hget).1
    simp [covering_eq_none_iff, Nat.not_le.2 hlt]

theorem bind_covering_eq_some_iff : hunks[segment]?.bind (covering · offset) = some (t, line) ↔
    ∃ h before after, hunks[segment]? = some h ∧ h.tableList = before ++ t :: after ∧
      t.findLine offset = some line ∧ ∀ u ∈ before, ∀ e ∈ u.entries, e.offset < offset := by
  simp only [Option.bind_eq_some_iff, covering_eq_some_iff, exists_and_left]

end AmigaHunk.Session
