import AmigaHunk.Proofs.LineTable.StableSort
import Mathlib.Data.List.Basic

/-! Searching a line table for an offset. Sorting puts the entries before the offset in front of the
others, so the entry by entry search can be read off the list that was sorted, and halving the table
finds the same line. -/
namespace AmigaHunk

/-- The first number from `low` below `high` that fails, if those that pass come before it. -/
def bisect (p : Nat → Bool) (low high : Nat) : Nat :=
  if low < high then
    let middle := (low + high) / 2
    if p middle then bisect p (middle + 1) high else bisect p low middle
  else low
termination_by high - low

theorem bisect_eq {p : Nat → Bool} {low high point : Nat} (hlow : low ≤ point)
    (hhigh : point ≤ high) (h : ∀ i, low ≤ i → i < high → (p i = true ↔ i < point)) :
    bisect p low high = point := by
  fun_induction bisect p low high with
  | case1 low high hlt middle hpass ih =>
    have hmiddle : middle < point := (h middle (by omega) (by omega)).1 hpass
    exact ih (by omega) hhigh fun i hi hlt' => h i (by omega) hlt'
  | case2 low high hlt middle hfail ih =>
    have hmiddle : ¬middle < point := fun hp => hfail ((h middle (by omega) (by omega)).2 hp)
    exact ih hlow (by omega) fun i hi hlt' => h i hi (by omega)
  | case3 low high hge => omega

/-- How many elements pass, if they stand in front of the others. -/
def partitionPoint {α : Type} (p : α → Bool) (xs : List α) : Nat :=
  bisect (fun i => xs[i]?.any p) 0 xs.length

theorem partitionPoint_append {α : Type} {p : α → Bool} {front back : List α}
    (hfront : ∀ x ∈ front, p x = true) (hback : ∀ x ∈ back, p x = false) :
    partitionPoint p (front ++ back) = front.length := by
  refine bisect_eq (Nat.zero_le _) (by simp) fun i _ hi => ?_
  rw [List.getElem?_eq_getElem hi, Option.any_some]
  by_cases hlt : i < front.length
  · simp [List.getElem_append_left hlt, hfront _ (List.getElem_mem hlt), hlt]
  · have hle : front.length ≤ i := Nat.le_of_not_lt hlt
    simp [List.getElem_append_right hle, hback _ (List.getElem_mem _), hlt]

namespace LineTable
variable {t : LineTable} {entries low high : List LineEntry} {offset : UInt32}

theorem findLine_eq_none_iff : t.findLine offset = none ↔ ∀ e ∈ t.entries, e.offset < offset := by
  rw [findLine]
  cases hfind : t.entries.find? (·.offset = offset) with
  | some e =>
    have he : e.offset = offset := by simpa using List.find?_some hfind
    simp only [reduceCtorEq, false_iff]
    intro h
    exact UInt32.ne_of_lt (h e (List.mem_of_find?_eq_some hfind)) he
  | none =>
    have hne : ∀ e ∈ t.entries, e.offset ≠ offset := by simpa using hfind
    simp only [ite_eq_right_iff, reduceCtorEq, imp_false, List.any_eq_true, decide_eq_true_eq,
      not_exists, not_and]
    refine forall₂_congr fun e he => ?_
    have := hne e he
    grind

/-- The cut of a table at an offset: the entries before it, and the others. -/
structure Cut (entries : List LineEntry) (offset : UInt32) (low high : List LineEntry) : Prop where
  append_eq : entries = low ++ high
  low_lt : ∀ e ∈ low, e.offset < offset
  le_high : ∀ e ∈ high, offset ≤ e.offset
  sorted : entries.Pairwise (·.offset ≤ ·.offset)

theorem exists_cut (h : entries.Pairwise (·.offset ≤ ·.offset)) (offset : UInt32) :
    ∃ low high, Cut entries offset low high := by
  induction entries with
  | nil => exact ⟨[], [], rfl, by simp, by simp, h⟩
  | cons e entries ih =>
    obtain ⟨he, hentries⟩ := List.pairwise_cons.1 h
    by_cases hlt : e.offset < offset
    · obtain ⟨low, high, rfl, hlow, hhigh, -⟩ := ih hentries
      exact ⟨e :: low, high, rfl, by simpa [hlt] using hlow, hhigh, h⟩
    · have hle : offset ≤ e.offset := UInt32.not_lt.1 hlt
      refine ⟨[], e :: entries, rfl, by simp, ?_, h⟩
      simp only [List.mem_cons, forall_eq_or_imp]
      exact ⟨hle, fun x hx => UInt32.le_trans hle (he x hx)⟩

namespace Cut

theorem mem_low_iff (h : Cut entries offset low high) {e : LineEntry} :
    e ∈ low ↔ e ∈ entries ∧ e.offset < offset := by
  rw [h.append_eq, List.mem_append]
  constructor
  · exact fun he => ⟨.inl he, h.low_lt e he⟩
  · rintro ⟨he | he, hlt⟩
    · exact he
    · exact absurd hlt (UInt32.not_lt.2 (h.le_high e he))

theorem mem_high_iff (h : Cut entries offset low high) {e : LineEntry} :
    e ∈ high ↔ e ∈ entries ∧ offset ≤ e.offset := by
  rw [h.append_eq, List.mem_append]
  constructor
  · exact fun he => ⟨.inr he, h.le_high e he⟩
  · rintro ⟨he | he, hle⟩
    · exact absurd hle (UInt32.not_le.2 (h.low_lt e he))
    · exact he

theorem filter_eq_low (h : Cut entries offset low high) :
    entries.filter (·.offset < offset) = low := by
  rw [h.append_eq, List.filter_append, List.filter_eq_self.2 fun e he => by simpa using h.low_lt e he,
    List.filter_eq_nil_iff.2 fun e he => by simpa using h.le_high e he, List.append_nil]

/-- If there are entries at the offset, the cut is in front of the first of them. -/
theorem find?_eq (h : Cut entries offset low high) :
    entries.find? (·.offset = offset) = high.head?.filter (·.offset = offset) := by
  have hlow : low.find? (·.offset = offset) = none :=
    List.find?_eq_none.2 fun e he => by simpa using UInt32.ne_of_lt (h.low_lt e he)
  rw [h.append_eq, List.find?_append, hlow, Option.none_or]
  cases high with
  | nil => rfl
  | cons x rest =>
    by_cases hat : x.offset = offset
    · simp [Option.filter_some, hat]
    · have hlater : offset < x.offset :=
        UInt32.lt_of_le_of_ne (h.le_high x List.mem_cons_self) (Ne.symm hat)
      have hsorted : (x :: rest).Pairwise (·.offset ≤ ·.offset) :=
        (List.pairwise_append.1 (h.append_eq ▸ h.sorted)).2.1
      have hrest : ∀ e ∈ rest, e.offset ≠ offset := fun e he =>
        have hle := (List.pairwise_cons.1 hsorted).1 e he
        (UInt32.ne_of_lt (UInt32.lt_of_lt_of_le hlater hle)).symm
      simpa [Option.filter_some, hat] using hrest

theorem findLine_eq (h : Cut t.entries offset low high) :
    t.findLine offset = high.head?.map fun e =>
      if e.offset = offset then e.line else (low.getLast?.map (·.line)).getD 0 := by
  cases high with
  | nil =>
    refine findLine_eq_none_iff.2 fun e he => h.low_lt e ?_
    rwa [h.append_eq, List.append_nil] at he
  | cons x rest =>
    have hx := h.mem_high_iff.1 (List.mem_cons_self (a := x))
    rw [findLine, h.find?_eq, h.filter_eq_low]
    by_cases hat : x.offset = offset
    · simp [Option.filter_some, hat]
    · have hlater : t.entries.any (offset < ·.offset) = true :=
        List.any_eq_true.2 ⟨x, hx.1, by simpa using UInt32.lt_of_le_of_ne hx.2 (Ne.symm hat)⟩
      simp [Option.filter_some, hat, hlater]

theorem partitionPoint_eq (h : Cut entries offset low high) :
    partitionPoint (·.offset < offset) entries = low.length := by
  rw [h.append_eq]
  exact partitionPoint_append (by simpa using h.low_lt) (by simpa using h.le_high)

end Cut

/-- The line at `offset`, found by halving the table: that of the entry where the smaller offsets
end if it is there, else that of the entry before it, or 0 if there is none. -/
def searchLine (t : LineTable) (offset : UInt32) : Option UInt32 :=
  let point := partitionPoint (·.offset < offset) t.entries
  t.entries[point]?.map fun e =>
    if e.offset = offset then e.line
    else if point = 0 then 0
    else (t.entries[point - 1]?.map (·.line)).getD 0

theorem searchLine_eq_findLine (h : t.entries.Pairwise (·.offset ≤ ·.offset)) (offset : UInt32) :
    t.searchLine offset = t.findLine offset := by
  obtain ⟨low, high, hcut⟩ := exists_cut h offset
  rw [hcut.findLine_eq, searchLine, hcut.partitionPoint_eq, hcut.append_eq]
  have hpoint : (low ++ high)[low.length]? = high.head? := by
    rw [List.getElem?_append_right (Nat.le_refl _), Nat.sub_self, List.head?_eq_getElem?]
  have hlast : (if low.length = 0 then 0
      else ((low ++ high)[low.length - 1]?.map (·.line)).getD 0) =
        (low.getLast?.map (·.line)).getD 0 := by
    cases low with
    | nil => rfl
    | cons e low =>
      rw [if_neg (by simp), List.getElem?_append_left (by simp), List.getLast?_eq_getElem?]
  simp only [hpoint, hlast]

/-- Of the entries with the greatest offset before this one, the last. -/
structure IsLastBefore (entries : List LineEntry) (offset : UInt32) (e : LineEntry) : Prop where
  lt : e.offset < offset
  greatest : ∀ x ∈ entries, x.offset < offset → x.offset ≤ e.offset
  last : ∃ before after, entries = before ++ e :: after ∧ ∀ x ∈ after, x.offset ≠ e.offset

theorem getLast?_filter_offset_iff {e : LineEntry} :
    (entries.filter (·.offset = e.offset)).getLast? = some e ↔
      ∃ before after, entries = before ++ e :: after ∧ ∀ x ∈ after, x.offset ≠ e.offset := by
  rw [List.getLast?_filter, List.find?_eq_some_iff_append]
  constructor
  · rintro ⟨-, after, before, hsplit, hafter⟩
    refine ⟨before.reverse, after.reverse, ?_, by simpa using hafter⟩
    rw [List.reverse_eq_iff.1 hsplit]
    simp
  · rintro ⟨before, after, rfl, hafter⟩
    exact ⟨by simp, after.reverse, before.reverse, by simp, by simpa using hafter⟩

theorem IsLastBefore.mem {e : LineEntry} (h : IsLastBefore entries offset e) : e ∈ entries := by
  obtain ⟨before, after, rfl, -⟩ := h.last
  simp

theorem IsLastBefore.unique {e e' : LineEntry} (h : IsLastBefore entries offset e)
    (h' : IsLastBefore entries offset e') : e = e' := by
  have hoffset : e.offset = e'.offset :=
    UInt32.le_antisymm (h'.greatest e h.mem h.lt) (h.greatest e' h'.mem h'.lt)
  have hlast := getLast?_filter_offset_iff.2 h.last
  rw [hoffset, getLast?_filter_offset_iff.2 h'.last] at hlast
  exact (Option.some.inj hlast).symm

/-- Sorting leaves the first entry at an offset the first. -/
theorem find?_sort (entries : List LineEntry) (offset : UInt32) :
    (sort entries).find? (·.offset = offset) = entries.find? (·.offset = offset) := by
  rw [← List.head?_filter, (stablySorted_sort entries).filter_eq, List.head?_filter]

/-- The cut of the sorted entries has the last of those with the greatest offset at its end. -/
theorem Cut.isLastBefore {e : LineEntry} (h : Cut (sort entries) offset low high)
    (he : low.getLast? = some e) : IsLastBefore entries offset e := by
  obtain ⟨front, rfl⟩ := List.getLast?_eq_some_iff.1 he
  have hlt : e.offset < offset := h.low_lt e (by simp)
  refine ⟨hlt, fun x hx hxlt => ?_, getLast?_filter_offset_iff.1 ?_⟩
  · have hsorted := (List.pairwise_append.1 (h.append_eq ▸ h.sorted)).1
    have hmem : x ∈ front ++ [e] := h.mem_low_iff.2 ⟨(sort_perm entries).mem_iff.2 hx, hxlt⟩
    cases List.mem_append.1 hmem with
    | inl hfront => exact (List.pairwise_append.1 hsorted).2.2 x hfront e List.mem_cons_self
    | inr hxe => rw [List.mem_singleton.1 hxe]; exact UInt32.le_refl _
  · have hhigh : high.filter (·.offset = e.offset) = [] := by
      rw [List.filter_eq_nil_iff]
      intro x hx
      simpa using (UInt32.ne_of_lt (UInt32.lt_of_lt_of_le hlt (h.le_high x hx))).symm
    rw [← (stablySorted_sort entries).filter_eq, h.append_eq, List.filter_append, hhigh]
    simp

theorem Cut.getLast?_eq_some_iff {e : LineEntry} (h : Cut (sort entries) offset low high) :
    low.getLast? = some e ↔ IsLastBefore entries offset e := by
  refine ⟨h.isLastBefore, fun hlast => ?_⟩
  have hmem : e ∈ low := h.mem_low_iff.2 ⟨(sort_perm entries).mem_iff.2 hlast.mem, hlast.lt⟩
  have hsome : low.getLast?.isSome = true := List.getLast?_isSome.2 (List.ne_nil_of_mem hmem)
  obtain ⟨e', he'⟩ := Option.isSome_iff_exists.1 hsome
  rw [he', (h.isLastBefore he').unique hlast]

/-- What line the entries that a table is made of give an offset. -/
inductive Nearest (entries : List LineEntry) (offset : UInt32) : Option UInt32 → Prop where
  /-- Behind all entries there is none. -/
  | behind (h : ∀ e ∈ entries, e.offset < offset) : Nearest entries offset none
  /-- Of the entries at the offset the first counts. -/
  | here {before after : List LineEntry} {e : LineEntry} (hsplit : entries = before ++ e :: after)
    (he : e.offset = offset) (hfirst : ∀ x ∈ before, x.offset ≠ offset) :
    Nearest entries offset (some e.line)
  /-- Between entries the last counts of those with the greatest offset before. -/
  | between {e : LineEntry} (he : IsLastBefore entries offset e)
    (hne : ∀ x ∈ entries, x.offset ≠ offset) (hlater : ∃ x ∈ entries, offset < x.offset) :
    Nearest entries offset (some e.line)
  /-- In front of all entries it is 0. -/
  | front (h : ∀ e ∈ entries, offset < e.offset) (hne : entries ≠ []) :
    Nearest entries offset (some 0)

theorem nearest_findLine (name : String) (entries : List LineEntry) (offset : UInt32) :
    Nearest entries offset ((ofEntries name entries).findLine offset) := by
  obtain ⟨low, high, h⟩ := exists_cut (sort_pairwise entries) offset
  have hcut : Cut (ofEntries name entries).entries offset low high := h
  have hmem (e : LineEntry) : e ∈ sort entries ↔ e ∈ entries := (sort_perm entries).mem_iff
  have hfind := find?_sort entries offset
  rw [h.find?_eq] at hfind
  rw [hcut.findLine_eq]
  cases high with
  | nil =>
    refine .behind fun e he => h.low_lt e ?_
    rwa [← hmem, h.append_eq, List.append_nil] at he
  | cons x rest =>
    by_cases hat : x.offset = offset
    · rw [List.head?_cons, Option.filter_some, if_pos (by simpa using hat), eq_comm,
        List.find?_eq_some_iff_append] at hfind
      obtain ⟨-, before, after, hsplit, hfirst⟩ := hfind
      rw [List.head?_cons, Option.map_some, if_pos hat]
      exact .here hsplit hat (by simpa using hfirst)
    · rw [List.head?_cons, Option.filter_some, if_neg (by simpa using hat), eq_comm,
        List.find?_eq_none] at hfind
      have hne : ∀ e ∈ entries, e.offset ≠ offset := by simpa using hfind
      have hx := h.mem_high_iff.1 (List.mem_cons_self (a := x))
      rw [List.head?_cons, Option.map_some, if_neg hat]
      cases hlast : low.getLast? with
      | none =>
        refine .front (fun e he => ?_) (List.ne_nil_of_mem ((hmem x).1 hx.1))
        have hlow : ¬e.offset < offset := fun hlt => by
          have hin := h.mem_low_iff.2 ⟨(hmem e).2 he, hlt⟩
          rw [List.getLast?_eq_none_iff.1 hlast] at hin
          cases hin
        exact UInt32.lt_of_le_of_ne (UInt32.not_lt.1 hlow) (hne e he).symm
      | some e =>
        exact .between (h.isLastBefore hlast) hne
          ⟨x, (hmem x).1 hx.1, UInt32.lt_of_le_of_ne hx.2 (Ne.symm hat)⟩

/-- Between entries, none of which is at the offset, the end of the cut decides. -/
theorem Cut.findLine_of_later (h : Cut t.entries offset low high)
    (hne : ∀ e ∈ t.entries, e.offset ≠ offset) (hlater : ∃ e ∈ t.entries, offset < e.offset) :
    t.findLine offset = some ((low.getLast?.map (·.line)).getD 0) := by
  have hfind : t.entries.find? (·.offset = offset) = none := by simpa using hne
  have hany : t.entries.any (offset < ·.offset) = true := by simpa using hlater
  simp only [findLine, hfind, if_pos hany, h.filter_eq_low]

theorem Nearest.findLine_eq {line : Option UInt32} (hnearest : Nearest entries offset line)
    (name : String) : (ofEntries name entries).findLine offset = line := by
  obtain ⟨low, high, h⟩ := exists_cut (sort_pairwise entries) offset
  have hcut : Cut (ofEntries name entries).entries offset low high := h
  have hmem (e : LineEntry) : e ∈ sort entries ↔ e ∈ entries := (sort_perm entries).mem_iff
  cases hnearest with
  | behind hlt => exact findLine_eq_none_iff.2 fun e he => hlt e ((hmem e).1 he)
  | @here before after e hsplit he hfirst =>
    have hfind : (ofEntries name entries).entries.find? (·.offset = offset) = some e := by
      refine (find?_sort entries offset).trans (List.find?_eq_some_iff_append.2 ?_)
      exact ⟨by simpa using he, before, after, hsplit, by simpa using hfirst⟩
    rw [findLine, hfind]
  | @between e he hne hlater =>
    obtain ⟨x, hx, hlt⟩ := hlater
    rw [hcut.findLine_of_later (fun y hy => hne y ((hmem y).1 hy)) ⟨x, (hmem x).2 hx, hlt⟩,
      h.getLast?_eq_some_iff.2 he]
    rfl
  | front hlt hne =>
    obtain ⟨x, hx⟩ := List.exists_mem_of_ne_nil _ hne
    have hlow : low = [] := List.eq_nil_iff_forall_not_mem.2 fun e he =>
      UInt32.lt_asymm (h.low_lt e he) (hlt e ((hmem e).1 (h.mem_low_iff.1 he).1))
    rw [hcut.findLine_of_later (fun y hy => (UInt32.ne_of_lt (hlt y ((hmem y).1 hy))).symm)
      ⟨x, (hmem x).2 hx, hlt x hx⟩, hlow]
    rfl

/-- A table finds the line that its entries, as they were before sorting, give an offset, and halving
the table finds it too. -/
theorem findLine_ofEntries (name : String) (entries : List LineEntry) (offset : UInt32) :
    (∀ line, (ofEntries name entries).findLine offset = line ↔ Nearest entries offset line) ∧
      (ofEntries name entries).searchLine offset = (ofEntries name entries).findLine offset := by
  refine ⟨fun line => ⟨?_, fun h => h.findLine_eq name⟩, searchLine_eq_findLine ?_ offset⟩
  · rintro rfl
    exact nearest_findLine name entries offset
  · exact sort_pairwise entries

/-- Of two entries with one offset, the first counts at the offset and the last behind it. -/
example :
    let t := ofEntries "a.s" [⟨4, 7⟩, ⟨0, 5⟩, ⟨4, 8⟩, ⟨9, 6⟩]
    t.findLine 4 = some 7 ∧ t.findLine 6 = some 8 := by decide

end LineTable
end AmigaHunk
