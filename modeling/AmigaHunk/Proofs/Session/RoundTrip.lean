import AmigaHunk.Host.Query
import AmigaHunk.Proofs.Session.Covering
import AmigaHunk.Proofs.Session.Run

/-! From an address to its line and back. A session that has told the location of an address finds
the segment of the address again by the file and the line it told. -/
namespace AmigaHunk

namespace LineTable
variable {t : LineTable} {offset line : UInt32}

theorem exists_entry_of_findLine (h : t.findLine offset = some line) (hline : line ≠ 0) :
    ∃ e ∈ t.entries, e.line = line := by
  unfold findLine at h
  cases hfind : t.entries.find? (·.offset = offset) with
  | some e =>
    rw [hfind] at h
    exact ⟨e, List.mem_of_find?_eq_some hfind, Option.some.inj h⟩
  | none =>
    simp only [hfind] at h
    by_cases hany : t.entries.any (offset < ·.offset) = true
    · rw [if_pos hany, Option.some.injEq] at h
      cases hlast : (t.entries.filter (·.offset < offset)).getLast? with
      | none =>
        rw [hlast] at h
        exact absurd h.symm hline
      | some e =>
        rw [hlast] at h
        exact ⟨e, (List.mem_filter.1 (List.mem_of_getLast? hlast)).1, h⟩
    · rw [if_neg hany] at h
      cases h

theorem isSome_offsetOf (h : ∃ e ∈ t.entries, e.line = line) : (t.offsetOf line).isSome = true := by
  obtain ⟨e, he, hline⟩ := h
  rw [offsetOf, Option.isSome_map, List.find?_isSome]
  exact ⟨e, he, decide_eq_true hline⟩

end LineTable

namespace Session
variable {α β : Type} {fs : FileSystem} {s : Session}

/-- An element that passes in every later session stays in a filtered list. -/
theorem mem_filterAuxM {p : β → Action Bool} [∀ x, Asks (p x)] {x : β} {xs acc : List β}
    (hx : x ∈ xs ∨ x ∈ acc) (hp : ∀ s', Extends s s' → (perform fs (p x) s').1 = true) :
    x ∈ (perform fs (xs.filterAuxM p acc) s).1 := by
  induction xs generalizing acc s with
  | nil =>
    cases hx with
    | inl hx => cases hx
    | inr hx => exact hx
  | cons y xs ih =>
    change x ∈ (perform fs (p y >>= fun b => xs.filterAuxM p (cond b (y :: acc) acc)) s).1
    have hnext : Extends s (perform fs (p y) s).2 := Asks.extends_perform fs s
    rw [perform_bind]
    refine ih ?_ fun s' hs' => hp s' (hnext.trans hs')
    cases hx with
    | inl hx =>
      cases List.mem_cons.1 hx with
      | inl hxy =>
        have htrue := hp s (.refl s)
        rw [hxy] at htrue
        rw [htrue, hxy]
        exact .inr List.mem_cons_self
      | inr hx => exact .inl hx
    | inr hx =>
      cases (perform fs (p y) s).1 with
      | true => exact .inr (List.mem_cons_of_mem y hx)
      | false => exact .inr hx

theorem mem_filterM {p : β → Action Bool} [∀ x, Asks (p x)] {x : β} {xs : List β} (hx : x ∈ xs)
    (hp : ∀ s', Extends s s' → (perform fs (p x) s').1 = true) :
    x ∈ (perform fs (xs.filterM p) s).1 := by
  have h : x ∈ (perform fs (xs.filterAuxM p []) s).1 := mem_filterAuxM (.inl hx) hp
  change x ∈ (perform fs (xs.filterAuxM p [] >>= fun as => pure as.reverse) s).1
  rw [perform_bind, perform_pure]
  exact List.mem_reverse.2 h

/-- A search answers at the latest at an element that answers in every later session. -/
theorem findSomeM?_of_isSome {f : β → Action (Option α)} [∀ x, Asks (f x)] {x : β}
    {xs ys : List β} (hx : ∀ s', Extends s s' → (perform fs (f x) s').1.isSome = true) :
    ∃ y ∈ xs ++ [x], ∃ s' a, (perform fs (f y) s').1 = some a ∧
      (perform fs ((xs ++ x :: ys).findSomeM? f) s).1 = some a := by
  induction xs generalizing s with
  | nil =>
    obtain ⟨a, ha⟩ := Option.isSome_iff_exists.1 (hx s (.refl s))
    refine ⟨x, List.mem_singleton_self x, s, a, ha, ?_⟩
    rw [List.nil_append, List.findSomeM?_cons, perform_bind, ha]
    rfl
  | cons y xs ih =>
    have hnext : Extends s (perform fs (f y) s).2 := Asks.extends_perform fs s
    simp only [List.cons_append, List.findSomeM?_cons, perform_bind]
    cases hy : (perform fs (f y) s).1 with
    | some a => exact ⟨y, List.mem_cons_self, s, a, hy, rfl⟩
    | none =>
      obtain ⟨z, hz, s', a, ha, hfound⟩ := ih fun s' hs' => hx s' (hnext.trans hs')
      exact ⟨z, List.mem_cons_of_mem y hz, s', a, ha, hfound⟩

/-- A table is for the file that its name has been found to be. -/
theorem perform_isFor_self {t : LineTable} {path : String}
    (h : s.resolver.resolved.lookup t.name = some path) :
    perform fs (isFor path t) s = (true, s) := by
  rw [isFor, perform_bind, perform_resolveName_of_lookup fs h, perform_pure, Path.same_self]

/-- The offset of a line in one table. -/
def offsetFor (wanted : String) (line : UInt32) (t : LineTable) : Action (Option UInt32) := do
  if ← isFor wanted t then return t.offsetOf line else return none

instance (wanted : String) (line : UInt32) (t : LineTable) : Asks (offsetFor wanted line t) := by
  unfold offsetFor
  infer_instance

theorem isSome_perform_offsetOf {h : Hunk} {t : LineTable} {path : String} {line : UInt32}
    (ht : t ∈ h.tableList) (hline : (t.offsetOf line).isSome = true)
    (hname : s.resolver.resolved.lookup t.name = some path) :
    (perform fs (offsetOf path line h) s).1.isSome = true := by
  have hself : ∀ s', Extends s s' →
      (perform fs (offsetFor path line t) s').1.isSome = true := by
    intro s' hs'
    rw [offsetFor, perform_bind, perform_isFor_self (hs'.kept hname)]
    exact hline
  obtain ⟨xs, ys, htables⟩ := List.append_of_mem ht
  obtain ⟨y, -, s', a, -, hfound⟩ := findSomeM?_of_isSome hself
  change (perform fs (h.tableList.findSomeM? (offsetFor path line)) s).1.isSome = true
  rw [htables, hfound]
  rfl

/-- The address of a line in one hunk. -/
def addressIn (wanted : String) (line : UInt32) (p : Hunk × Nat) : Action (Option Address) := do
  return (← offsetOf wanted line p.1).map (⟨p.2, ·⟩)

instance (wanted : String) (line : UInt32) (p : Hunk × Nat) : Asks (addressIn wanted line p) := by
  unfold addressIn
  infer_instance

theorem perform_addressIn {wanted : String} {line : UInt32} {p : Hunk × Nat} :
    (perform fs (addressIn wanted line p) s).1 =
      (perform fs (offsetOf wanted line p.1) s).1.map (⟨p.2, ·⟩) := by
  rw [addressIn, perform_bind, perform_pure]

theorem zipIdx_eq_append_of_getElem? {xs : List β} {i : Nat} {x : β} (h : xs[i]? = some x) :
    ∃ as bs, xs.zipIdx = as ++ (x, i) :: bs ∧ ∀ p ∈ as, p.2 < i := by
  obtain ⟨hi, rfl⟩ := List.getElem?_eq_some_iff.1 h
  have hlength : (xs.take i).length = i := List.length_take_of_le (Nat.le_of_lt hi)
  have hsplit : xs = xs.take i ++ xs[i] :: xs.drop (i + 1) := by
    rw [← List.drop_eq_getElem_cons hi, List.take_append_drop]
  refine ⟨(xs.take i).zipIdx, (xs.drop (i + 1)).zipIdx (i + 1), ?_, ?_⟩
  · calc xs.zipIdx = (xs.take i ++ xs[i] :: xs.drop (i + 1)).zipIdx := by rw [← hsplit]
      _ = (xs.take i).zipIdx ++ (xs[i], i) :: (xs.drop (i + 1)).zipIdx (i + 1) := by
        rw [List.zipIdx_append, List.zipIdx_cons, hlength, Nat.zero_add]
  · intro p hp
    have hlt := (List.mem_zipIdx hp).2.1
    omega

/-- The line of a table of a segment has an address in it or in one before it. -/
theorem exists_perform_address {h : Hunk} {segment : Nat} {t : LineTable} {path : String}
    {line : UInt32} (hget : s.hunks[segment]? = some h) (ht : t ∈ h.tableList)
    (hline : (t.offsetOf line).isSome = true)
    (hname : s.resolver.resolved.lookup t.name = some path)
    (hnormal : Path.normalize path = path) :
    ∃ a, (perform fs (address path line) s).1 = some a ∧ a.segment ≤ segment := by
  obtain ⟨as, bs, hzip, hlt⟩ := zipIdx_eq_append_of_getElem? hget
  have hself : ∀ s', Extends s s' →
      (perform fs (addressIn path line (h, segment)) s').1.isSome = true := by
    intro s' hs'
    rw [perform_addressIn, Option.isSome_map]
    exact isSome_perform_offsetOf ht hline (hs'.kept hname)
  obtain ⟨y, hy, s', a, ha, hfound⟩ := findSomeM?_of_isSome hself
  refine ⟨a, ?_, ?_⟩
  · change (perform fs (get >>= fun s => s.hunks.zipIdx.findSomeM?
      (addressIn (Path.normalize path) line)) s).1 = some a
    rw [perform_bind, perform_get, hnormal, hzip]
    exact hfound
  · rw [perform_addressIn] at ha
    obtain ⟨o, -, rfl⟩ := Option.map_eq_some_iff.1 ha
    change y.2 ≤ segment
    cases List.mem_append.1 hy with
    | inl hy => exact Nat.le_of_lt (hlt y hy)
    | inr hy => exact Nat.le_of_eq (congrArg Prod.snd (List.mem_singleton.1 hy))

theorem mem_perform_segments {h : Hunk} {segment : Nat} {t : LineTable} {path : String}
    (hget : s.hunks[segment]? = some h) (ht : t ∈ h.tableList)
    (hname : s.resolver.resolved.lookup t.name = some path)
    (hnormal : Path.normalize path = path) :
    segment ∈ (perform fs (segments path) s).1 := by
  obtain ⟨as, bs, hzip, -⟩ := zipIdx_eq_append_of_getElem? hget
  have htable : (t, segment) ∈ s.hunks.zipIdx.flatMap fun p => p.1.tableList.map (·, p.2) := by
    rw [hzip, List.mem_flatMap]
    exact ⟨(h, segment), List.mem_append_right as List.mem_cons_self, List.mem_map_of_mem ht⟩
  have hself : ∀ s', Extends s s' → (perform fs (isFor path t) s').1 = true := by
    intro s' hs'
    rw [perform_isFor_self (hs'.kept hname)]
  have hmem := mem_filterM (p := fun p : LineTable × Nat => isFor path p.1) htable hself
  rw [segments, perform_bind, perform_get, perform_bind, perform_pure, hnormal]
  exact List.mem_map_of_mem hmem

/-- A location is told from a table of the hunk, and its file is where the name of the table has
been found. -/
theorem exists_table_of_locate {segment : Nat} {offset : UInt32} {loc : Location}
    (h : (perform fs (locate segment offset) s).1 = some loc) :
    ∃ hunk t, s.hunks[segment]? = some hunk ∧ t ∈ hunk.tableList ∧
      t.findLine offset = some loc.line ∧
      (perform fs (locate segment offset) s).2.resolver.resolved.lookup t.name = some loc.file := by
  rw [locate, perform_bind, perform_get] at h ⊢
  cases hfound : s.hunks[segment]?.bind (covering · offset) with
  | none =>
    simp only [hfound, perform_pure] at h
    cases h
  | some found =>
    obtain ⟨t, line⟩ := found
    simp only [hfound, perform_bind, perform_pure] at h ⊢
    obtain ⟨hunk, before, after, hget, hsplit, hline, -⟩ := bind_covering_eq_some_iff.1 hfound
    cases h
    have hname := lookup_perform_resolveName fs s t.name
    exact ⟨hunk, t, hget, by simp [hsplit], hline, (Asks.extends_perform fs _).kept hname⟩

/-- In any session that may come later the file has the segment, and the line an address. -/
theorem found_again {s' : Session} (fs files : FileSystem) {segment : Nat} {offset : UInt32}
    {loc : Location} (hs : s.Normal) (hloc : (perform files (locate segment offset) s).1 = some loc)
    (hline : 1 ≤ loc.line) (hs' : Extends (perform files (locate segment offset) s).2 s') :
    segment ∈ (perform fs (segments loc.file) s').1 ∧
      ∃ a, (perform fs (address loc.file loc.line) s').1 = some a ∧ a.segment ≤ segment := by
  obtain ⟨hunk, t, hget, ht, hfind, hname⟩ := exists_table_of_locate hloc
  have hextends : Extends s s' := (Asks.extends_perform files s).trans hs'
  have hget' : s'.hunks[segment]? = some hunk := by
    rw [hextends.hunks_eq, hget]
  have hname' := hs'.kept hname
  have hnormal := hextends.normal hs _ _ hname'
  have hne : loc.line ≠ 0 := by
    intro h0
    rw [h0] at hline
    exact absurd hline (by decide)
  have hoffset := LineTable.isSome_offsetOf (LineTable.exists_entry_of_findLine hfind hne)
  exact ⟨mem_perform_segments hget' ht hname' hnormal,
    exists_perform_address hget' ht hoffset hname' hnormal⟩

/-- Between a question for a location and the next load, its file has the segment among its
segments, and its line has an address in that segment or in one before it. -/
theorem address_of_location {hunks : List Hunk} {config : PathConfig} {before later : List Turn}
    {files : FileSystem} {segment : Nat} {offset : UInt32} {loc : Location}
    (hloc : (((start hunks config).after before).ask ⟨files, .locate segment offset⟩).1 =
      .location (some loc))
    (hline : 1 ≤ loc.line) (hlater : ∀ t ∈ later, t.request.isQuestion = true)
    (files' : FileSystem) :
    let s := (start hunks config).after (before ++ ⟨files, .locate segment offset⟩ :: later)
    (∃ ids, (s.ask ⟨files', .segments loc.file⟩).1 = .segments ids ∧ segment ∈ ids) ∧
      ∃ a, (s.ask ⟨files', .address loc.file loc.line⟩).1 = .address (some a) ∧
        a.segment ≤ segment := by
  intro s
  have hs : s = (((start hunks config).after before).ask ⟨files, .locate segment offset⟩).2.after
      later := after_append _ before _
  have hnormal := after_normal (normal_start hunks config) before
  generalize (start hunks config).after before = s₀ at hloc hs hnormal
  rw [ask_of_map (locate segment offset) rfl] at hloc hs
  have hextends := after_extends hlater (perform files (locate segment offset) s₀).2
  rw [← hs] at hextends
  obtain ⟨hsegment, a, ha, hle⟩ :=
    found_again files' files hnormal (Answer.location.inj hloc) hline hextends
  rw [ask_of_map (segments loc.file) rfl,
    ask_of_map (address loc.file loc.line) rfl, ha]
  exact ⟨⟨_, rfl, hsegment⟩, a, rfl, hle⟩

/-- Code of two lines of one file. -/
def twoLines : List Hunk := [⟨0, .code, .any, 4, none, some [0x4E, 0x71, 0x4E, 0x75], none,
  some [⟨"a.c", [⟨0, 7⟩, ⟨2, 8⟩]⟩]⟩]

def oneFile : FileSystem := Store.fileSystem [("/work/a.c", some [])]

/-- The file is gone when the address is asked for. -/
theorem address_of_second_line :
    (((start twoLines ⟨[], ["/work"], []⟩).after []).ask ⟨oneFile, .locate 0 2⟩).1 =
      .location (some ⟨"/work/a.c", 8, none⟩) ∧
    let s := (start twoLines ⟨[], ["/work"], []⟩).after ([] ++ ⟨oneFile, .locate 0 2⟩ ::
      [⟨Store.fileSystem [], .resolveName "b.c"⟩])
    (∃ ids, (s.ask ⟨Store.fileSystem [], .segments "/work/a.c"⟩).1 = .segments ids ∧ 0 ∈ ids) ∧
      ∃ a, (s.ask ⟨Store.fileSystem [], .address "/work/a.c" 8⟩).1 = .address (some a) ∧
        a.segment ≤ 0 := by
  have hloc : (((start twoLines ⟨[], ["/work"], []⟩).after []).ask ⟨oneFile, .locate 0 2⟩).1 =
      .location (some ⟨"/work/a.c", 8, none⟩) := by decide +kernel
  have hlater : ∀ t ∈ [Turn.mk (Store.fileSystem []) (.resolveName "b.c")],
      t.request.isQuestion = true := by
    intro t ht
    rw [List.mem_singleton.1 ht]
    rfl
  exact ⟨hloc, address_of_location hloc (by decide) hlater (Store.fileSystem [])⟩

end Session
end AmigaHunk
