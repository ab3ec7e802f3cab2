import AmigaHunk.Proofs.Session.RoundTrip

/-! From a line to its address and back. The address of a line has a location, and it is that line
again unless the tables of the segment say more of the offset. -/
namespace AmigaHunk

namespace LineTable
variable {t : LineTable} {offset line : UInt32}

theorem exists_entry_of_offsetOf (h : t.offsetOf line = some offset) :
    ∃ e ∈ t.entries, e.line = line ∧ e.offset = offset := by
  obtain ⟨e, he, hoffset⟩ := Option.map_eq_some_iff.1 h
  have hline : e.line = line := by simpa using List.find?_some he
  exact ⟨e, List.mem_of_find?_eq_some he, hline, hoffset⟩

/-- A recorded offset has the line of an entry there. -/
theorem findLine_of_mem {e : LineEntry} (h : e ∈ t.entries) :
    ∃ e' ∈ t.entries, e'.offset = e.offset ∧ t.findLine e.offset = some e'.line := by
  have hfound : (t.entries.find? (·.offset = e.offset)).isSome = true := by
    rw [List.find?_isSome]
    exact ⟨e, h, decide_eq_true rfl⟩
  obtain ⟨e', he'⟩ := Option.isSome_iff_exists.1 hfound
  have hoffset : e'.offset = e.offset := by simpa using List.find?_some he'
  refine ⟨e', List.mem_of_find?_eq_some he', hoffset, ?_⟩
  rw [findLine, he']

theorem findLine_of_countP {e : LineEntry} (h : e ∈ t.entries)
    (hone : t.entries.countP (·.offset = e.offset) = 1) : t.findLine e.offset = some e.line := by
  obtain ⟨e', he', hoffset, hline⟩ := findLine_of_mem h
  rw [List.countP_eq_length_filter, List.length_eq_one_iff] at hone
  obtain ⟨only, honly⟩ := hone
  have eq_only : ∀ x ∈ t.entries, x.offset = e.offset → x = only := by
    intro x hx hxo
    have hmem : x ∈ t.entries.filter (·.offset = e.offset) :=
      List.mem_filter.2 ⟨hx, decide_eq_true hxo⟩
    rw [honly] at hmem
    exact List.mem_singleton.1 hmem
  rw [hline, eq_only e' he' hoffset, eq_only e h rfl]

end LineTable

namespace Session
variable {α β : Type} {fs : FileSystem} {s : Session}

/-- A search that answers asked the elements in front of the one that answered in vain. -/
theorem findSomeM?_eq_some {f : β → Action (Option α)} [∀ x, Asks (f x)] {xs : List β} {a : α}
    (h : (perform fs (xs.findSomeM? f) s).1 = some a) :
    ∃ as x bs, xs = as ++ x :: bs ∧
      (∃ s', perform fs (f x) s' = (some a, (perform fs (xs.findSomeM? f) s).2)) ∧
      ∀ y ∈ as, ∃ s', (perform fs (f y) s').1 = none ∧
        Extends (perform fs (f y) s').2 (perform fs (xs.findSomeM? f) s).2 := by
  induction xs generalizing s with
  | nil => cases h
  | cons x xs ih =>
    rw [List.findSomeM?_cons, perform_bind] at h ⊢
    cases hx : (perform fs (f x) s).1 with
    | some b =>
      rw [hx] at h
      cases h
      exact ⟨[], x, xs, rfl, ⟨s, Prod.ext hx rfl⟩, fun y hy => by cases hy⟩
    | none =>
      rw [hx] at h
      obtain ⟨as, z, bs, rfl, hz, has⟩ := ih h
      refine ⟨x :: as, z, bs, rfl, hz, fun y hy => ?_⟩
      cases List.mem_cons.1 hy with
      | inl hy =>
        subst hy
        exact ⟨s, hx, (asks_inquiring.findSomeM? inferInstance _).extends_perform fs _⟩
      | inr hy => exact has y hy

theorem perform_isFor (wanted : String) (t : LineTable) : perform fs (isFor wanted t) s =
    (Path.same (perform fs (resolveName t.name) s).1 wanted,
      (perform fs (resolveName t.name) s).2) := by
  rw [isFor, perform_bind, perform_pure]

theorem perform_offsetFor (wanted : String) (line : UInt32) (t : LineTable) :
    perform fs (offsetFor wanted line t) s =
      (if (perform fs (isFor wanted t) s).1 then t.offsetOf line else none,
        (perform fs (isFor wanted t) s).2) := by
  rw [offsetFor, perform_bind]
  cases (perform fs (isFor wanted t) s).1 <;> rfl

/-- Once asked for, a table stays for the same files. -/
theorem perform_isFor_again {wanted : String} {t : LineTable} {s' : Session} (files : FileSystem)
    (h : Extends (perform fs (isFor wanted t) s).2 s') :
    (perform files (isFor wanted t) s').1 = (perform fs (isFor wanted t) s).1 := by
  rw [perform_isFor] at h ⊢
  rw [perform_isFor, perform_resolveName_of_lookup files
    (h.kept (lookup_perform_resolveName fs s t.name))]

/-- Whether a table is for a file, where its source would be found now. -/
def Matches (s : Session) (files : FileSystem) (file : String) (t : LineTable) : Prop :=
  (perform files (isFor (Path.normalize file) t) s).1 = true

/-- The table behind some others is the first that is for the file and records the line. -/
structure Supplies (s : Session) (files : FileSystem) (file : String) (line : UInt32)
    (before : List LineTable) (t : LineTable) : Prop where
  isFor : s.Matches files file t
  records : ∃ e ∈ t.entries, e.line = line
  first : ∀ u ∈ before, s.Matches files file u → ∀ e ∈ u.entries, e.line ≠ line

/-- What supplies the offset of a line in a hunk goes on doing so. -/
theorem exists_supplier {file : String} {line offset : UInt32} {h : Hunk} {s' : Session}
    (files : FileSystem)
    (hoffset : (perform fs (offsetOf (Path.normalize file) line h) s).1 = some offset)
    (hs' : Extends (perform fs (offsetOf (Path.normalize file) line h) s).2 s') :
    ∃ tables t rest, h.tableList = tables ++ t :: rest ∧ t.offsetOf line = some offset ∧
      s'.Supplies files file line tables t := by
  obtain ⟨tables, t, rest, hsplit, ⟨s₁, ht⟩, htables⟩ :=
    findSomeM?_eq_some (f := offsetFor (Path.normalize file) line) hoffset
  change perform fs (offsetFor (Path.normalize file) line t) s₁ =
    (some offset, (perform fs (offsetOf (Path.normalize file) line h) s).2) at ht
  rw [perform_offsetFor, Prod.mk.injEq] at ht
  obtain ⟨hanswer, hbehind⟩ := ht
  cases hfor : (perform fs (isFor (Path.normalize file) t) s₁).1 with
  | false =>
    rw [hfor] at hanswer
    cases hanswer
  | true =>
    rw [hfor] at hanswer
    refine ⟨tables, t, rest, hsplit, hanswer, ?_, ?_, fun u hu hmatch e he hline => ?_⟩
    · rw [← hbehind] at hs'
      exact (perform_isFor_again files hs').trans hfor
    · obtain ⟨e, he, hline, -⟩ := LineTable.exists_entry_of_offsetOf hanswer
      exact ⟨e, he, hline⟩
    · obtain ⟨s₂, hnone, hextends⟩ := htables u hu
      rw [perform_offsetFor] at hnone hextends
      have hagain := perform_isFor_again files (hextends.trans hs')
      rw [Matches, hagain] at hmatch
      rw [hmatch] at hnone
      replace hnone : u.offsetOf line = none := hnone
      have hsome := LineTable.isSome_offsetOf ⟨e, he, hline⟩
      rw [hnone] at hsome
      cases hsome

theorem exists_hunk_of_address {file : String} {line : UInt32} {a : Address}
    (h : (perform fs (address file line) s).1 = some a) :
    ∃ hunk s₁, s.hunks[a.segment]? = some hunk ∧
      perform fs (offsetOf (Path.normalize file) line hunk) s₁ =
        (some a.offset, (perform fs (address file line) s).2) := by
  obtain ⟨as, p, bs, hsplit, ⟨s₁, hp⟩, -⟩ :=
    findSomeM?_eq_some (f := addressIn (Path.normalize file) line) h
  have hmem : p ∈ s.hunks.zipIdx := by
    rw [hsplit]
    exact List.mem_append_right as List.mem_cons_self
  rw [addressIn, perform_bind, perform_pure, Prod.mk.injEq] at hp
  obtain ⟨hanswer, hbehind⟩ := hp
  obtain ⟨offset, hoffset, rfl⟩ := Option.map_eq_some_iff.1 hanswer
  exact ⟨p.1, s₁, List.mem_zipIdx_iff_getElem?.1 hmem, Prod.ext hoffset hbehind⟩

theorem perform_locate_of_covering (files : FileSystem) {segment : Nat} {offset : UInt32}
    {hunk : Hunk} {t : LineTable} {line : UInt32} (hget : s.hunks[segment]? = some hunk)
    (hcovering : covering hunk offset = some (t, line)) :
    ∃ text, (perform files (locate segment offset) s).1 =
      some ⟨(perform files (resolveName t.name) s).1, line, text⟩ := by
  rw [locate, perform_bind, perform_get, hget, Option.bind_some, hcovering]
  simp only [perform_bind, perform_pure]
  exact ⟨_, rfl⟩

/-- The table that supplies an offset covers it. -/
theorem exists_covering {hunk : Hunk} {tables rest : List LineTable} {t : LineTable}
    {line offset : UInt32} (hsplit : hunk.tableList = tables ++ t :: rest)
    (hoffset : t.offsetOf line = some offset) : (covering hunk offset).isSome = true := by
  obtain ⟨e, he, -, rfl⟩ := LineTable.exists_entry_of_offsetOf hoffset
  rw [Option.isSome_iff_ne_none, Ne, covering_eq_none_iff]
  intro hall
  exact UInt32.lt_irrefl e.offset (hall t (by simp [hsplit]) e he)

/-- It says the line itself if it has one entry there, and nothing in front of it says more. -/
theorem covering_eq {hunk : Hunk} {tables rest : List LineTable} {t : LineTable}
    {line offset : UInt32} (hsplit : hunk.tableList = tables ++ t :: rest)
    (hoffset : t.offsetOf line = some offset)
    (hone : t.entries.countP (·.offset = offset) = 1)
    (hbefore : ∀ u ∈ tables, ∀ e ∈ u.entries, e.offset < offset) :
    covering hunk offset = some (t, line) := by
  obtain ⟨e, he, rfl, rfl⟩ := LineTable.exists_entry_of_offsetOf hoffset
  exact covering_eq_some_iff.2
    ⟨tables, rest, hsplit, LineTable.findLine_of_countP he hone, hbefore⟩

/-- After a question for the address of a line, and before the next load, the address has a
location. It is that line of that file again if the table that supplies the address has one entry
there, and the tables in front of it end before. -/
theorem location_of_address {hunks : List Hunk} {config : PathConfig} {before later : List Turn}
    {files : FileSystem} {file : String} {line : UInt32} {a : Address}
    (ha : (((start hunks config).after before).ask ⟨files, .address file line⟩).1 =
      .address (some a))
    (hlater : ∀ t ∈ later, t.request.isQuestion = true) (files' : FileSystem) :
    let s := (start hunks config).after (before ++ ⟨files, .address file line⟩ :: later)
    ∃ hunk tables t rest loc, s.hunks[a.segment]? = some hunk ∧
      hunk.tableList = tables ++ t :: rest ∧ t.offsetOf line = some a.offset ∧
      s.Supplies files' file line tables t ∧
      (s.ask ⟨files', .locate a.segment a.offset⟩).1 = .location (some loc) ∧
      (t.entries.countP (·.offset = a.offset) = 1 →
        (∀ u ∈ tables, ∀ e ∈ u.entries, e.offset < a.offset) →
        loc.line = line ∧ Path.same loc.file (Path.normalize file) = true) := by
  intro s
  have hs : s = (((start hunks config).after before).ask ⟨files, .address file line⟩).2.after
      later := after_append _ before _
  generalize (start hunks config).after before = s₀ at ha hs
  rw [ask_of_map (address file line) rfl] at ha hs
  have hextends := after_extends hlater (perform files (address file line) s₀).2
  rw [← hs] at hextends
  obtain ⟨hunk, s₁, hget, hoffset⟩ := exists_hunk_of_address (Answer.address.inj ha)
  have hbehind : Extends (perform files (offsetOf (Path.normalize file) line hunk) s₁).2 s := by
    rwa [hoffset]
  obtain ⟨tables, t, rest, hsplit, hline, hsupplies⟩ :=
    exists_supplier files' (congrArg Prod.fst hoffset) hbehind
  have hget' : s.hunks[a.segment]? = some hunk := by
    have hasks := asks_inquiring.address file line
    rw [hextends.hunks_eq, (hasks.extends_perform files s₀).hunks_eq, hget]
  obtain ⟨⟨u, found⟩, hcovering⟩ := Option.isSome_iff_exists.1 (exists_covering hsplit hline)
  obtain ⟨text, hloc⟩ := perform_locate_of_covering files' hget' hcovering
  refine ⟨hunk, tables, t, rest, ⟨(perform files' (resolveName u.name) s).1, found, text⟩, hget',
    hsplit, hline, hsupplies, ?_, fun hone hbefore => ?_⟩
  · rw [ask_of_map (locate a.segment a.offset) rfl, hloc]
  · rw [covering_eq hsplit hline hone hbefore] at hcovering
    cases hcovering
    have hfor := hsupplies.isFor
    rw [Matches, perform_isFor] at hfor
    exact ⟨rfl, hfor⟩

/-- The file is gone when the location is asked for. -/
theorem location_of_second_line :
    (((start twoLines ⟨[], ["/work"], []⟩).after []).ask ⟨oneFile, .address "a.c" 8⟩).1 =
      .address (some ⟨0, 2⟩) ∧
    let s := (start twoLines ⟨[], ["/work"], []⟩).after ([] ++ ⟨oneFile, .address "a.c" 8⟩ ::
      [⟨Store.fileSystem [], .resolveName "b.c"⟩])
    ∃ t loc, s.Supplies (Store.fileSystem []) "a.c" 8 [] t ∧
      t.entries.countP (·.offset = 2) = 1 ∧
      (s.ask ⟨Store.fileSystem [], .locate 0 2⟩).1 = .location (some loc) ∧
      loc.line = 8 ∧ Path.same loc.file (Path.normalize "a.c") = true := by
  have ha : (((start twoLines ⟨[], ["/work"], []⟩).after []).ask
      ⟨oneFile, .address "a.c" 8⟩).1 = .address (some ⟨0, 2⟩) := by decide +kernel
  have hlater : ∀ t ∈ [Turn.mk (Store.fileSystem []) (.resolveName "b.c")],
      t.request.isQuestion = true := by
    intro t ht
    rw [List.mem_singleton.1 ht]
    rfl
  obtain ⟨hunk, tables, t, rest, loc, hget, hsplit, -, hsupplies, hloc, hback⟩ :=
    location_of_address ha hlater (Store.fileSystem [])
  have htables : ∀ h ∈ twoLines[0]?, h.tableList = [⟨"a.c", [⟨0, 7⟩, ⟨2, 8⟩]⟩] := by decide
  rw [htables hunk hget, List.singleton_eq_append_iff] at hsplit
  obtain ⟨rfl, ht⟩ | ⟨-, ht⟩ := hsplit
  · obtain ⟨rfl, -⟩ := List.cons.inj ht
    have hone : [LineEntry.mk 0 7, ⟨2, 8⟩].countP (·.offset = 2) = 1 := by decide
    exact ⟨ha, _, loc, hsupplies, hone, hloc, hback hone fun u hu => by cases hu⟩
  · cases ht

end Session
end AmigaHunk
