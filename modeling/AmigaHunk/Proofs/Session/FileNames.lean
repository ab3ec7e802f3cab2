import AmigaHunk.Proofs.Session.FileQueries

/-! The names a file can be asked for by: the one that the binary records, and the path that is told
for an address. Questions for segments and addresses only normalize the name, the one for symbols
looks for the file, and each of them misses the file if the name does not lead there. -/
namespace AmigaHunk.Session
variable {fs : FileSystem} {hunks : List Hunk} {config : PathConfig} {s : Session}

/-- Asked for by this name, the file has the segment, and every line of the table has an address in
the segment or in one before it. -/
structure Finds (fs : FileSystem) (s : Session) (name : String) (segment : Nat) (t : LineTable) :
    Prop where
  segment_mem : ∃ ids, (s.ask ⟨fs, .segments name⟩).1 = .segments ids ∧ segment ∈ ids
  address_le : ∀ e ∈ t.entries, ∃ a, (s.ask ⟨fs, .address name e.line⟩).1 = .address (some a) ∧
    a.segment ≤ segment

theorem finds_iff (hs : Alike fs (start hunks config) s) {name : String} {segment : Nat}
    {h : Hunk} (hget : hunks[segment]? = some h) {t : LineTable} : s.Finds fs name segment t ↔
      (∃ u ∈ h.tableList, config.isAt fs (Path.normalize name) u = true) ∧
      ∀ e ∈ t.entries, ∃ i h', i ≤ segment ∧ hunks[i]? = some h' ∧
        ∃ u ∈ h'.tableList, config.Records fs (Path.normalize name) e.line u := by
  simp only [← PathConfig.mem_segmentsAt_iff hget, ← PathConfig.exists_addressAt_le_iff]
  have hsegments : (s.ask ⟨fs, .segments name⟩).1 = _ := (tells_segments name).ask rfl hs
  have haddress (line : UInt32) : (s.ask ⟨fs, .address name line⟩).1 = _ :=
    (tells_address name line).ask rfl hs
  constructor
  · rintro ⟨⟨ids, hids, hmem⟩, hle⟩
    rw [hsegments] at hids
    cases hids
    refine ⟨hmem, fun e he => ?_⟩
    obtain ⟨a, ha, hsegment⟩ := hle e he
    rw [haddress] at ha
    exact ⟨a, Answer.address.inj ha, hsegment⟩
  · rintro ⟨hmem, hle⟩
    refine ⟨⟨_, hsegments, hmem⟩, fun e he => ?_⟩
    obtain ⟨a, ha, hsegment⟩ := hle e he
    exact ⟨a, by rw [haddress, ha], hsegment⟩

/-- By its recorded name a source is found as far as tables lie at that name itself. They do if the
source lies at the name, or at a path with the same last name that is not another absolute path. -/
theorem finds_recorded (hunks : List Hunk) (config : PathConfig) (fs : FileSystem)
    {requests : List Request} (hq : ∀ request ∈ requests, request.isQuestion = true)
    {segment : Nat} {h : Hunk} (hget : hunks[segment]? = some h) {t : LineTable}
    (ht : t ∈ h.tableList) :
    let s := (start hunks config).after (requests.map (Turn.mk fs))
    (s.Finds fs t.name segment t ↔
      (∃ u ∈ h.tableList, config.isAt fs (Path.normalize t.name) u = true) ∧
      ∀ e ∈ t.entries, ∃ i h', i ≤ segment ∧ hunks[i]? = some h' ∧
        ∃ u ∈ h'.tableList, config.Records fs (Path.normalize t.name) e.line u) ∧
    (config.place fs t.name = Path.normalize t.name ∨ config.Keeps fs t.name →
      s.Finds fs t.name segment t) := by
  intro s
  have hs : Alike fs (start hunks config) s := alike_start_after hunks config fs hq
  refine ⟨finds_iff hs hget, fun hkept => (finds_iff hs hget).2 ?_⟩
  have hsame : config.isAt fs (Path.normalize t.name) t = true := PathConfig.same_place hkept
  exact ⟨⟨t, ht, hsame⟩, fun e he => ⟨segment, h, le_rfl, hget, t, ht, hsame, e, he, rfl⟩⟩

/-- A load file of one hunk with a symbol and a line table, whose name takes five longwords. -/
def linedFile (name : List UInt32) : List UInt8 :=
  ([0x3F3, 0, 1, 0, 0, 1, 0x3E9, 1, 0x4E714E75, 0x3F0, 1, 0x6D61696E, 0, 0,
    0x3F1, 12, 0, 0x4C494E45, 5] ++ name ++ [7, 0, 8, 2, 0x3F2]).flatMap Word.bytes

def linedHunk (name : String) : Hunk :=
  ⟨0, .code, .any, 4, none, some [0x4E, 0x71, 0x4E, 0x75], some [⟨"main", 0⟩],
    some [⟨name, [⟨0, 7⟩, ⟨2, 8⟩]⟩]⟩

def replacedDrive : PathConfig := ⟨[⟨"C:\\dev\\", ""⟩], ["/project"], []⟩

/-- The replacement takes the directories of the name, and the workspace has the rest. -/
theorem finds_recorded_replacedDrive :
    let fs := Store.fileSystem [("/project/src/main.s", some [])]
    let h := linedHunk "C:\\dev\\src/main.s"
    let s := (start [h] replacedDrive).after ([Request.locate 0 2].map (Turn.mk fs))
    (∀ request ∈ [Request.locate 0 2], request.isQuestion = true) ∧ [h][0]? = some h ∧
    ∃ t ∈ h.tableList, t.name = "C:\\dev\\src/main.s" ∧ replacedDrive.Keeps fs t.name ∧
      s.Finds fs t.name 0 t := by
  intro fs h s
  have hq : ∀ request ∈ [Request.locate 0 2], request.isQuestion = true := by decide
  have hkeeps : replacedDrive.Keeps fs "C:\\dev\\src/main.s" :=
    ⟨by decide +kernel, by decide +kernel, by decide +kernel⟩
  exact ⟨hq, rfl, _, .head _, rfl, hkeeps,
    (finds_recorded [h] replacedDrive fs hq rfl (.head _)).2 (.inr hkeeps)⟩

/-- The workspace has a copy of an absolute path, so its name is another absolute path. -/
theorem not_finds_recorded_mirrored :
    let fs := Store.fileSystem [("/work/Users/me/src/a.s", some [0x78])]
    let h := linedHunk "/Users/me/src/a.s"
    let s := start [h] ⟨[], ["/work"], []⟩
    (File.decode (linedFile [0x2F557365, 0x72732F6D, 0x652F7372, 0x632F612E, 0x73000000])).result =
      .ok [h] ∧
    (s.ask ⟨fs, .segments "/Users/me/src/a.s"⟩).1 = .segments [] ∧
    (s.ask ⟨fs, .address "/Users/me/src/a.s" 7⟩).1 = .address none ∧
    ∃ t ∈ h.tableList, t.name = "/Users/me/src/a.s" ∧ ¬s.Finds fs t.name 0 t := by
  intro fs h s
  have hsegments : (s.ask ⟨fs, .segments "/Users/me/src/a.s"⟩).1 = .segments [] := by
    decide +kernel
  refine ⟨by decide +kernel, hsegments, by decide +kernel, _, .head _, rfl, fun hfinds => ?_⟩
  obtain ⟨ids, hids, hmem⟩ := hfinds.segment_mem
  cases hsegments.symm.trans hids
  cases hmem

/-- Asked for by this name, the file has all symbols of the hunk. -/
def Lists (fs : FileSystem) (s : Session) (name : String) (segment : Nat) (h : Hunk) : Prop :=
  ∃ found, (s.ask ⟨fs, .symbols (some name)⟩).1 = .symbols found ∧
    ∀ symbol ∈ h.symbolList, ⟨symbol, segment⟩ ∈ found

theorem lists_iff (hs : Alike fs (start hunks config) s)
    (hid : ∀ (i : Nat) (h : Hunk), hunks[i]? = some h → h.id = i) {name : String} {segment : Nat}
    {h : Hunk} (hget : hunks[segment]? = some h) : s.Lists fs name segment h ↔
      h.symbolList = [] ∨ ∃ t ∈ h.tableList, config.isAt fs (config.place fs name) t = true := by
  have hsymbols := ask_symbols_some hs hid name
  rw [← PathConfig.mem_segmentsAt_iff hget]
  constructor
  · rintro ⟨found, hfound, hall⟩
    rw [hsymbols] at hfound
    cases hfound
    by_cases hnil : h.symbolList = []
    · exact .inl hnil
    · obtain ⟨symbol, hmem⟩ := List.exists_mem_of_ne_nil _ hnil
      exact .inr (of_decide_eq_true (List.mem_filter.1 (hall symbol hmem)).2)
  · intro hor
    refine ⟨_, hsymbols, fun symbol hmem => List.mem_filter.2 ⟨mem_allSymbols hget hmem, ?_⟩⟩
    obtain hnil | hin := hor
    · rw [hnil] at hmem
      cases hmem
    · exact decide_eq_true hin

/-- A location is told from a table of the hunk, and its file is where the table lies. -/
theorem exists_table_of_told (hs : Alike fs (start hunks config) s) {segment : Nat}
    {offset : UInt32} {loc : Location}
    (hloc : (s.ask ⟨fs, .locate segment offset⟩).1 = .location (some loc)) :
    ∃ h t, hunks[segment]? = some h ∧ t ∈ h.tableList ∧ config.place fs t.name = loc.file := by
  have hnext : Alike fs (start hunks config) (s.ask ⟨fs, .locate segment offset⟩).2 := hs.ask rfl
  rw [ask_of_map (locate segment offset) rfl] at hloc hnext
  obtain ⟨h, t, hget, ht, -, hname⟩ := exists_table_of_locate (Answer.location.inj hloc)
  have hplace := hnext.right.paths hname
  rw [← hnext.config_eq] at hplace
  rw [← hs.hunks_eq] at hget
  exact ⟨h, t, hget, ht, hplace⟩

/-- By the file told for an address the symbols of its hunk are found as far as tables of the hunk
lie where the file is found in turn. They do if it is found at itself, or at a path with the same
last name that is not another absolute path. -/
theorem lists_told_file {bytes : List UInt8} (hdecode : (File.decode bytes).result = .ok hunks)
    (config : PathConfig) (fs : FileSystem) {before later : List Request}
    (hq : ∀ request ∈ before ++ later, request.isQuestion = true) {segment : Nat} {offset : UInt32}
    {loc : Location}
    (hloc : (((start hunks config).after (before.map (Turn.mk fs))).ask
      ⟨fs, .locate segment offset⟩).1 = .location (some loc)) :
    let s := (start hunks config).after
      ((before ++ .locate segment offset :: later).map (Turn.mk fs))
    ∃ h, hunks[segment]? = some h ∧
      (s.Lists fs loc.file segment h ↔ h.symbolList = [] ∨
        ∃ t ∈ h.tableList, config.isAt fs (config.place fs loc.file) t = true) ∧
      (config.place fs loc.file = loc.file ∨ config.Keeps fs loc.file →
        s.Lists fs loc.file segment h) := by
  intro s
  have hbefore := alike_start_after hunks config fs fun request hmem =>
    hq request (List.mem_append_left later hmem)
  have hs : Alike fs (start hunks config) s := by
    refine alike_start_after hunks config fs fun request hmem => ?_
    obtain hmem | rfl | hmem := by simpa using hmem
    · exact hq request (List.mem_append_left later hmem)
    · rfl
    · exact hq request (List.mem_append_right before hmem)
  obtain ⟨h, t, hget, ht, hplace⟩ := exists_table_of_told hbefore hloc
  have hnormal : Path.normalize loc.file = loc.file := by
    rw [← hplace, PathConfig.normalize_place]
  have hiff : s.Lists fs loc.file segment h ↔ _ :=
    lists_iff hs (fun i h => File.id_of_decode hdecode) hget
  refine ⟨h, hget, hiff, fun hkept => hiff.2 (.inr ⟨t, ht, ?_⟩)⟩
  -- The table lies at the file told, so the file and its own place are compared.
  have hsame := PathConfig.same_place (hkept.imp_left (·.trans hnormal.symm))
  rw [hnormal] at hsame
  rwa [PathConfig.isAt, hplace, Path.same_comm]

/-- The file lies in the workspace, and the replacement does not apply to its path there. -/
theorem lists_told_replacedDrive :
    let fs := Store.fileSystem [("/project/src/main.s", some [])]
    let bytes := linedFile [0x433A5C64, 0x65765C73, 0x72632F6D, 0x61696E2E, 0x73000000]
    let h := linedHunk "C:\\dev\\src/main.s"
    let loc : Location := ⟨"/project/src/main.s", 8, none⟩
    let s := (start [h] replacedDrive).after
      (([] ++ Request.locate 0 2 :: [.address loc.file 7]).map (Turn.mk fs))
    (File.decode bytes).result = .ok [h] ∧
    (∀ request ∈ [] ++ [Request.address loc.file 7], request.isQuestion = true) ∧
    (((start [h] replacedDrive).after ([].map (Turn.mk fs))).ask ⟨fs, .locate 0 2⟩).1 =
      .location (some loc) ∧
    replacedDrive.place fs loc.file = loc.file ∧ h.symbolList = [⟨"main", 0⟩] ∧
    s.Lists fs loc.file 0 h := by
  intro fs bytes h loc s
  have hdecode : (File.decode bytes).result = .ok [h] := by decide +kernel
  have hq : ∀ request ∈ [] ++ [Request.address loc.file 7], request.isQuestion = true := by decide
  have hloc : (((start [h] replacedDrive).after ([].map (Turn.mk fs))).ask
      ⟨fs, .locate 0 2⟩).1 = .location (some loc) := by decide +kernel
  have hplace : replacedDrive.place fs loc.file = loc.file := by decide +kernel
  obtain ⟨h', hget, -, hlists⟩ := lists_told_file hdecode replacedDrive fs hq hloc
  cases hget
  exact ⟨hdecode, hq, hloc, hplace, rfl, hlists (.inl hplace)⟩

/-- The replacement applies to its own text. -/
theorem not_lists_told_nested :
    let fs := Store.fileSystem []
    let config : PathConfig := ⟨[⟨"/Users", "/mnt/Users"⟩], [], []⟩
    let h := linedHunk "/Users/me/src/a.s"
    let told := (start [h] config).ask ⟨fs, .locate 0 0⟩
    (File.decode (linedFile [0x2F557365, 0x72732F6D, 0x652F7372, 0x632F612E, 0x73000000])).result =
      .ok [h] ∧
    told.1 = .location (some ⟨"/mnt/Users/me/src/a.s", 7, none⟩) ∧
    (told.2.ask ⟨fs, .symbols (some "/mnt/Users/me/src/a.s")⟩).1 = .symbols [] ∧
    h.symbolList = [⟨"main", 0⟩] ∧ ¬told.2.Lists fs "/mnt/Users/me/src/a.s" 0 h := by
  intro fs config h told
  have hsymbols : (told.2.ask ⟨fs, .symbols (some "/mnt/Users/me/src/a.s")⟩).1 = .symbols [] := by
    decide +kernel
  refine ⟨by decide +kernel, by decide +kernel, hsymbols, rfl, fun hlists => ?_⟩
  obtain ⟨found, hfound, hall⟩ := hlists
  cases hsymbols.symm.trans hfound
  cases hall ⟨"main", 0⟩ (.head _)

end AmigaHunk.Session
