import AmigaHunk.Proofs.Session.Attribution

/-! Questions about files agree with each other. They go over hunks and tables in ways of their own,
and two of them look for the file they are asked about while two only normalize its name. -/
namespace AmigaHunk

namespace File
variable {bytes : List UInt8} {hs : List Hunk}

theorem id_of_decode (h : (decode bytes).result = .ok hs) {i : Nat} {hunk : Hunk}
    (hget : hs[i]? = some hunk) : hunk.id = i := by
  obtain ⟨opening, blocks, -, -, rfl⟩ := file_of_decode h
  rw [hunks, List.getElem?_mapIdx] at hget
  obtain ⟨s, -, rfl⟩ := Option.map_eq_some_iff.1 hget
  rfl

theorem sorted_of_decode (h : (decode bytes).result = .ok hs) :
    ∀ hunk ∈ hs, ∀ t ∈ hunk.tableList, t.entries.Pairwise (·.offset ≤ ·.offset) := by
  intro hunk hmem t ht
  obtain ⟨opening, blocks, isOpen, hfile, rfl⟩ := file_of_decode h
  obtain ⟨i, hi⟩ := List.mem_iff_getElem?.1 hmem
  rw [hunks, List.getElem?_mapIdx] at hi
  obtain ⟨s, hs, rfl⟩ := Option.map_eq_some_iff.1 hi
  cases hfile with
  | mk hopening hblocks =>
    have hsection := Section.wellFormed_ofBlocks (fun _ hn => by cases hn) hblocks.wellFormed s
      (List.mem_of_getElem? hs)
    rw [Hunk.tableList, Section.toHunk, Section.getD_nonempty?] at ht
    exact (hsection.tables_wellFormed t ht).sorted

end File

namespace Session
variable {fs : FileSystem} {hunks : List Hunk} {config : PathConfig}

/-- All symbols, each with the place of its hunk. -/
def allSymbols (hunks : List Hunk) : List SegmentSymbol :=
  hunks.zipIdx.flatMap fun p => p.1.symbolList.map (⟨·, p.2⟩)

theorem mem_allSymbols {segment : Nat} {h : Hunk} (hget : hunks[segment]? = some h)
    {symbol : Symbol} (hmem : symbol ∈ h.symbolList) : ⟨symbol, segment⟩ ∈ allSymbols hunks :=
  List.mem_flatMap.2 ⟨(h, segment), List.mem_zipIdx_iff_getElem?.2 hget, List.mem_map_of_mem hmem⟩

theorem flatMap_symbolsIn (hid : ∀ (i : Nat) (h : Hunk), hunks[i]? = some h → h.id = i) :
    hunks.flatMap symbolsIn = allSymbols hunks := by
  have hfst : hunks = hunks.zipIdx.map Prod.fst := by simp
  conv_lhs => rw [hfst, List.flatMap_map]
  refine List.flatMap_congr fun p hp => ?_
  rw [symbolsIn, hid p.2 p.1 (List.mem_zipIdx_iff_getElem?.1 hp)]

/-- The hunks with a table for the file are those whose numbers are among its segments. -/
theorem flatMap_symbolsIn_filter_isAt
    (hid : ∀ (i : Nat) (h : Hunk), hunks[i]? = some h → h.id = i) (wanted : String) :
    (hunks.filter (·.tableList.any (config.isAt fs wanted))).flatMap symbolsIn =
      (allSymbols hunks).filter (·.segment ∈ config.segmentsAt fs wanted hunks) := by
  rw [← flatMap_symbolsIn hid]
  refine (filter_flatMap_of_forall fun h hmem symbol hsymbol => ?_).symm
  obtain ⟨i, hget⟩ := List.mem_iff_getElem?.1 hmem
  obtain ⟨recorded, -, rfl⟩ := List.mem_map.1 hsymbol
  rw [hid i h hget, Bool.eq_iff_iff, decide_eq_true_iff, PathConfig.mem_segmentsAt_iff hget,
    List.any_eq_true]

/-- The symbols of a file are those of the segments that belong to its place. -/
theorem ask_symbols_some {s : Session} (hs : Alike fs (start hunks config) s)
    (hid : ∀ (i : Nat) (h : Hunk), hunks[i]? = some h → h.id = i) (name : String) :
    (s.ask ⟨fs, .symbols (some name)⟩).1 = .symbols ((allSymbols hunks).filter
      (·.segment ∈ config.segmentsAt fs (config.place fs name) hunks)) := by
  rw [(tells_symbols (some name)).ask rfl hs, ← flatMap_symbolsIn_filter_isAt hid]
  simp

/-- While no file changes, the answers to questions about files agree with each other, in every
session about a decoded file. -/
theorem file_queries_agree {bytes : List UInt8} (hdecode : (File.decode bytes).result = .ok hunks)
    (config : PathConfig) (fs : FileSystem) {requests : List Request}
    (hq : ∀ request ∈ requests, request.isQuestion = true) :
    let s := (start hunks config).after (requests.map (Turn.mk fs))
    (s.ask ⟨fs, .symbols none⟩).1 = .symbols (allSymbols hunks) ∧
    (∀ name, (s.ask ⟨fs, .resolveName name⟩).1 = .name (config.place fs name)) ∧
    ∀ file, ∃ ids, (s.ask ⟨fs, .segments file⟩).1 = .segments ids ∧
      (config.place fs file = Path.normalize file →
        (s.ask ⟨fs, .symbols (some file)⟩).1 =
          .symbols ((allSymbols hunks).filter (·.segment ∈ ids))) ∧
      ids.Pairwise (· ≤ ·) ∧
      (∀ i, ids.count i =
        (hunks[i]?.map (·.tableList.countP (config.isAt fs (Path.normalize file)))).getD 0) ∧
      ∀ line,
        ((∀ h ∈ hunks, ∀ t ∈ h.tableList, ¬config.Records fs (Path.normalize file) line t) →
          (s.ask ⟨fs, .address file line⟩).1 = .address none) ∧
        ((∃ h ∈ hunks, ∃ t ∈ h.tableList, config.Records fs (Path.normalize file) line t) →
          ∃ a, (s.ask ⟨fs, .address file line⟩).1 = .address (some a) ∧ a.segment ∈ ids ∧
            config.IsFirstAddress fs (Path.normalize file) line hunks a) := by
  intro s
  have hs : Alike fs (start hunks config) s := alike_start_after hunks config fs hq
  have hid : ∀ (i : Nat) (h : Hunk), hunks[i]? = some h → h.id = i :=
    fun i h => File.id_of_decode hdecode
  refine ⟨?_, fun name => (Tells.resolveName name).ask rfl hs, fun file =>
    ⟨_, (tells_segments file).ask rfl hs, fun hplace => ?_, PathConfig.pairwise_segmentsAt,
      PathConfig.count_segmentsAt, fun line => ⟨fun hnone => ?_, fun hsome => ?_⟩⟩⟩
  · rw [(tells_symbols none).ask rfl hs, ← flatMap_symbolsIn hid]
    simp
  · rw [ask_symbols_some hs hid, hplace]
  · have hmiss : ¬(config.addressAt fs (Path.normalize file) line hunks).isSome = true := by
      rw [PathConfig.isSome_addressAt_iff]
      rintro ⟨h, hmem, t, ht, hrecords⟩
      exact hnone h hmem t ht hrecords
    rw [(tells_address file line).ask rfl hs, Option.not_isSome_iff_eq_none.1 hmiss]
  · obtain ⟨a, ha⟩ := Option.isSome_iff_exists.1 (PathConfig.isSome_addressAt_iff.2 hsome)
    have hfirst := PathConfig.isFirstAddress_of_addressAt (File.sorted_of_decode hdecode) ha
    refine ⟨a, ?_, ?_, hfirst⟩
    · rw [(tells_address file line).ask rfl hs, ha]
    · obtain ⟨h, t, hget, ht⟩ := hfirst.offset
      obtain ⟨front, rest, hsplit, -⟩ := ht.first
      exact PathConfig.mem_segmentsAt.2 ⟨h, hget, t, by simp [hsplit], ht.records.1⟩

/-- A hunk without a table, and one with two tables of one file, which record different lines. -/
def twiceListed : List UInt8 :=
  [0x3E7, 0, 0x3EB, 1, 0x3F0, 1, 0x62756600, 0, 0, 0x3F2,
    0x3E9, 1, 0x4E714E75, 0x3F0, 1, 0x6D61696E, 0, 0, 0x3F1, 8, 0, 0x4C494E45, 1, 0x612E6300,
    7, 0, 8, 2, 0x3F1, 6, 0, 0x4C494E45, 1, 0x612E6300, 9, 2, 0x3F2].flatMap Word.bytes

def twiceListedHunks : List Hunk :=
  [⟨0, .bss, .any, 4, none, none, some [⟨"buf", 0⟩], none⟩,
    ⟨1, .code, .any, 4, none, some [0x4E, 0x71, 0x4E, 0x75], some [⟨"main", 0⟩],
      some [⟨"a.c", [⟨0, 7⟩, ⟨2, 8⟩]⟩, ⟨"a.c", [⟨2, 9⟩]⟩]⟩]

/-- The source is asked for by the path at which it lies, after a question for its name. -/
theorem file_queries_twiceListed :
    (File.decode twiceListed).result = .ok twiceListedHunks ∧
    (∀ request ∈ [Request.locate 1 2], request.isQuestion = true) ∧
    let config : PathConfig := ⟨[], ["/work"], []⟩
    let s := (start twiceListedHunks config).after ([Request.locate 1 2].map (Turn.mk oneFile))
    config.place oneFile "/work/a.c" = Path.normalize "/work/a.c" ∧
    ∃ ids a, (s.ask ⟨oneFile, .segments "/work/a.c"⟩).1 = .segments ids ∧ ids.count 1 = 2 ∧
      (s.ask ⟨oneFile, .symbols (some "/work/a.c")⟩).1 =
        .symbols ((allSymbols twiceListedHunks).filter (·.segment ∈ ids)) ∧
      (s.ask ⟨oneFile, .address "/work/a.c" 9⟩).1 = .address (some a) ∧ a.segment ∈ ids ∧
      config.IsFirstAddress oneFile (Path.normalize "/work/a.c") 9 twiceListedHunks a := by
  have hdecode : (File.decode twiceListed).result = .ok twiceListedHunks := by decide +kernel
  have hq : ∀ request ∈ [Request.locate 1 2], request.isQuestion = true := by decide
  have hplace : PathConfig.place ⟨[], ["/work"], []⟩ oneFile "/work/a.c" =
      Path.normalize "/work/a.c" := by decide +kernel
  have hat : PathConfig.isAt ⟨[], ["/work"], []⟩ oneFile (Path.normalize "/work/a.c")
      ⟨"a.c", [⟨2, 9⟩]⟩ = true := by decide +kernel
  obtain ⟨-, -, hfile⟩ := file_queries_agree hdecode ⟨[], ["/work"], []⟩ oneFile hq
  obtain ⟨ids, hids, hsymbols, -, hcount, hline⟩ := hfile "/work/a.c"
  obtain ⟨a, ha, hmem, hfirst⟩ := (hline 9).2 ⟨_, .tail _ (.head _), _, .tail _ (.head _), hat,
    ⟨2, 9⟩, .head _, rfl⟩
  refine ⟨hdecode, hq, hplace, ids, a, hids, ?_, hsymbols hplace, ha, hmem, hfirst⟩
  rw [hcount 1]
  decide +kernel

end Session
end AmigaHunk
