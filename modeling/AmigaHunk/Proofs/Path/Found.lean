import AmigaHunk.Proofs.Path.Calls
import AmigaHunk.Proofs.Path.Join
import AmigaHunk.Proofs.Session.Transparent

/-! From the path that was found to the path that is told. They are the same if that path is a text
without a backslash, for paths are found as they are spelled, and told as texts with slashes. -/
namespace AmigaHunk

namespace FileSystem
variable {fs : FileSystem}

/-- The paths that probes among the calls find, in their order. -/
def found (fs : FileSystem) (calls : List Call) : List HostText :=
  calls.filterMap fun
    | .probe path => if fs.has path then some path else none
    | .read _ => none

theorem found_probe (paths : List HostText) :
    fs.found (paths.map .probe) = paths.filter fs.has := by
  rw [found, List.filterMap_map, ← List.filterMap_eq_filter]
  rfl

theorem mem_of_mem_upToFirst {paths : List HostText} {path : HostText}
    (h : path ∈ fs.upToFirst paths) : path ∈ paths := by
  obtain h | h := List.mem_append.1 h
  · exact (List.takeWhile_sublist _).mem h
  · exact List.mem_of_find?_eq_some (Option.mem_toList.1 h)

theorem filter_upToFirst (paths : List HostText) :
    (fs.upToFirst paths).filter fs.has = (paths.find? fs.has).toList := by
  induction paths with
  | nil => rfl
  | cons path paths ih =>
    rw [upToFirst_cons]
    cases h : fs.has path with
    | true => simp [h]
    | false => simpa [h] using ih

end FileSystem

namespace PathConfig
variable {config : PathConfig} {fs : FileSystem} {name : String} {found : HostText}

theorem filter_probed : (config.probed fs name).filter fs.has = (config.first? fs name).toList ++
    if config.sourceRoots = [] then [] else ((config.behind fs name).find? fs.has).toList := by
  rw [probed, List.filter_append, FileSystem.filter_upToFirst, ← first?]
  split
  · rfl
  · rw [FileSystem.filter_upToFirst]

theorem getLast?_filter_probed : ((config.probed fs name).filter fs.has).getLast? =
    (if config.sourceRoots = [] then none else (config.behind fs name).find? fs.has).or
      (config.first? fs name) := by
  have hlast (o : Option HostText) : o.toList.getLast? = o := by cases o <;> rfl
  rw [filter_probed, List.getLast?_append, hlast]
  split
  · rfl
  · rw [hlast]

/-- The last path that is found is where the searches end. -/
theorem firstText_of_getLast?
    (h : ((config.probed fs name).filter fs.has).getLast? = some found) :
    fs.firstText (config.behind fs name) (config.left fs name) = found.text := by
  rw [getLast?_filter_probed] at h
  by_cases hroots : config.sourceRoots = []
  · rw [if_pos hroots, Option.none_or] at h
    rw [behind, hroots, FileSystem.firstText_cons, left_of_first? h]
    split <;> rfl
  · rw [if_neg hroots] at h
    obtain hbehind | ⟨hnone, hfirst⟩ := Option.or_eq_some_iff.1 h
    · rw [FileSystem.firstText, hbehind]
      rfl
    · rw [FileSystem.firstText, hnone, left_of_first? hfirst]
      rfl

theorem mem_probed (h : found ∈ config.probed fs name) :
    (∃ root ∈ config.workspaceRoots, found = root.joinUnder (config.replace name)) ∨
    found = .ofText (config.left fs name) ∨
    ∃ root ∈ config.sourceRoots, found = root.joinUnder (config.left fs name) := by
  rw [probed] at h
  obtain h | h := List.mem_append.1 h
  · obtain ⟨root, hroot, rfl⟩ := List.mem_map.1 (FileSystem.mem_of_mem_upToFirst h)
    exact .inl ⟨root, hroot, rfl⟩
  · split at h
    · cases h
    · obtain rfl | h := List.mem_cons.1 (FileSystem.mem_of_mem_upToFirst h)
      · exact .inr (.inl rfl)
      · obtain ⟨root, hroot, rfl⟩ := List.mem_map.1 h
        exact .inr (.inr ⟨root, hroot, rfl⟩)

/-- A text that is found under a workspace root is found again by the second search. -/
theorem first?_or_find?_behind (htext : ∀ first, config.first? fs name = some first → first.IsText)
    (h : found ∈ (config.probed fs name).filter fs.has) :
    (config.first? fs name).or ((config.behind fs name).find? fs.has) = some found := by
  rw [filter_probed] at h
  cases hfirst : config.first? fs name with
  | none =>
    rw [hfirst] at h
    split at h
    · cases h
    · exact Option.mem_toList.1 h
  | some first =>
    have hleft : HostText.ofText (config.left fs name) = first := by
      rw [left_of_first? hfirst]
      exact htext first hfirst
    have hbehind : (config.behind fs name).find? fs.has = some first := by
      rw [behind, hleft, List.find?_cons_of_pos (has_of_first? hfirst)]
    rw [hfirst, hbehind] at h
    obtain h | h := List.mem_append.1 h
    · exact Option.mem_toList.1 h
    · split at h
      · cases h
      · exact Option.mem_toList.1 h

/-- Under roots that are texts, only texts are probed. -/
theorem isText_of_mem_probed
    (hroots : ∀ root ∈ config.workspaceRoots ++ config.sourceRoots, root.IsText)
    (h : found ∈ config.probed fs name) : found.IsText := by
  obtain ⟨root, hroot, rfl⟩ | rfl | ⟨root, hroot, rfl⟩ := mem_probed h
  · exact (hroots root (List.mem_append_left _ hroot)).joinUnder _
  · exact HostText.isText_ofText _
  · exact (hroots root (List.mem_append_right _ hroot)).joinUnder _

/-- What is in a path that is found comes from roots or from the name, apart from the slashes
between. -/
theorem not_mem_of_mem_probed {c : Char} (hc : c ≠ '/') (hname : c ∉ (config.replace name).toList)
    (hroots : ∀ root ∈ config.workspaceRoots ++ config.sourceRoots, c ∉ root.text.toList)
    (h : found ∈ config.probed fs name) : c ∉ found.text.toList := by
  have hjoin {root : HostText} {path : String} (hpath : c ∉ path.toList)
      (hroot : root ∈ config.workspaceRoots ++ config.sourceRoots) :
      c ∉ (root.joinUnder path).text.toList := by
    intro hmem
    rw [HostText.text_joinUnder] at hmem
    obtain hslash | hin | hin := Path.mem_joinUnder hmem
    · exact hc hslash
    · exact hroots root hroot hin
    · exact hpath hin
  have hleft : c ∉ (config.left fs name).toList := by
    cases hfirst : config.first? fs name with
    | none => rwa [left_of_first?_none hfirst]
    | some first =>
      rw [left_of_first? hfirst]
      obtain ⟨root, hroot, rfl⟩ := List.mem_map.1 (List.mem_of_find?_eq_some hfirst)
      exact hjoin hname (List.mem_append_left _ hroot)
  obtain ⟨root, hroot, rfl⟩ | rfl | ⟨root, hroot, rfl⟩ := mem_probed h
  · exact hjoin hname (List.mem_append_left _ hroot)
  · rwa [HostText.text_ofText]
  · exact hjoin hleft (List.mem_append_right _ hroot)

end PathConfig

namespace TextCache

/-- The cache holds the lines of files as they are. -/
def Current (fs : FileSystem) (cache : TextCache) : Prop :=
  ∀ path found, cache.files.lookup path = some found → linesIn fs path = .ok found

theorem Current.value_lines {fs : FileSystem} {cache : TextCache} (h : cache.Current fs)
    (path : String) : (((lines path).run cache).run fs).value.1 = linesIn fs path := by
  cases hlookup : cache.files.lookup path with
  | some found => rw [run_lines_of_lookup hlookup, h path found hlookup]
  | none => rw [run_lines_of_not_lookup hlookup]

end TextCache

namespace Resolver
variable {fs : FileSystem} {r : Resolver} {name : String}

/-- If a probe finds something, the resolver tells the path that is found last, as a text with
slashes in place of backslashes. Under roots that are texts, nothing else is found, and the path is
a text. If it is one, and has no backslash, as it never has if there is none in the replaced name
and in the roots, it is told as it is; so it exists, and reading it is reading the file that was
found. -/
theorem resolve_found (h : r.resolved.lookup name = none) {path : HostText}
    (hprobe : .probe path ∈ (((resolve name).run r).run fs).calls) (hhas : fs.has path = true) :
    let trace := ((resolve name).run r).run fs
    ∃ found, (fs.found trace.calls).getLast? = some found ∧
      trace.value.1 = Path.normalize found.text ∧
      (HostText.ofText trace.value.1 = found ↔ found.IsText ∧ '\\' ∉ found.text.toList) ∧
      (found.IsText → '\\' ∉ found.text.toList → fs.has trace.value.1 = true ∧
        ∀ cache : TextCache, cache.Current fs →
          let reading := ((TextCache.lines trace.value.1).run cache).run fs
          reading.value.1 = TextCache.linesIn fs found.text ∧
            (cache.files.lookup trace.value.1 = none → reading.calls = [.read found])) ∧
      ((∀ root ∈ r.config.workspaceRoots ++ r.config.sourceRoots, root.IsText) →
        found.IsText ∧ ∀ other ∈ fs.found trace.calls, other = found) ∧
      ('\\' ∉ (r.config.replace name).toList →
        (∀ root ∈ r.config.workspaceRoots ++ r.config.sourceRoots, '\\' ∉ root.text.toList) →
          '\\' ∉ found.text.toList) := by
  intro trace
  have hfound : fs.found trace.calls = (r.config.probed fs name).filter fs.has := by
    rw [calls_resolve_of_not_lookup fs h, FileSystem.found_probe]
  have hmem : path ∈ fs.found trace.calls := by
    rw [calls_resolve_of_not_lookup fs h, List.mem_map] at hprobe
    obtain ⟨path', hpath, hcall⟩ := hprobe
    rw [Call.probe.inj hcall] at hpath
    rw [hfound]
    exact List.mem_filter.2 ⟨hpath, hhas⟩
  obtain ⟨found, hlast⟩ :=
    Option.isSome_iff_exists.1 (List.getLast?_isSome.2 (List.ne_nil_of_mem hmem))
  have hprobed : found ∈ (r.config.probed fs name).filter fs.has :=
    hfound ▸ List.mem_of_getLast? hlast
  obtain ⟨hprobed, hexists⟩ := List.mem_filter.1 hprobed
  have hvalue : trace.value.1 = Path.normalize found.text := by
    rw [value_resolve_of_not_lookup fs h, PathConfig.firstText_of_getLast? (hfound ▸ hlast)]
  have hsame : HostText.ofText trace.value.1 = found ↔
      found.IsText ∧ '\\' ∉ found.text.toList := by
    rw [hvalue, ← Path.normalize_eq_self_iff]
    constructor
    · intro heq
      have htext := congrArg HostText.text heq
      rw [HostText.text_ofText] at htext
      exact ⟨heq ▸ HostText.isText_ofText _, htext⟩
    · rintro ⟨htext, heq⟩
      rw [heq]
      exact htext
  refine ⟨found, hlast, hvalue, hsame, fun htext hfree => ?_, fun hroots => ?_,
    fun hname hroots => PathConfig.not_mem_of_mem_probed (by decide) hname hroots hprobed⟩
  · rw [hsame.2 ⟨htext, hfree⟩]
    refine ⟨hexists, fun cache hcurrent => ?_⟩
    have htold : trace.value.1 = found.text := by
      rw [hvalue, Path.normalize_eq_self_iff.2 hfree]
    rw [htold]
    refine ⟨hcurrent.value_lines found.text, fun hlookup => ?_⟩
    rw [TextCache.run_lines_of_not_lookup hlookup, htext]
  · refine ⟨PathConfig.isText_of_mem_probed hroots hprobed, fun other hother => ?_⟩
    have htext (first : HostText) (hfirst : r.config.first? fs name = some first) :
        first.IsText :=
      PathConfig.isText_of_first? (fun root hroot => hroots root (List.mem_append_left _ hroot))
        hfirst
    have hone := PathConfig.first?_or_find?_behind htext (hfound ▸ hother)
    exact Option.some.inj (hone.symm.trans
      (PathConfig.first?_or_find?_behind htext (List.mem_filter.2 ⟨hprobed, hexists⟩)))

/-- Sources that were on a drive of their own, and are in a directory now. -/
def moved : Resolver := .start ⟨[⟨"C:\\src\\", "src/"⟩], [.ofText "/work"], []⟩

/-- The directory that holds them. -/
def directory : FileSystem :=
  ⟨(· == .ofText "/work/src/a.c"), fun _ => .ok [0x61, 0x0A, 0x62]⟩

/-- A replacement takes the backslashes out of a name. -/
theorem resolve_found_moved :
    let trace := ((resolve "C:\\src\\a.c").run moved).run directory
    moved.resolved.lookup "C:\\src\\a.c" = none ∧ .probe "/work/src/a.c" ∈ trace.calls ∧
      directory.has "/work/src/a.c" = true ∧ trace.value.1 = "/work/src/a.c" ∧
      (((TextCache.lines trace.value.1).run .start).run directory).value.1 =
        .ok (Lines.split "a\nb") := by
  have hprobe : .probe "/work/src/a.c" ∈
      (((resolve "C:\\src\\a.c").run moved).run directory).calls := by decide +kernel
  have hhas : directory.has "/work/src/a.c" = true := by decide +kernel
  obtain ⟨found, hlast, hvalue, -, hread, -, -⟩ := resolve_found rfl hprobe hhas
  have hfound :
      (directory.found (((resolve "C:\\src\\a.c").run moved).run directory).calls).getLast? =
        some (.ofText "/work/src/a.c") := by decide +kernel
  obtain rfl := Option.some.inj (hfound.symm.trans hlast)
  rw [HostText.text_ofText] at hvalue hread
  have hlines := ((hread (HostText.isText_ofText _) (by decide)).2 .start fun _ _ h => by cases h).1
  exact ⟨rfl, hprobe, hhas, hvalue.trans (by decide +kernel), hlines.trans (by decide +kernel)⟩

/-- A file with a backslash in its name is found, and told by a name that no file has. -/
theorem not_has_resolve_backslash :
    let fs := Store.fileSystem [("/work/src\\main.s", some [0x78])]
    let r := start ⟨[], [.ofText "/work"], []⟩
    let trace := ((resolve "src\\main.s").run r).run fs
    r.resolved.lookup "src\\main.s" = none ∧ .probe "/work/src\\main.s" ∈ trace.calls ∧
      fs.has "/work/src\\main.s" = true ∧ trace.value.1 = "/work/src/main.s" ∧
      fs.has trace.value.1 = false := by
  decide +kernel

end Resolver
end AmigaHunk
