import AmigaHunk.Proofs.Path.Place
import AmigaHunk.Proofs.Path.Probes
import AmigaHunk.Proofs.Session.Perform

/-! Which paths are probed on the way from a recorded name to its place, and in which order. -/
namespace AmigaHunk

/-- The paths up to the first that exists, or all of them. -/
def FileSystem.upToFirst (fs : FileSystem) (paths : List HostText) : List HostText :=
  paths.takeWhile (!fs.has ·) ++ (paths.find? fs.has).toList

theorem FileSystem.upToFirst_cons (fs : FileSystem) (path : HostText) (paths : List HostText) :
    fs.upToFirst (path :: paths) = path :: if fs.has path then [] else fs.upToFirst paths := by
  cases h : fs.has path <;> simp [upToFirst, h]

theorem Query.calls_firstExisting (fs : FileSystem) (paths : List HostText) :
    ((firstExisting paths).run fs).calls = (fs.upToFirst paths).map .probe := by
  induction paths with
  | nil => rfl
  | cons path paths ih =>
    change .probe path :: ((if fs.has path then done (some path)
      else firstExisting paths).run fs).calls = _
    rw [FileSystem.upToFirst_cons]
    cases fs.has path with
    | true => rfl
    | false => exact congrArg _ ih

namespace PathConfig
variable {config : PathConfig} {fs : FileSystem} {name : String}

theorem calls_locate (roots : List HostText) (path : String) :
    ((locate roots path).run fs).calls =
      (fs.upToFirst (roots.map (·.joinUnder path))).map .probe := by
  rw [locate, Query.calls_bind, Query.calls_firstExisting]
  exact List.append_nil _

/-- The paths that are probed for a name. Without source roots nobody asks whether what the
workspace roots leave exists. -/
def probed (config : PathConfig) (fs : FileSystem) (name : String) : List HostText :=
  fs.upToFirst (config.workspaceRoots.map (·.joinUnder (config.replace name))) ++
    if config.sourceRoots = [] then [] else fs.upToFirst (config.behind fs name)

theorem calls_resolve (config : PathConfig) (name : String) :
    ((config.resolve name).run fs).calls = (config.probed fs name).map .probe := by
  rw [resolve, Query.calls_bind, calls_locate, value_locate, ← left, probed, List.map_append]
  congr 1
  by_cases hroots : config.sourceRoots = []
  · rw [if_pos hroots, if_pos (List.isEmpty_iff.2 hroots)]
    rfl
  · rw [if_neg hroots, if_neg (mt List.isEmpty_iff.1 hroots), Query.calls_bind, behind,
      FileSystem.upToFirst_cons]
    change .probe (config.left fs name : HostText) ::
      ((if fs.has (config.left fs name) then _ else _ : Query String).run fs).calls = _
    cases h : fs.has (config.left fs name) with
    | true => rfl
    | false =>
      rw [if_neg Bool.false_ne_true, if_neg Bool.false_ne_true, Query.calls_bind, calls_locate,
        List.map_cons]
      exact congrArg _ (List.append_nil _)

theorem left_of_first? {found : HostText} (h : config.first? fs name = some found) :
    config.left fs name = found.text := by
  rw [left, FileSystem.firstText, ← first?, h]
  rfl

theorem left_of_first?_none (h : config.first? fs name = none) :
    config.left fs name = config.replace name := by
  rw [left, FileSystem.firstText, ← first?, h]
  rfl

theorem has_of_first? {found : HostText} (h : config.first? fs name = some found) :
    fs.has found = true :=
  List.find?_some h

/-- What is found under texts is a text. -/
theorem isText_of_first? (hroots : ∀ root ∈ config.workspaceRoots, root.IsText) {found : HostText}
    (h : config.first? fs name = some found) : found.IsText := by
  obtain ⟨root, hroot, rfl⟩ := List.mem_map.1 (List.mem_of_find?_eq_some h)
  exact (hroots root hroot).joinUnder _

end PathConfig

namespace Resolver
variable {r : Resolver} {name : String}

theorem calls_resolve_of_not_lookup (fs : FileSystem) (h : r.resolved.lookup name = none) :
    (((resolve name).run r).run fs).calls = (r.config.probed fs name).map .probe := by
  rw [run_resolve_of_not_lookup h, Query.calls_bind, r.config.calls_resolve]
  exact List.append_nil _

theorem value_resolve_of_not_lookup (fs : FileSystem) (h : r.resolved.lookup name = none) :
    (((resolve name).run r).run fs).value.1 =
      Path.normalize (fs.firstText (r.config.behind fs name) (r.config.left fs name)) := by
  rw [run_resolve_of_not_lookup h, Query.run_bind]
  exact r.config.place_eq fs name

/-- A file under a workspace root that is no text, and none under the text of that path. The second
search is for that text, and it finds another file. -/
example :
    let root : HostText := ⟨[0x2F, 0x77, 0xFF]⟩
    let fs : FileSystem :=
      ⟨fun path => path == ⟨root.bytes ++ [0x2F, 0x61]⟩ || path == .ofText "/s/w\uFFFD/a",
        fun _ => .error "no such file"⟩
    let trace := ((resolve "a").run (start ⟨[], [root], [.ofText "/s"]⟩)).run fs
    trace.value.1 = "/s/w\uFFFD/a" ∧
      trace.calls = [.probe ⟨root.bytes ++ [0x2F, 0x61]⟩, .probe "/w\uFFFD/a",
        .probe "/s/w\uFFFD/a"] := by
  decide +kernel

end Resolver
end AmigaHunk
