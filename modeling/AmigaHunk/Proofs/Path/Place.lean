import AmigaHunk.Path.Resolver
import AmigaHunk.Proofs.Path.Names

/-! Where a recorded source lies: at the first of its candidates that exists. -/
namespace AmigaHunk

/-- The text of the first path that exists, or else the text as it is. -/
def FileSystem.firstText (fs : FileSystem) (paths : List HostText) (path : String) : String :=
  ((paths.find? fs.has).map (·.text)).getD path

/-- A path that exists comes before those behind it. -/
theorem FileSystem.firstText_cons (fs : FileSystem) (path : String) (paths : List HostText) :
    fs.firstText (path :: paths) path =
      if fs.has path then path else fs.firstText paths path := by
  rw [firstText, firstText]
  cases h : fs.has path with
  | true =>
    rw [List.find?_cons_of_pos h, Option.map_some, Option.getD_some, HostText.text_ofText]
    rfl
  | false =>
    rw [List.find?_cons_of_neg (by simp [h])]
    rfl

theorem Query.value_firstExisting (fs : FileSystem) (paths : List HostText) :
    ((firstExisting paths).run fs).value = paths.find? fs.has := by
  induction paths with
  | nil => rfl
  | cons path paths ih =>
    change ((if fs.has path then done (some path) else firstExisting paths).run fs).value = _
    cases h : fs.has path with
    | true => rw [List.find?_cons_of_pos h]; rfl
    | false => rw [List.find?_cons_of_neg (by simp [h])]; exact ih

namespace PathConfig

/-- The path that a new session finds for a name. -/
def place (config : PathConfig) (fs : FileSystem) (name : String) : String :=
  ((config.resolve name).run fs).value

/-- The first path under a workspace root that exists. -/
def first? (config : PathConfig) (fs : FileSystem) (name : String) : Option HostText :=
  (config.workspaceRoots.map (·.joinUnder (config.replace name))).find? fs.has

/-- What the search under the workspace roots leaves: the text of the path that it finds, or else
the replaced name. -/
def left (config : PathConfig) (fs : FileSystem) (name : String) : String :=
  fs.firstText (config.workspaceRoots.map (·.joinUnder (config.replace name)))
    (config.replace name)

/-- The paths that the second search looks at: the one that is left, and that under the source
roots. -/
def behind (config : PathConfig) (fs : FileSystem) (name : String) : List HostText :=
  config.left fs name :: config.sourceRoots.map (·.joinUnder (config.left fs name))

theorem value_locate (fs : FileSystem) (roots : List HostText) (path : String) :
    ((locate roots path).run fs).value =
      fs.firstText (roots.map (·.joinUnder path)) path := by
  rw [locate, Query.run_bind, Trace.after, Query.value_firstExisting]
  rfl

/-- The second search is for the path that the first one leaves. -/
theorem place_eq (config : PathConfig) (fs : FileSystem) (name : String) : config.place fs name =
    Path.normalize (fs.firstText (config.behind fs name) (config.left fs name)) := by
  rw [behind, FileSystem.firstText_cons, place, resolve, Query.run_bind, Trace.after, value_locate,
    ← left]
  by_cases hroots : config.sourceRoots.isEmpty = true
  · rw [if_pos hroots, List.isEmpty_iff.1 hroots]
    split <;> rfl
  · rw [if_neg hroots]
    change ((if fs.has (config.left fs name) then pure (Path.normalize (config.left fs name)) else
      locate config.sourceRoots (config.left fs name) >>= fun p => pure (Path.normalize p) :
        Query String).run fs).value = _
    split
    · rfl
    · rw [Query.run_bind, Trace.after, value_locate]
      rfl

theorem exists_names_firstText (fs : FileSystem) (roots : List HostText) (path : String) :
    ∃ names, Path.names (Path.normalize (fs.firstText (roots.map (·.joinUnder path)) path)) =
      names ++ Path.names (Path.normalize path) := by
  rw [FileSystem.firstText]
  cases hfind : (roots.map (·.joinUnder path)).find? fs.has with
  | none =>
    rw [Option.map_none, Option.getD_none]
    exact ⟨[], (List.nil_append _).symm⟩
  | some found =>
    obtain ⟨root, -, rfl⟩ := List.mem_map.1 (List.mem_of_find?_eq_some hfind)
    rw [Option.map_some, Option.getD_some, HostText.text_joinUnder]
    exact ⟨_, Path.names_normalize_joinUnder root.text path⟩

/-- The names of a place are those of the name as the replacements leave it, perhaps behind those of
roots. -/
theorem exists_names_place (config : PathConfig) (fs : FileSystem) (name : String) :
    ∃ root, Path.names (config.place fs name) =
      root ++ Path.names (Path.normalize (config.replace name)) := by
  obtain ⟨front, hfront⟩ :=
    exists_names_firstText fs config.workspaceRoots (config.replace name)
  obtain ⟨more, hmore⟩ := exists_names_firstText fs config.sourceRoots (config.left fs name)
  rw [place_eq, behind, FileSystem.firstText_cons]
  split
  · exact ⟨front, hfront⟩
  · exact ⟨more ++ front, by rw [hmore, left, hfront, List.append_assoc]⟩

theorem lastName?_place {config : PathConfig} {name : String}
    (h : Path.names (Path.normalize (config.replace name)) ≠ []) (fs : FileSystem) :
    Path.lastName? (config.place fs name) =
      Path.lastName? (Path.normalize (config.replace name)) := by
  obtain ⟨root, hroot⟩ := config.exists_names_place fs name
  rw [Path.lastName?_eq, Path.lastName?_eq, hroot, List.getLast?_append, Option.or_of_isSome]
  exact List.getLast?_isSome.2 h

/-- The replacements leave the last name of a source, and it does not lie at another absolute path
than the one it is named by. -/
structure Keeps (config : PathConfig) (fs : FileSystem) (name : String) : Prop where
  names_ne_nil : Path.names (Path.normalize (config.replace name)) ≠ []
  lastName_eq : Path.lastName? (Path.normalize (config.replace name)) =
    Path.lastName? (Path.normalize name)
  place_eq : Path.isAbsolute (config.place fs name) = true →
    Path.isAbsolute (Path.normalize name) = true → config.place fs name = Path.normalize name

theorem Keeps.same_place {config : PathConfig} {fs : FileSystem} {name : String}
    (h : config.Keeps fs name) :
    Path.same (config.place fs name) (Path.normalize name) = true := by
  refine Path.same_of_lastName? ?_ h.place_eq
  rw [lastName?_place h.names_ne_nil, h.lastName_eq]

theorem same_place {config : PathConfig} {fs : FileSystem} {name : String}
    (h : config.place fs name = Path.normalize name ∨ config.Keeps fs name) :
    Path.same (config.place fs name) (Path.normalize name) = true := by
  obtain hsame | hkeeps := h
  · rw [hsame, Path.same_self]
  · exact hkeeps.same_place

theorem normalize_place (config : PathConfig) (fs : FileSystem) (name : String) :
    Path.normalize (config.place fs name) = config.place fs name := by
  rw [place_eq, Path.normalize_normalize]

end PathConfig
end AmigaHunk
