import AmigaHunk.Host.Query
import AmigaHunk.Path.Replacement

/-! From the names of sources that a binary records to the paths where they lie now. -/
namespace AmigaHunk

/-- How to look for sources. In each list the first that fits decides. -/
structure PathConfig where
  replacements : List Replacement
  workspaceRoots : List HostText
  sourceRoots : List HostText
  deriving DecidableEq, Repr

/-- The paths resolved so far, by recorded name. -/
structure Resolver where
  config : PathConfig
  resolved : List (String × String)
  deriving DecidableEq, Repr

namespace PathConfig

def replace (config : PathConfig) (name : String) : String :=
  Replacement.applyFirst config.replacements name

/-- The text of the first existing path under `roots`, or else the path as it is. -/
def locate (roots : List HostText) (path : String) : Query String := do
  return ((← Query.firstExisting (roots.map (·.joinUnder path))).map (·.text)).getD path

/-- Looks under the workspace roots and, if that leaves nothing that exists, under the source
roots. A name that is found nowhere stays as the replacements leave it. -/
def resolve (config : PathConfig) (name : String) : Query String := do
  let path ← locate config.workspaceRoots (config.replace name)
  if config.sourceRoots.isEmpty then return Path.normalize path
  if ← Query.exists? path then return Path.normalize path
  return Path.normalize (← locate config.sourceRoots path)

end PathConfig

namespace Resolver

def start (config : PathConfig) : Resolver := ⟨config, []⟩

/-- A name is looked for once; later the answer is the same, and nothing is asked. -/
def resolve (name : String) : StateT Resolver Query String := do
  let r ← get
  match r.resolved.lookup name with
  | some path => return path
  | none =>
    let path ← r.config.resolve name
    set { r with resolved := (name, path) :: r.resolved }
    return path

end Resolver
end AmigaHunk
