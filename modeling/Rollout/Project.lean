import Rollout.Builder
/-!
Projects: a file that lists a cluster, a namespace and components made of manifest
files. Paths in it are taken from the directory it is in.
-/

namespace Rollout

structure ComponentSpec where
  name : String
  dependsOn : List String := []
  /-- Files, or directories of files. -/
  manifests : List String := []
  deriving DecidableEq

structure Project where
  cluster : ClusterContext := {}
  ns : Option String := none
  components : List ComponentSpec := []
  /-- The directory that paths are taken from. -/
  base : String := ""
  deriving DecidableEq

/-- Why a project cannot be read or made into a builder. -/
inductive ProjectError where
  | unreadable (path : String) (f : FileFault)
  | invalid (path : String) (f : Yaml.RecordFault)
  | noManifests (component path : String)
  | build (e : BuildError)

namespace ProjectError

def message : ProjectError → String
  | unreadable path f => s!"cannot read project file {path}: {f.message}"
  | invalid path f => s!"invalid project file {path}: {f.message}"
  | noManifests component path => s!"component '{component}': manifest path {path} does not exist"
  | build e => e.message

end ProjectError

/-- What is given instead of a project's own cluster. -/
structure ClusterOverrides where
  version : Option String := none
  distribution : Option String := none
  environment : Option Environment := none
  deriving DecidableEq

def ClusterContext.override (c : ClusterContext) (o : ClusterOverrides) : ClusterContext where
  clusterVersion := o.version.getD c.clusterVersion
  distribution := o.distribution.getD c.distribution
  environment := o.environment.getD c.environment

namespace ComponentSpec

open Yaml in
/-- The fields of a component; it has a name and no others than these. -/
def ofNode (d : Parsed) (node : Node) : RecordReader ComponentSpec := do
  let fields ← recordNode d ["name", "dependsOn", "manifests"] true node
  let texts := listNode d (textNode d)
  let spec ← fields.foldlM (fun (spec : ComponentSpec) (k, v) => do
    if k = "name" then return { spec with name := ← textNode d v }
    else if k = "dependsOn" then return { spec with dependsOn := ← texts v }
    else return { spec with manifests := ← texts v }) { name := "" }
  if fields.any (·.1 = "name") then return spec else throw (.missingField "name")

end ComponentSpec

namespace Project

def fileName : String := "kforge.yaml"

open Yaml in
/-- The fields of a project; it has no others than these. -/
def ofNode (d : Parsed) (node : Node) : RecordReader Project := do
  let fields ← recordNode d ["cluster", "namespace", "components"] true node
  fields.foldlM (fun (p : Project) (k, v) => do
    if k = "cluster" then return { p with cluster := ← ClusterContext.ofNode d false v }
    else if k = "namespace" then return { p with ns := ← optionalNode d (textNode d) v }
    else return { p with components := ← listNode d (ComponentSpec.ofNode d) v }) {}

def ofYaml (text : String) : Except Yaml.RecordFault Project := Yaml.readRecord text ofNode

variable {m : Type → Type} [Monad m] [FileSystem m]

def load (path : String) : ExceptT ProjectError m Project := do
  match ← FileSystem.read (m := m) path with
  | .error f => throw (.unreadable path f)
  | .ok text => match ofYaml text with
    | .error f => throw (.invalid path f)
    | .ok p => return { p with base := FilePath.parent path }

/-- The manifest files that a path of a component stands for. -/
def manifestFiles (p : Project) (component path : String) :
    ExceptT ProjectError m (List String) := do
  let full := FilePath.join p.base path
  if ← FileSystem.isFile (m := m) full then return [full]
  else if ← FileSystem.isDirectory (m := m) full then
    return (← FileSystem.filesBelow (m := m) full).filter FilePath.isManifest
  else throw (.noManifests component full)

/-- The component of a specification, with its files as they are now. -/
def component (p : Project) (spec : ComponentSpec) : ExceptT ProjectError m Component := do
  let paths ← spec.manifests.mapM (p.manifestFiles (m := m) spec.name)
  let sources ← paths.flatten.mapM fun path => do
    return ManifestSource.file path (← FileSystem.read (m := m) path)
  return .ofManifests spec.name spec.dependsOn sources

/-- A builder with one component for each of the project's. -/
def builder (p : Project) : ExceptT ProjectError m Builder :=
  p.components.foldlM (fun b spec => do
    match b.addComponent (← p.component (m := m) spec) with
    | (.ok (), b) => return b
    | (.error e, _) => throw (.build e)) { cluster := p.cluster }

end Project

end Rollout
