import Rollout.Cluster.Context
import Rollout.DocumentSet
import Rollout.Files
import Rollout.Graph
/-!
Components: named parts of a build that emit documents. A component reads what
there is so far and adds to it; it takes nothing away.
-/

namespace Rollout

/-- What a component does, one step after the other. -/
inductive Task where
  | done
  | fail (e : BuildError)
  | emit (d : Document) (next : Task)
  /-- Reads the documents emitted so far. -/
  | look (next : DocumentSet → Task)

namespace Task

def emitAll (ds : List Document) (next : Task) : Task := ds.foldr emit next

/-- Emits the documents of a stream, if it can be read, one after the other. -/
def emitManifest (text : String) (next : Task) : Task :=
  match Manifest.parse text with
  | .ok ds => emitAll ds next
  | .error e => fail e

def run (source : String) : Task → DocumentSet.Step Unit
  | done, s => (.ok (), s)
  | fail e, s => (.error e, s)
  | emit d next, s =>
    match s.insert d source with
    | .ok s => run source next s
    | .error e => (.error e, s)
  | look next, s => run source (next s) s

end Task

/-- What a component is told about the build it runs in. -/
structure Scope where
  cluster : ClusterContext
  /-- The registered components, in order of registration. -/
  components : List String
  current : String

structure Component where
  name : String
  /-- The components that run before it. -/
  dependencies : List String := []
  task : Scope → Task

/-- A part of a manifest component: a text, or what was read from a file. -/
inductive ManifestSource where
  | text (content : String)
  | file (path : String) (content : Except FileFault String)

namespace ManifestSource

def read (component : String) : ManifestSource → Except BuildError String
  | text content => .ok content
  | file path content =>
    content.mapError fun f => .component component s!"failed to read {path}: {f.message}"

/-- Emits the documents of a source. -/
def emit (component : String) (source : ManifestSource) (next : Task) : Task :=
  match source.read component with
  | .ok content => Task.emitManifest content next
  | .error e => .fail e

end ManifestSource

/-- The component that emits the documents of manifests, whatever the build. -/
def Component.ofManifests (name : String) (dependencies : List String)
    (sources : List ManifestSource) : Component where
  name := name
  dependencies := dependencies
  task _ := sources.foldr (ManifestSource.emit name) .done

namespace Component

/-- The component a name refers to: the last one registered under it. -/
def indexOf? (components : List (String × List String)) (name : String) : Option Nat :=
  ((components.zipIdx.filter (·.1.1 = name)).getLast?).map (·.2)

/-- The dependencies of a component by index; the first one not registered is the error. -/
def resolve (components : List (String × List String)) (name : String)
    (dependencies : List String) : Except BuildError (List Nat) :=
  dependencies.mapM fun dependency => match indexOf? components dependency with
    | some i => .ok i
    | none => .error (.missingDependency name dependency)

/-- The order of components, given by name and dependencies: each after those it depends on,
else as registered. -/
def order (components : List (String × List String)) : Except BuildError (List Nat) := do
  let edges ← components.zipIdx.mapM fun ((name, dependencies), i) => do
    return (← resolve components name dependencies).map fun j => (i, j)
  let graph := Graph.ofEdges (List.range components.length) edges.flatten
  graph.sort.mapError fun members =>
    .dependencyCycle (members.map fun i => (components[i]?.map (·.1)).getD "")

end Component

end Rollout
