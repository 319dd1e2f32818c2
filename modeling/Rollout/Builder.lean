import Rollout.Builder.Component
import Rollout.Builder.Stage
import Rollout.Document.Graph
import Rollout.Text.Quoted
/-!
Builders: registries of components, documents and stages, and the build that
makes of them a list of documents in the order of application. What is registered
may be refused, which leaves the builder as it was; a build that fails gives nothing.
-/

namespace Rollout

structure Builder where
  cluster : ClusterContext := {}
  components : List Component := []
  /-- Documents added outside of any component. -/
  documents : List Document := []
  stages : List Stage := Stage.defaults

/-- The run of a component, with the documents that it found. -/
structure Execution where
  component : Component
  found : DocumentSet

structure Build where
  /-- In the order of application. -/
  documents : List Document
  /-- For each document those that it must come after, ascending. -/
  dependencies : List (List Nat)
  deriving DecidableEq

namespace Builder

/-- The source of documents added outside of any component. -/
def directSource : String := "builder"

variable (b : Builder)

def componentNames : List String := b.components.map (·.name)

def stageNames : List String := b.stages.map (·.name)

def hasComponent (name : String) : Bool := b.componentNames.contains name

def addComponent (c : Component) : Except BuildError Unit × Builder :=
  if b.hasComponent c.name then (.error (.duplicateComponent c.name), b)
  else (.ok (), { b with components := b.components ++ [c] })

/-- What is registered, on one line. -/
def describe : String :=
  let cluster := s!"ClusterContext \x7b cluster_version: {Text.quoted b.cluster.clusterVersion}" ++
    s!", distribution: {Text.quoted b.cluster.distribution}" ++
    s!", environment: {b.cluster.environment.text.capitalize} \x7d"
  s!"Builder \x7b cluster: {cluster}, components: {Text.quotedList b.componentNames}" ++
    s!", documents: {b.documents.length}, stages: {Text.quotedList b.stageNames} \x7d"

/-- The removed component and the builder without it. What depends on it is left. -/
def removeComponent (name : String) : Option Component × Builder :=
  (b.components.find? (·.name = name),
    { b with components := b.components.eraseP (·.name = name) })

def addDocument (d : Document) : Except BuildError Unit × Builder :=
  if (b.documents.map Document.key).contains d.key then
    (.error (.duplicateDocument d.key [directSource]), b)
  else (.ok (), { b with documents := b.documents ++ [d] })

/-- The first document with an identity that was seen, or that an earlier one of them has. -/
def firstRepeat? (seen : List Key) : List Document → Option Document
  | [] => none
  | d :: ds => if seen.contains d.key then some d else firstRepeat? (d.key :: seen) ds

/-- Adds the documents of a stream once all of them are checked. Gives their count. -/
def addManifest (text : String) : Except BuildError Nat × Builder :=
  match Manifest.parse text with
  | .error e => (.error e, b)
  | .ok ds =>
    match firstRepeat? (b.documents.map Document.key) ds with
    | some d => (.error (.duplicateDocument d.key [directSource]), b)
    | none => (.ok ds.length, { b with documents := b.documents ++ ds })

def removeDocument (k : Key) : Option Document × Builder :=
  (b.documents.find? (·.key = k), { b with documents := b.documents.eraseP (·.key = k) })

def addStage (s : Stage) : Except BuildError Unit × Builder :=
  if b.stageNames.contains s.name then (.error (.duplicateStage s.name), b)
  else (.ok (), { b with stages := b.stages ++ [s] })

def removeStage (name : String) : Option Stage × Builder :=
  (b.stages.find? (·.name = name), { b with stages := b.stages.eraseP (·.name = name) })

/-- The directly added documents as the set a build starts from. -/
def directDocuments : Except BuildError DocumentSet :=
  let (done, s) := DocumentSet.insertAll (b.documents.map fun d => (d, directSource)) {}
  done.map fun _ => s

def scope (c : Component) : Scope := ⟨b.cluster, b.componentNames, c.name⟩

def runComponent (s : DocumentSet) (c : Component) : Except BuildError DocumentSet :=
  let (done, s) := (c.task (b.scope c)).run c.name s
  done.map fun _ => s

def runStage (s : DocumentSet) (stage : Stage) : Except BuildError DocumentSet :=
  let (done, s) := stage.run b.cluster s
  done.map fun _ => s

/-- The registered components with what they depend on. -/
def dependencies : List (String × List String) := b.components.map fun c => (c.name, c.dependencies)

/-- Runs components one after the other, until one fails. Each leaves a record of its run. -/
def runAll : List Component → DocumentSet → Except BuildError DocumentSet × List Execution
  | [], s => (.ok s, [])
  | c :: cs, s =>
    match b.runComponent s c with
    | .error e => (.error e, [⟨c, s⟩])
    | .ok t =>
      let (result, executions) := runAll cs t
      (result, ⟨c, s⟩ :: executions)

/-- The run of all components in their order, after the direct documents. -/
def runComponents : Except BuildError DocumentSet × List Execution :=
  match Component.order b.dependencies with
  | .error e => (.error e, [])
  | .ok order =>
    match b.directDocuments with
    | .error e => (.error e, [])
    | .ok s => b.runAll (order.filterMap (b.components[·]?)) s

/-- The direct documents with everything that the components emit. -/
def gather : Except BuildError DocumentSet := b.runComponents.1

def executions : List Execution := b.runComponents.2

def giveNamespace (ns : Option String) (s : DocumentSet) : Except BuildError DocumentSet :=
  match ns with
  | none => .ok s
  | some ns =>
    let (done, s) := s.defaultNs ns
    done.map fun _ => s

end Builder

/-- Documents in the order of application, with the graph's edges between their new places. -/
def Build.ofDocuments (docs : List Document) : Except BuildError Build := do
  let order ← applyOrder docs
  let graph := documentGraph docs
  let places := fun (i : Nat) => ((graph.needs i).map order.idxOf).mergeSort fun a b => a ≤ b
  return { documents := order.filterMap (docs[·]?), dependencies := order.map places }

namespace Build

variable (b : Build)

def size : Nat := b.documents.length

def render : String := Manifest.render b.documents

end Build

namespace Builder

/-- Runs the components, gives the namespace to documents that lack one, runs the stages and
orders the documents. -/
def build (b : Builder) (ns : Option String) : Except BuildError Build := do
  let s ← b.gather
  let s ← giveNamespace ns s
  let s ← b.stages.foldlM b.runStage s
  Build.ofDocuments s.documents

end Builder

end Rollout
