import Rollout.Path
import Rollout.Document.Key
import Rollout.Yaml.Record
/-!
Why documents cannot be read, edited, composed or ordered.
-/

namespace Rollout

/-- What a manifest document lacks. -/
inductive DocumentFault where
  | notMapping
  | missing (field : String)
  | notText (field : String)
  | metadataNotMapping
  | badName
  | badNamespace
  deriving DecidableEq

def DocumentFault.message : DocumentFault → String
  | .notMapping => "manifest must be a mapping"
  | .missing field => s!"missing '{field}'"
  | .notText field => s!"'{field}' must be a non-empty string"
  | .metadataNotMapping => "'metadata' must be a mapping"
  | .badName => "metadata.name must be a non-empty string"
  | .badNamespace => "metadata.namespace must be a string"

/-- Why one document of a manifest cannot be read. -/
inductive ManifestFault where
  | yaml (f : Yaml.Fault)
  | record (f : Yaml.RecordFault)
  | document (f : DocumentFault)
  deriving DecidableEq

def ManifestFault.message : ManifestFault → String
  | .yaml f => f.message
  | .record f => f.message
  | .document f => f.message

inductive BuildError where
  | duplicateComponent (name : String)
  | duplicateStage (name : String)
  | missingDependency (component dependency : String)
  | dependencyCycle (members : List String)
  | duplicateDocument (key : Key) (sources : List String)
  | parse (index : Nat) (fragment : String) (fault : ManifestFault)
  | unorderable (members : List String)
  | invalidPath (path : String) (fault : PathFault)
  | fixedField (field : String)
  | invalidDocument (fault : DocumentFault)
  | component (name message : String)
  | io (message : String)
  deriving DecidableEq

/-- Configuration, parse and resolution errors end a build before anything is applied. -/
inductive ErrorKind where
  | configuration
  | parse
  | resolution
  | document
  | component
  | io
  deriving DecidableEq

namespace BuildError

def message : BuildError → String
  | .duplicateComponent name => s!"component '{name}' is already registered"
  | .duplicateStage name => s!"stage '{name}' is already registered"
  | .missingDependency c dependency =>
    s!"component '{c}' depends on '{dependency}', which is not registered"
  | .dependencyCycle members =>
    "dependency cycle between components: " ++ ", ".intercalate members
  | .duplicateDocument k sources =>
    "duplicate document " ++ k.text ++ " (emitted by " ++ " and ".intercalate sources ++ ")"
  | .parse index fragment fault =>
    s!"failed to parse manifest document {index} ({fragment}): " ++ fault.message
  | .unorderable members =>
    "cannot order documents for apply, circular references between: " ++ ", ".intercalate members
  | .invalidPath path fault => s!"invalid property path '{path}': " ++ fault.message
  | .fixedField field => s!"field '{field}' is part of the document identity and cannot be changed"
  | .invalidDocument fault => "invalid document: " ++ fault.message
  | .component name text => s!"component '{name}' failed: {text}"
  | .io text => s!"IO error: {text}"

def kind : BuildError → ErrorKind
  | .duplicateComponent _ | .duplicateStage _ | .missingDependency .. | .dependencyCycle _
  | .duplicateDocument .. => .configuration
  | .parse .. => .parse
  | .unorderable _ => .resolution
  | .invalidPath .. | .fixedField _ | .invalidDocument _ => .document
  | .component .. => .component
  | .io _ => .io

end BuildError

end Rollout
