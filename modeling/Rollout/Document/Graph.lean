import Rollout.Graph
import Rollout.Document.Category
import Rollout.Document.Kind
import Rollout.Document.Metadata
/-!
The order in which documents are applied. A document comes after the namespace it
lives in, the definition of its type, the accounts and roles it refers to, and the
documents its annotation names. Others are ordered by category and identity.
-/

namespace Rollout

/-- The annotation that lists documents to apply first: `Kind/name` or
`Kind/namespace/name`, separated by commas. -/
def dependsOnKey : String := "kforge.io/depends-on"

/-- The place of a document among those that do not depend on each other. -/
structure Priority where
  category : Category
  key : Key

instance : Ord Priority where
  compare a b := (compare a.category.rank b.category.rank).then (compare a.key b.key)

namespace Document

variable (d : Document)

def priority : Priority := ⟨d.category, d.key⟩

/-- The accounts and the role that a role binding refers to. -/
def bindingReferences : List Key :=
  let subjects := ((d.root.field? "subjects").bind Value.items?).getD []
  let accounts := subjects.filterMap fun s =>
    if s.fieldText? "kind" = some "ServiceAccount" then
      (s.fieldText? "name").map fun n => Key.mk "ServiceAccount" (s.fieldText? "namespace" <|> d.ns?) n
    else none
  let role := d.root.field? "roleRef"
  let roles := match role.bind (·.fieldText? "kind"), role.bind (·.fieldText? "name") with
    | some "Role", some n => [Key.mk "Role" d.ns? n]
    | some "ClusterRole", some n => [Key.mk "ClusterRole" none n]
    | _, _ => []
  accounts ++ roles

def references : List Key :=
  (d.ns?.map fun ns => Key.mk "Namespace" none ns).toList ++
  (d.markers.requires.map fun c => Key.mk "CustomResourceDefinition" none c.name).toList ++
  (d.serviceAccount?.map fun a => Key.mk "ServiceAccount" d.ns? a).toList ++
  if d.kind = "RoleBinding" ∨ d.kind = "ClusterRoleBinding" then d.bindingReferences else []

/-- The identities one reference of the annotation may mean, the nearest first. -/
def annotatedKeys (reference : List Char) : List Key :=
  match (Text.splitOn '/' reference).map String.ofList with
  | [kind, name] => [⟨kind, d.ns?, name⟩, ⟨kind, none, name⟩]
  | [kind, ns, name] => [⟨kind, some ns, name⟩]
  | _ => []

def annotatedReferences : List (List Key) :=
  match d.note? .annotations dependsOnKey with
  | none => []
  | some text => ((Text.splitOn ',' text.toList).map Text.trim).map d.annotatedKeys

end Document

/-- The last of the documents with an identity. -/
def lastIndex? (keys : List Key) (k : Key) : Option Nat :=
  ((keys.zipIdx.filter (·.1 = k)).getLast?).map (·.2)

def Document.dependencies (keys : List Key) (d : Document) : List Nat :=
  d.references.filterMap (lastIndex? keys) ++
    d.annotatedReferences.filterMap fun candidates => candidates.findSome? (lastIndex? keys)

/-- References to documents outside the list say nothing. -/
def documentGraph (docs : List Document) : Graph Priority :=
  let keys := docs.map Document.key
  Graph.ofEdges (docs.map Document.priority)
    (docs.zipIdx.flatMap fun (d, i) => (d.dependencies keys).map fun j => (i, j))

def applyOrder (docs : List Document) : Except BuildError (List Nat) :=
  (documentGraph docs).sort.mapError fun members =>
    .unorderable (members.map fun i => (docs[i]?.map (·.key.text)).getD "")

end Rollout
