import Rollout.DocumentSet
import Rollout.Document.Kind
/-!
Custom resource types defined by the documents of a set, and the documents that
are instances of them.
-/

namespace Rollout

/-- The names of the versions of a definition: its list, and a single version beside it. -/
def crdVersions (spec : Value) : List String :=
  let listed := (((spec.field? "versions").bind Value.items?).getD []).filterMap
    (·.fieldText? "name")
  match spec.fieldText? "version" with
  | some v => if listed.contains v then listed else listed ++ [v]
  | none => listed

/-- The type a document defines; `none` without a group or a kind. -/
def Document.crd? (d : Document) : Option CrdRef := do
  if !d.isCrd then none
  let spec ← d.spec?
  let group ← spec.fieldText? "group"
  let kind ← (← spec.field? "names").fieldText? "kind"
  return ⟨d.name, group, kind, crdVersions spec, spec.fieldText? "scope" != some "Cluster"⟩

/-- Whether a document lives in a namespace: as its type says, if one of the given types is
its own, else by its kind. -/
def Document.isNamespaced (crds : List CrdRef) (d : Document) : Bool :=
  match crds.find? fun c => c.matches d.apiVersion d.kind with
  | some c => c.namespaced
  | none => !Kind.isClusterScoped d.kind

namespace DocumentSet

def crds (s : DocumentSet) : List CrdRef := s.documents.filterMap Document.crd?

/-- The first type that a document is an instance of. -/
def required? (crds : List CrdRef) (d : Document) : Option CrdRef :=
  crds.find? fun c => c.matches d.apiVersion d.kind

/-- A definition is marked with its type, any other document with the type it needs. -/
def markCrd (crds : List CrdRef) (d : Document) : Document :=
  if d.isCrd then
    { d with markers := { d.markers with defines := crds.find? fun c => c.name == d.name } }
  else { d with markers := { d.markers with requires := required? crds d } }

/-- Marks definitions and their instances; also the count of instances. -/
def markCrds (s : DocumentSet) : Nat × DocumentSet :=
  let instances := s.documents.filter fun d => !d.isCrd && (required? s.crds d).isSome
  (instances.length, s.map (markCrd s.crds))

end DocumentSet

end Rollout
