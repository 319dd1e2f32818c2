import Rollout.Cluster.Context
import Rollout.DocumentSet.Namespace
/-!
Stages: named passes over all documents of a build, run after its components.
-/

namespace Rollout

structure Stage where
  name : String
  run : ClusterContext → DocumentSet.Step Unit

namespace Stage

/-- Marks definitions of types and their instances. -/
def crds : Stage where
  name := "crds"
  run _ s := (.ok (), s.markCrds.2)

/-- Adds namespaces that no document defines. -/
def namespaces : Stage where
  name := "namespaces"
  run _ s :=
    let (names, s) := s.synthesizeNamespaces
    (names.map fun _ => (), s)

/-- Puts the fields of every document in canonical order. -/
def canonicalFields : Stage where
  name := "canonical-fields"
  run _ s := (.ok (), s.map Document.canonical)

def defaults : List Stage := [crds, namespaces, canonicalFields]

end Stage

end Rollout
