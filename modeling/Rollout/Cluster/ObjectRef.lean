import Rollout.DocumentSet.Crd
/-!
References to objects of a cluster.
-/

namespace Rollout

/-- The namespace of namespaced objects that name none. -/
def defaultNamespace : String := "default"

structure ObjectRef where
  apiVersion : String
  kind : String
  ns : Option String
  name : String
  deriving DecidableEq

namespace ObjectRef

/-- The identity that is referred to; the version of the interface is no part of it. -/
def key (r : ObjectRef) : Key := ⟨r.kind, r.ns, r.name⟩

def text (r : ObjectRef) : String := r.key.text

end ObjectRef

namespace Document

def ref (d : Document) : ObjectRef := ⟨d.apiVersion, d.kind, d.ns?, d.name⟩

/-- Where a document lives once it is applied. -/
def liveRef (crds : List CrdRef) (d : Document) : ObjectRef :=
  if d.ns?.isNone && d.isNamespaced crds then { d.ref with ns := some defaultNamespace } else d.ref

end Document

end Rollout
