import Rollout.Text.Blank
/-!
The identity of a document within a build.
-/

namespace Rollout

/-- Kind, namespace and name tell a document from all others of a build. -/
structure Key where
  kind : String
  ns : Option String
  name : String
  deriving DecidableEq, Inhabited

namespace Key

/-- `namespace/Kind/name`, or `Kind/name` without a namespace. -/
def text (k : Key) : String :=
  match k.ns with
  | some ns => ns ++ "/" ++ k.kind ++ "/" ++ k.name
  | none => k.kind ++ "/" ++ k.name

def compareNs : Option String → Option String → Ordering
  | none, none => .eq
  | none, some _ => .lt
  | some _, none => .gt
  | some a, some b => compare a b

/-- By kind, then namespace with none first, then name. -/
def compare (a b : Key) : Ordering :=
  (Ord.compare a.kind b.kind).then ((compareNs a.ns b.ns).then (Ord.compare a.name b.name))

instance : Ord Key := ⟨Key.compare⟩

def le (a b : Key) : Bool := (a.compare b).isLE

end Key

end Rollout
