import Rollout.DocumentSet.Crd
/-!
Namespaces that documents name but no document defines, and the default namespace
of documents that name none.
-/

namespace Rollout.DocumentSet

/-- The source of namespaces that were added. -/
def synthesizedSource : String := "namespace-synthesis"

/-- Inserts a name into a sorted list of names, once. -/
def insertName (name : String) : List String → List String
  | [] => [name]
  | n :: ns =>
    if name = n then n :: ns
    else if name < n then name :: n :: ns
    else n :: insertName name ns

def namedNamespaces (s : DocumentSet) : List String :=
  ((s.documents.filter (Document.isNamespaced s.crds)).filterMap Document.ns?).foldl
    (fun names n => insertName n names) []

def namespaceKey (name : String) : Key := ⟨"Namespace", none, name⟩

/-- The minimal document of a namespace that was not authored. -/
def synthesized (name : String) : Document :=
  { Document.minimalNamespace name with markers := { synthesized := true } }

/-- Adds the missing ones of the named namespaces; gives their names. -/
def addNamespaces : List String → Step (List String)
  | [], s => (.ok [], s)
  | name :: names, s =>
    if s.has (namespaceKey name) then addNamespaces names s
    else match s.insert (synthesized name) synthesizedSource with
      | .error e => (.error e, s)
      | .ok s =>
        let (added, s) := addNamespaces names s
        (added.map (name :: ·), s)

def synthesizeNamespaces : Step (List String) := fun s => addNamespaces s.namedNamespaces s

def lacksNs (crds : List CrdRef) (d : Document) : Bool := d.ns?.isNone && d.isNamespaced crds

/-- Gives every namespaced document without a namespace the given one; also their count. -/
def defaultNs (ns : String) : Step Nat := fun s =>
  let lacking := lacksNs s.crds
  let count := (s.documents.filter lacking).length
  if count = 0 then (.ok 0, s)
  else
    let (done, s) := (s.map fun d => if lacking d then d.setNs (some ns) else d).rekey
    (done.map fun _ => count, s)

end Rollout.DocumentSet
