import Rollout.Document.Basic
/-!
The resources that a server serves. Each group of them has a version that is preferred.
-/

namespace Rollout

structure ApiResource where
  group : String
  version : String
  kind : String
  plural : String
  namespaced : Bool
  verbs : List String
  deriving DecidableEq

namespace ApiResource

def apiVersion (r : ApiResource) : String :=
  if r.group.isEmpty then r.version else r.group ++ "/" ++ r.version

/-- Where the objects of a namespace are, or all objects. -/
def path (r : ApiResource) (ns : Option String) : String :=
  let root := if r.group.isEmpty then "/api/" else "/apis/"
  let middle := match ns with
    | some ns => "/namespaces/" ++ ns ++ "/"
    | none => "/"
  root ++ r.apiVersion ++ middle ++ r.plural

def canList (r : ApiResource) : Bool := r.verbs.contains "list"

end ApiResource

/-- Resources in the order they are served. -/
abbrev Catalog := List ApiResource

namespace Catalog

/-- The group of the resources that every server has. -/
def coreGroup : String := ""

/-- What is known of the resources served; parts of resources, with a slash in their name, are
left out. -/
def ofServed (served : List ApiResource) : Except String Catalog :=
  if served.any (·.group = coreGroup) then
    .ok (served.filter fun r => !r.plural.toList.contains '/')
  else .error coreGroup

def resolve? (c : Catalog) (apiVersion kind : String) : Option ApiResource :=
  let (group, version) := splitApiVersion apiVersion
  c.find? fun r => r.group = group ∧ r.version = version ∧ r.kind = kind

/-- The version of a group that is listed first; `v1` of the core group. -/
def preferredVersion? (c : Catalog) (group : String) : Option String :=
  if group = coreGroup then some "v1" else (c.find? (·.group = group)).map (·.version)

def preferred (c : Catalog) : List ApiResource :=
  c.filter fun r => c.preferredVersion? r.group = some r.version

end Catalog

end Rollout
