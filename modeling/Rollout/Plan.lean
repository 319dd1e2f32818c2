import Rollout.Cluster.Mutation
import Rollout.Diff
import Rollout.Document.LastApplied
/-!
Plans: what applying a build does to each object.
-/

namespace Rollout

inductive Action where
  | unchanged
  | create
  | update
  | delete
  deriving DecidableEq

namespace Action

def text : Action → String
  | unchanged => "unchanged"
  | create => "create"
  | update => "update"
  | delete => "delete"

def isMutation (a : Action) : Bool := a ≠ .unchanged

end Action

inductive Change where
  | unchanged (desired live : Document)
  | create (desired : Document)
  /-- The diff is from the live object to the desired one. -/
  | update (desired live : Document) (diff : Diff)
  | delete (live : Document)
  /-- The live object could not be read; the document is not applied. -/
  | unreadable (desired : Document) (error : String)
  deriving DecidableEq

namespace Change

def action : Change → Action
  | unchanged .. | unreadable .. => .unchanged
  | create _ => .create
  | update .. => .update
  | delete _ => .delete

def desired? : Change → Option Document
  | unchanged d _ | create d | update d _ _ | unreadable d _ => some d
  | delete _ => none

def live? : Change → Option Document
  | unchanged _ l | update _ l _ | delete l => some l
  | create _ | unreadable .. => none

def diff? : Change → Option Diff
  | update _ _ diff => some diff
  | _ => none

def error? : Change → Option String
  | unreadable _ error => some error
  | _ => none

/-- The document that a change is about: the desired one, or the deleted. -/
def subject : Change → Document
  | unchanged d _ | create d | update d _ _ | unreadable d _ | delete d => d

def resource (c : Change) : ObjectRef := c.subject.ref

def mutation? : Change → Option Mutation
  | unchanged .. | unreadable .. => none
  | create d => some (.create d.withLastApplied)
  | update d _ _ => some (.update d.withLastApplied)
  | delete l => some (.delete l.ref)

end Change

structure Plan where
  /-- One for each document of a build, in its order. -/
  changes : List Change := []
  /-- In the order of deletion. -/
  deletes : List Change := []
  /-- For each delete those that come before it, ascending. -/
  deleteDependencies : List (List Nat) := []

namespace Plan

variable (p : Plan)

def all : List Change := p.changes ++ p.deletes

def hasMutations : Bool := p.all.any (·.action.isMutation)

/-- The number of changes of a kind, unreadable ones left out. -/
def count (a : Action) : Nat := p.all.countP fun c => c.action = a ∧ c.error?.isNone

def unreadable : Nat := p.all.countP (·.error?.isSome)

/-- The counts that are not zero. -/
def summary : String :=
  let counted := [(p.count .create, "to create"), (p.count .update, "to update"),
    (p.count .delete, "to delete"), (p.count .unchanged, "unchanged"), (p.unreadable, "unreadable")]
  match counted.filter (·.1 ≠ 0) with
  | [] => "No resources"
  | parts => ", ".intercalate (parts.map fun (n, label) => s!"{n} {label}")

end Plan

end Rollout
