import Rollout.Cluster.Error
import Rollout.Plan
/-!
Reports: what became of each document and each delete of a plan.
-/

namespace Rollout

inductive Outcome where
  | unchanged
  | created
  | updated
  | deleted
  /-- The cluster refused the call, or the live object could not be read. -/
  | failed (message : String)
  /-- Not attempted, because a dependency did not succeed. -/
  | skipped (dependency : String)
  /-- Not attempted, because applying was cancelled. -/
  | cancelled
  deriving DecidableEq

namespace Outcome

def ofAction : Action → Outcome
  | .unchanged => unchanged
  | .create => created
  | .update => updated
  | .delete => deleted

def isSuccess : Outcome → Bool
  | unchanged | created | updated | deleted => true
  | failed _ | skipped _ | cancelled => false

def isFailed : Outcome → Bool
  | failed _ => true
  | _ => false

def isSkipped : Outcome → Bool
  | skipped _ => true
  | _ => false

def text : Outcome → String
  | unchanged => "unchanged"
  | created => "created"
  | updated => "updated"
  | deleted => "deleted"
  | failed message => s!"failed: {message}"
  | skipped dependency => s!"skipped (dependency {dependency} did not apply)"
  | cancelled => "cancelled"

end Outcome

structure Entry where
  resource : ObjectRef
  action : Action
  outcome : Outcome
  deriving DecidableEq

/-- The entries are those of a plan, in its order. -/
structure Report where
  entries : List Entry := []
  /-- Applying was cancelled before every call had begun. -/
  cancelled : Bool := false
  deriving DecidableEq

namespace Report

variable (r : Report)

def isSuccess : Bool := !r.cancelled && r.entries.all (·.outcome.isSuccess)

def failures : List Entry := r.entries.filter (!·.outcome.isSuccess)

def outcome? (resource : ObjectRef) : Option Outcome :=
  (r.entries.find? (·.resource = resource)).map (·.outcome)

def count (p : Outcome → Bool) : Nat := r.entries.countP fun e => p e.outcome

/-- The counts that are not zero. -/
def summary : String :=
  let counted := [(r.count (· == .created), "created"), (r.count (· == .updated), "updated"),
    (r.count (· == .deleted), "deleted"), (r.count (· == .unchanged), "unchanged"),
    (r.count Outcome.isFailed, "failed"), (r.count Outcome.isSkipped, "skipped"),
    (r.count (· == .cancelled), "cancelled")]
  match counted.filter (·.1 ≠ 0) with
  | [] => "No changes"
  | parts => ", ".intercalate (parts.map fun (n, label) => s!"{n} {label}")

/-- The error of a report that is no success. -/
def toResult : Except ClusterError Report :=
  if r.cancelled then .error .cancelled
  else if r.failures.isEmpty then .ok r
  else .error (.applyFailed r.failures.length r.entries.length)

end Report

end Rollout
