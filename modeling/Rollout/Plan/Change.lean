import Rollout.Cluster.Error
import Rollout.Document.Graph
import Rollout.Document.LastApplied
import Rollout.Plan
import Rollout.Value.Canonical
import Rollout.Value.Projection
/-!
Deciding what to do with an object. Only the fields that its document sets, or set
when it was last applied, are compared, in canonical form.
-/

namespace Rollout

/-- The fields of a live object that are compared. -/
def comparedFields (desired live : Document) : Value :=
  match live.lastApplied? with
  | some previous => desired.root.withFieldsOf previous
  | none => desired.root

/-- What is seen of a live object when a document is compared with it. -/
def seen (desired live : Document) : Value :=
  (live.root.project (comparedFields desired live)).canonical

def planChange (desired : Document) (live : Option Document) (context : Nat) : Change :=
  match live with
  | none => .create desired
  | some l =>
    let is := seen desired l
    let wanted := desired.root.canonical
    if is.same wanted then .unchanged desired l
    else .update desired l (Diff.between is.toYaml wanted.toYaml context)

/-- Deletes of objects, each after those that depend on it; with each go the places of the
deletes that come before it. -/
def planDeletes (live : List Document) : Except ClusterError (List Change × List (List Nat)) := do
  let order := (← (applyOrder live).mapError .build).reverse
  let graph := documentGraph live
  let before := fun (i : Nat) =>
    ((graph.dependents i).map order.idxOf).mergeSort fun a b => a ≤ b
  return ((order.filterMap (live[·]?)).map .delete, order.map before)

end Rollout
