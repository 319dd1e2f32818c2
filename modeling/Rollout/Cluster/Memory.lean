import Rollout.Cluster.Error
import Rollout.Cluster.Mutation
import Rollout.Cluster.Selector
import Rollout.Document.Metadata
import Rollout.Value.Projection
/-!
A cluster kept in memory. It counts the calls it gets, keeps a journal of what
changed, and can be made to refuse changes of some objects.
-/

namespace Rollout

structure CallCounts where
  gets : Nat := 0
  lists : Nat := 0
  creates : Nat := 0
  updates : Nat := 0
  deletes : Nat := 0
  deriving DecidableEq

namespace CallCounts

def mutations (c : CallCounts) : Nat := c.creates + c.updates + c.deletes

def total (c : CallCounts) : Nat := c.gets + c.lists + c.mutations

end CallCounts

structure MemoryCluster where
  objects : Ordered Key Document := []
  counts : CallCounts := {}
  /-- What changed, in order. -/
  journal : List Mutation := []
  /-- The objects whose changes are refused, each with a message. -/
  refused : List (Key × String) := []
  /-- The calls that have begun and not ended. -/
  running : Nat := 0
  /-- The most calls that ran at one time. -/
  mostRunning : Nat := 0

namespace MemoryCluster

def internalError (message : String) : ClusterError :=
  .api { message := message, reason := "InternalError", code := 500 }

def alreadyExists (k : Key) : ClusterError :=
  .api { message := k.text ++ " already exists", reason := "AlreadyExists", code := 409 }

def notFound (k : Key) : ClusterError :=
  .api { message := k.text ++ " not found", reason := "NotFound", code := 404 }

/-- An object with a document merged into it. -/
def merged (live d : Document) : Except DocumentFault Document :=
  Document.ofTree ⟨live.root.merge d.root, Value.wellKeyed_merge d.root live.wellKeyed d.wellKeyed⟩

/-- What a mutation makes of the objects. Updates merge the document into the object;
deleting what is not there succeeds. -/
def change (objects : Ordered Key Document) : Mutation → Except ClusterError (Ordered Key Document)
  | .create d =>
    if Ordered.has d.key objects then .error (alreadyExists d.key)
    else .ok (Ordered.put d.key d objects)
  | .update d => match Ordered.find? d.key objects with
    | none => .error (notFound d.key)
    | some live => match merged live d with
      | .ok merged => .ok (Ordered.put d.key merged objects)
      | .error f => .error (.build (.invalidDocument f))
  | .delete r => .ok (Ordered.remove r.key objects)

variable (c : MemoryCluster)

def ofDocuments (ds : List Document) : MemoryCluster :=
  { objects := Ordered.ofList (ds.map fun d => (d.key, d)) }

def find? (k : Key) : Option Document := Ordered.find? k c.objects

/-- All objects, by identity. -/
def sorted : List (Key × Document) := c.objects.mergeSort fun a b => Key.le a.1 b.1

def get (r : ObjectRef) : Option Document × MemoryCluster :=
  (c.find? r.key, { c with counts := { c.counts with gets := c.counts.gets + 1 } })

/-- The objects whose labels match a selector, by identity. -/
def list (selector : String) : List Document × MemoryCluster :=
  ((c.sorted.map (·.2)).filter fun d => selectorMatches selector (d.notes .labels),
    { c with counts := { c.counts with lists := c.counts.lists + 1 } })

def counted (m : Mutation) : CallCounts :=
  match m with
  | .create _ => { c.counts with creates := c.counts.creates + 1 }
  | .update _ => { c.counts with updates := c.counts.updates + 1 }
  | .delete _ => { c.counts with deletes := c.counts.deletes + 1 }

def begin (m : Mutation) : MemoryCluster :=
  { c with counts := c.counted m, running := c.running + 1
           mostRunning := max c.mostRunning (c.running + 1) }

/-- A call ends, and its change takes effect. -/
def finish (m : Mutation) : Except ClusterError Unit × MemoryCluster :=
  let c := { c with running := c.running - 1 }
  match Ordered.find? m.key c.refused with
  | some message => (.error (internalError message), c)
  | none => match change c.objects m with
    | .error e => (.error e, c)
    | .ok objects => (.ok (), { c with objects := objects, journal := c.journal ++ [m] })

def call (m : Mutation) : Except ClusterError Unit × MemoryCluster := (c.begin m).finish m

/-- Forgets the calls made so far. -/
def reset : MemoryCluster := { c with counts := {}, journal := [] }

end MemoryCluster

end Rollout
