import Rollout.Apply.Engine
import Rollout.Cluster.Memory
/-!
A simulated server: a cluster in memory behind faults that can be planned, with a
clock on which every change takes the same time. Calls in flight end in the order they
were launched.
-/

namespace Rollout

structure Simulation where
  cluster : MemoryCluster := {}
  /-- How long a change takes; without it, changes end as they begin. -/
  latency : Option Nat := none
  /-- Kinds that are not served until an object exists, or never. -/
  unserved : List (String × Option Key) := []
  /-- Objects that cannot be read, each with a message. -/
  unreadable : List (Key × String) := []
  /-- Why objects cannot be listed. -/
  listFault : Option String := none
  now : Nat := 0
  cancelAt : Option Nat := none
  /-- With which change, counted from one, applying is cancelled. -/
  cancelWith : Option Nat := none
  cancelled : Bool := false
  begun : Nat := 0
  /-- The calls that have begun and not ended, each with the time of its end. -/
  pending : List (Nat × Nat) := []

namespace Simulation

variable (s : Simulation)

def serves (kind : String) : Bool :=
  s.unserved.all fun (k, needed) => k ≠ kind || needed.any fun key => (s.cluster.find? key).isSome

def unknown (r : ObjectRef) : ClusterError := .unknownResource r.apiVersion r.kind

def get (r : ObjectRef) : Except ClusterError (Option Document) × Simulation :=
  if !s.serves r.kind then (.error (unknown r), s)
  else match Ordered.find? r.key s.unreadable with
    | some message => (.error (.confirmation message), s)
    | none =>
      let (d, c) := s.cluster.get r
      (.ok d, { s with cluster := c })

def list (selector : String) : Except ClusterError (List Document) × Simulation :=
  match s.listFault with
  | some message => (.error (.confirmation message), s)
  | none =>
    let (ds, c) := s.cluster.list selector
    (.ok ds, { s with cluster := c })

/-- Why a change does not reach the cluster. -/
def refusal? (m : Mutation) : Option ClusterError :=
  match m with
  | .create d | .update d => if s.serves d.kind then none else some (unknown d.ref)
  | .delete _ => none

def enter : Simulation :=
  let begun := s.begun + 1
  { s with begun := begun, cancelled := s.cancelled || s.cancelWith == some begun }

def finish (i : Nat) (m : Mutation) : Event × Simulation :=
  let (result, c) := s.cluster.finish m
  (.ended i result, { s with cluster := c, pending := s.pending.filter (·.1 ≠ i) })

/-- Begins a call; the event of its end, if it ends at once. -/
def begin (i : Nat) (m : Mutation) : Option Event × Simulation :=
  let s := s.enter
  match s.refusal? m with
  | some e => (some (.ended i (.error e)), s)
  | none =>
    let s := { s with cluster := s.cluster.begin m }
    match s.latency with
    | none | some 0 =>
      let (e, s) := s.finish i m
      (some e, s)
    | some time => (none, { s with pending := s.pending ++ [(i, s.now + time)] })

/-- Goes through the calls in flight: ends the first that is due, and begins those before it
that have not begun. -/
def advance (s : Simulation) : List (Nat × Mutation) → Option Event × Simulation
  | [] => (none, s)
  | (i, m) :: calls =>
    match Ordered.find? i s.pending with
    | some due =>
      if due ≤ s.now then
        let (e, s) := s.finish i m
        (some e, s)
      else advance s calls
    | none => match s.begin i m with
      | (some e, s) => (some e, s)
      | (none, s) => advance s calls

def nextEnd (calls : List (Nat × Mutation)) : Option Nat :=
  (calls.filterMap fun c => Ordered.find? c.1 s.pending).min?

/-- Lets time pass until a call ends or applying is cancelled. What happens at one time
happens in this order. -/
def pass (calls : List (Nat × Mutation)) (seen : Bool) : Simulation :=
  match s.nextEnd calls with
  | none => s
  | some due =>
    match s.cancelAt with
    | some moment =>
      if !s.cancelled ∧ !seen ∧ moment < due then
        { s with now := max s.now moment, cancelled := true }
      else { s with now := due }
    | none => { s with now := due }

/-- What comes next while calls are in flight. -/
def await (calls : List (Nat × Mutation)) (seen : Bool) : Event × Simulation :=
  if s.cancelled ∧ !seen then (.cancelled, s)
  else match s.advance calls with
    | (some e, s) => (e, s)
    | (none, s) =>
      let s := if s.cancelled ∧ !seen then s else s.pass calls seen
      if s.cancelled ∧ !seen then (.cancelled, s)
      else match s.advance calls with
        | (some e, s) => (e, s)
        | (none, s) => (.cancelled, s)

def server : Server Simulation where
  get := get
  list := list
  await := await
  isCancelled s := (s.cancelled, s)

/-- Makes ready for the next step: the clock, the counts and the journal start anew. -/
def reset (cancelled : Bool) (cancelAt cancelWith : Option Nat) : Simulation :=
  { s with cluster := s.cluster.reset, now := 0, cancelled := cancelled, cancelAt := cancelAt
           cancelWith := cancelWith, begun := 0, pending := [] }

end Simulation

end Rollout
