import Rollout.Apply.Report
/-!
Carrying out changes that depend on each other, many at one time. A change waits for
all it depends on; if one of those did not succeed, it is skipped. What ends next, and
whether applying is cancelled, is not decided here: a run is what a history of such
events makes of the changes.
-/

namespace Rollout

structure Work where
  changes : List Change
  /-- For each change those it comes after; they are before it in the list. -/
  dependencies : List (List Nat)
  limit : Nat

inductive Event where
  /-- It is seen that applying was cancelled. -/
  | cancelled
  /-- The call for a change ends. -/
  | ended (index : Nat) (result : Except ClusterError Unit)

structure Run where
  outcomes : List (Option Outcome)
  /-- The calls in flight, in the order they were launched. -/
  inFlight : List (Nat × Mutation) := []
  /-- No call is launched any more. -/
  cancelled : Bool := false
  /-- The changes with an outcome, in the order they got it. -/
  finished : List Nat := []

inductive Act where
  /-- The call for a change is launched. -/
  | call (index : Nat) (m : Mutation)
  | settle (index : Nat) (o : Outcome)
  | cancel

namespace Run

def outcome? (r : Run) (i : Nat) : Option Outcome := (r.outcomes[i]?).join

/-- A change is not looked at again once it is launched. -/
def isLaunched (r : Run) (i : Nat) : Bool := (r.outcome? i).isSome || r.inFlight.any (·.1 = i)

def perform (r : Run) : Act → Run
  | .call i m => { r with inFlight := r.inFlight ++ [(i, m)] }
  | .settle i o =>
    { r with outcomes := r.outcomes.set i (some o), inFlight := r.inFlight.filter (·.1 ≠ i)
             finished := r.finished ++ [i] }
  | .cancel => { r with cancelled := true }

end Run

namespace Work

variable (w : Work)

def start (cancelled : Bool) : Run :=
  { outcomes := List.replicate w.changes.length none, cancelled := cancelled }

def needs (i : Nat) : List Nat := w.dependencies[i]?.getD []

/-- The outcome of a change that no call is made for. -/
def settled (c : Change) : Outcome :=
  match c with
  | .unreadable _ error => .failed error
  | c => .ofAction c.action

def failedNeed? (r : Run) (i : Nat) : Option Nat :=
  (w.needs i).find? fun d => (r.outcome? d).any fun o => !o.isSuccess

def dependencyText (i : Nat) : String := (w.changes[i]?.map (·.resource.text)).getD ""

/-- What is to be done with a change; nothing, while one that it comes after has no outcome. -/
def verdict? (r : Run) (i : Nat) (c : Change) : Option Act :=
  if (w.needs i).any fun d => (r.outcome? d).isNone then none
  else match w.failedNeed? r i with
    | some d => some (.settle i (.skipped (w.dependencyText d)))
    | none => match c.mutation? with
      | some m => some (.call i m)
      | none => some (.settle i (settled c))

/-- What is done on looking at a change: nothing, if it was launched or there is no room. -/
def act? (r : Run) (e : Change × Nat) : Option Act :=
  if r.isLaunched e.2 ∨ w.limit ≤ r.inFlight.length then none else w.verdict? r e.2 e.1

def consider (r : Run) (e : Change × Nat) : Run := (w.act? r e).elim r r.perform

/-- Looks at all changes in their order, unless the run is cancelled. -/
def launch (r : Run) : Run :=
  if r.cancelled then r else w.changes.zipIdx.foldl w.consider r

def ended (i : Nat) (result : Except ClusterError Unit) : Outcome :=
  match result with
  | .ok () => .ofAction ((w.changes[i]?.map (·.action)).getD .unchanged)
  | .error e => .failed e.message

/-- What is done on an event; nothing at the end of a call that is not in flight. -/
def reaction? (r : Run) : Event → Option Act
  | .cancelled => some .cancel
  | .ended i result =>
    if r.inFlight.any (·.1 = i) then some (.settle i (w.ended i result)) else none

def step (r : Run) (e : Event) : Run := (w.reaction? r e).elim r r.perform

/-- The run of a history of events. -/
def replay (r : Run) : List Event → Run
  | [] => w.launch r
  | e :: history => replay (w.step (w.launch r) e) history

def entry (c : Change) (o : Outcome) : Entry := ⟨c.resource, c.action, o⟩

/-- One entry for each change; those without an outcome are cancelled. -/
def entries (r : Run) : List Entry :=
  w.changes.zipIdx.map fun (c, i) => entry c ((r.outcome? i).getD .cancelled)

def finishedEntries (r : Run) : List Entry := r.finished.filterMap ((w.entries r)[·]?)

end Work

end Rollout
