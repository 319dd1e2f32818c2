import Rollout.Apply.Run
import Rollout.Builder
import Rollout.Plan.Change
/-!
Reconciling a build with a cluster: plan, confirm, carry out. Nothing is changed before
a plan that changes something is confirmed; once it is carried out the result is a
report, also where applying is cancelled on the way.
-/

namespace Rollout

def defaultConcurrency : Nat := 4

structure ApplyOptions where
  skipConfirmation : Bool := false
  /-- For namespaced documents that name no namespace. -/
  ns : Option String := none
  /-- Objects that match it and are not in the build are deleted. -/
  pruneSelector : Option String := none
  concurrency : Nat := defaultConcurrency
  /-- How many unchanged lines diffs show around each change. -/
  diffContext : Nat := 3

def ApplyOptions.limit (o : ApplyOptions) : Nat := max o.concurrency 1

namespace Plan

def changeWork (p : Plan) (b : Build) (o : ApplyOptions) : Work :=
  ⟨p.changes, b.dependencies, o.limit⟩

def deleteWork (p : Plan) (o : ApplyOptions) : Work := ⟨p.deletes, p.deleteDependencies, o.limit⟩

end Plan

/-- A cluster as it is applied to, with a state of its own. -/
structure Server (S : Type) where
  get : S → ObjectRef → Except ClusterError (Option Document) × S
  list : S → String → Except ClusterError (List Document) × S
  /-- Waits for what comes next while calls are in flight; tells whether it was already seen
  that applying was cancelled. -/
  await : S → List (Nat × Mutation) → Bool → Event × S
  isCancelled : S → Bool × S

inductive Answer where
  | approved
  | declined
  /-- Applying was cancelled before there was one. -/
  | interrupted
  /-- There is none, because asking failed. -/
  | failed (e : ClusterError)
  deriving DecidableEq

abbrev Confirmation (S : Type) := Plan → S → Answer × S

structure Applied (S : Type) where
  plan : Option Plan := none
  asked : Bool := false
  finished : List Entry := []
  result : Except ClusterError Report
  state : S

namespace Server

variable {S : Type} (server : Server S)

/-- What to do with a document. One whose type is defined by the build may be of a type that
the cluster does not know yet. -/
def planDocument (crds : List CrdRef) (context : Nat) (s : S) (d : Document) : Change × S :=
  let (read, s) := server.get s (d.liveRef crds)
  let change := match read with
    | .ok live => planChange d live context
    | .error (.unknownResource apiVersion kind) =>
      if d.markers.requires.isSome then planChange d none context
      else .unreadable d (ClusterError.unknownResource apiVersion kind).message
    | .error e => .unreadable d e.message
  (change, s)

def planDocuments (crds : List CrdRef) (context : Nat) (s : S) : List Document → List Change × S
  | [] => ([], s)
  | d :: ds =>
    let (c, s) := server.planDocument crds context s d
    let (cs, s) := planDocuments crds context s ds
    (c :: cs, s)

/-- The identities that the documents of a build have in the cluster. -/
def desiredKeys (crds : List CrdRef) (ds : List Document) : List Key :=
  ds.flatMap fun d => [d.key, (d.liveRef crds).key]

/-- Plans a build without changing anything. -/
def plan (b : Build) (o : ApplyOptions) (s : S) : Except ClusterError Plan × S :=
  let crds := b.documents.filterMap Document.crd?
  let (changes, s) := server.planDocuments crds o.diffContext s b.documents
  match o.pruneSelector with
  | none => (.ok { changes := changes }, s)
  | some selector =>
    let (listed, s) := server.list s selector
    let planned := do
      let keys := desiredKeys crds b.documents
      let (deletes, before) ← planDeletes ((← listed).filter fun d => !keys.contains d.key)
      return { changes := changes, deletes := deletes, deleteDependencies := before }
    (planned, s)

/-- A read, while applying is watched for being cancelled. This may be seen before there is an
answer; then it has none, and nothing is read after it. -/
def watch {α : Type} (read : S → Except ClusterError α × S) (x : S × Bool) :
    Except ClusterError α × S × Bool :=
  if x.2 then (.error .cancelled, x)
  else
    let (answer, s) := read x.1
    let (seen, s) := server.isCancelled s
    (if seen then .error .cancelled else answer, s, seen)

/-- The server as a build is planned with it that is to be applied. -/
def watched : Server (S × Bool) where
  get x r := server.watch (server.get · r) x
  list x selector := server.watch (server.list · selector) x
  await x calls seen :=
    let (event, s) := server.await x.1 calls seen
    (event, s, x.2)
  isCancelled x :=
    let (cancelled, s) := server.isCancelled x.1
    (cancelled, s, x.2)

/-- Follows a run until no call is in flight. -/
def follow (w : Work) : Nat → Run → S → Run × S
  | 0, r, s => (w.launch r, s)
  | fuel + 1, r, s =>
    let r := w.launch r
    if r.inFlight.isEmpty then (r, s)
    else
      let (event, s) := server.await s r.inFlight r.cancelled
      follow w fuel (w.step r event) s

/-- Carries out changes. Each has one call at most, and cancelling is seen once. -/
def carryOut (w : Work) (s : S) : Run × S :=
  let (cancelled, s) := server.isCancelled s
  server.follow w (w.changes.length + 1) (w.start cancelled) s

/-- Carries out a plan: the changes, then the deletes. -/
def execute (b : Build) (p : Plan) (o : ApplyOptions) (s : S) : Applied S :=
  let changes := p.changeWork b o
  let deletes := p.deleteWork o
  let (changed, s) := server.carryOut changes s
  let (deleted, s) := server.carryOut deletes s
  let entries := changes.entries changed ++ deletes.entries deleted
  let (cancelled, s) := server.isCancelled s
  { plan := some p, state := s
    finished := changes.finishedEntries changed ++ deletes.finishedEntries deleted
    result := .ok
      { entries := entries, cancelled := cancelled && entries.any (·.outcome = .cancelled) } }

/-- Plans a build, asks for confirmation if something changes, and carries the plan out. -/
def apply (confirm : Confirmation S) (b : Build) (o : ApplyOptions) (s : S) : Applied S :=
  match server.isCancelled s with
  | (true, s) => { result := .error .cancelled, state := s }
  | (false, s) => match server.watched.plan b o (s, false) with
    | (_, s, true) => { result := .error .cancelled, state := s }
    | (.error e, s, false) => { result := .error e, state := s }
    | (.ok p, s, false) =>
      if o.skipConfirmation ∨ !p.hasMutations then server.execute b p o s
      else match server.isCancelled s with
        | (true, s) => { plan := some p, result := .error .cancelled, state := s }
        | (false, s) => match confirm p s with
          | (.approved, s) => { server.execute b p o s with asked := true }
          | (.declined, s) =>
            { plan := some p, asked := true, result := .error .declined, state := s }
          | (.interrupted, s) =>
            { plan := some p, asked := true, result := .error .cancelled, state := s }
          | (.failed e, s) => { plan := some p, asked := true, result := .error e, state := s }

/-- Builds, then applies. A build that fails leaves the cluster alone. -/
def applyBuilder (confirm : Confirmation S) (b : Builder) (o : ApplyOptions) (s : S) : Applied S :=
  match b.build o.ns with
  | .error e => { result := .error (.build e), state := s }
  | .ok build => server.apply confirm build o s

def planBuilder (b : Builder) (o : ApplyOptions) (s : S) : Except ClusterError Plan × S :=
  match b.build o.ns with
  | .error e => (.error (.build e), s)
  | .ok build => server.plan build o s

end Server

end Rollout
