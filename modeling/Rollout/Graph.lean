/-!
Graphs of "must come after" relations between prioritized nodes, and their order:
of the nodes that are ready, the one with the lowest priority comes next, and of
equal ones the one added first.
-/

namespace Rollout

/-- Nodes are numbered from zero. -/
structure Graph (P : Type) where
  priorities : List P
  /-- For each node the nodes it must come after, ascending. -/
  dependencies : List (List Nat)

namespace Graph

variable {P : Type}

/-- Inserts into an ascending list, once. -/
def insertIndex (i : Nat) : List Nat → List Nat
  | [] => [i]
  | j :: js => if i < j then i :: j :: js else if i = j then j :: js else j :: insertIndex i js

def dependenciesOf (edges : List (Nat × Nat)) (node : Nat) : List Nat :=
  (edges.filter fun e => e.1 = node ∧ e.2 ≠ node).foldl (fun ds e => insertIndex e.2 ds) []

/-- The graph with the given edges from nodes to what they must come after. An edge from a
node to itself says nothing. -/
def ofEdges (priorities : List P) (edges : List (Nat × Nat)) : Graph P where
  priorities := priorities
  dependencies := (List.range priorities.length).map (dependenciesOf edges)

variable (g : Graph P)

def size : Nat := g.priorities.length

def needs (node : Nat) : List Nat := g.dependencies[node]?.getD []

def dependents (node : Nat) : List Nat :=
  (List.range g.size).filter fun i => (g.needs i).contains node

structure Placing where
  /-- For each node how many of the nodes it waits for are not yet placed. -/
  waiting : List Nat
  /-- The nodes that wait for none and are not yet placed. -/
  ready : List Nat
  /-- The placed nodes, last first. -/
  placed : List Nat

def start : Placing :=
  let waiting := g.dependencies.map List.length
  { waiting := waiting, placed := []
    ready := (List.range g.size).filter fun i => waiting[i]?.getD 0 = 0 }

variable [Ord P]

def precedes (i j : Nat) : Bool :=
  match g.priorities[i]?, g.priorities[j]? with
  | some p, some q =>
    match compare p q with
    | .lt => true
    | .eq => i < j
    | .gt => false
  | _, _ => i < j

def first : List Nat → Option Nat
  | [] => none
  | i :: is =>
    match first is with
    | none => some i
    | some j => if g.precedes j i then some j else some i

/-- Places a node; its dependents wait for one node less. -/
def place (s : Placing) (node : Nat) : Placing :=
  let after := g.dependents node
  let waiting := s.waiting.zipIdx.map fun (w, i) => if after.contains i then w - 1 else w
  { waiting := waiting, placed := node :: s.placed
    ready := s.ready.erase node ++ after.filter fun i => waiting[i]?.getD 0 = 0 }

def run : Nat → Placing → Placing
  | 0, s => s
  | fuel + 1, s =>
    match g.first s.ready with
    | none => s
    | some node => run fuel (g.place s node)

/-- Drops the nodes that nothing left depends on, until there are none. -/
def peel : Nat → List Nat → List Nat
  | 0, left => left
  | fuel + 1, left =>
    let kept := left.filter fun i => (g.dependents i).any left.contains
    if kept.length = left.length then left else peel fuel kept

/-- All nodes, each after those it must come after; or, where there is no such order, the
nodes on cycles or between them, ascending. -/
def sort : Except (List Nat) (List Nat) :=
  let s := g.run g.size g.start
  if s.placed.length = g.size then .ok s.placed.reverse
  else .error (g.peel g.size ((List.range g.size).filter fun i => s.waiting[i]?.getD 0 ≠ 0))

end Graph

end Rollout
