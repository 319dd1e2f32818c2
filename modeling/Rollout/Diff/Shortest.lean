import Rollout.Diff.Script
/-!
Shortest edit scripts. Paths through the grid of both lists are followed from both
corners, one edit more at a time, until they meet; the grid is divided there.
-/

namespace Rollout.Diff

variable {α : Type} [DecidableEq α]

/-- How far paths of `d` edits reach, from diagonal `d` down to `-d` in steps of two. The
diagonal of a path is what it has passed of the old list less what it has of the new. -/
abbrev Frontier := List Nat

namespace Frontier

def diagonals (d : Nat) : List Int :=
  (List.range (d + 1)).map fun (i : Nat) => (d : Int) - 2 * (i : Int)

/-- How far the path on a diagonal reaches; `none` off the frontier. -/
def reach? (d : Nat) (f : Frontier) (k : Int) : Option Nat :=
  if k.natAbs ≤ d then f[((d - k) / 2).toNat]? else none

/-- From neighbouring paths the one that is further; an old item is passed from the lower
diagonal. -/
def between : List Nat → List Nat
  | a :: b :: rest => (if b < a then a else b + 1) :: between (b :: rest)
  | _ => []

/-- Where paths begin that have one edit more, before they follow equal items. -/
def step (f : Frontier) : List Nat :=
  match f, f.getLast? with
  | a :: _, some z => (a + 1) :: between f ++ [z]
  | _, _ => [0]

/-- Follows equal items from the place a path has reached on a diagonal. -/
def slide (old new : List α) (k : Int) (x : Nat) : Nat :=
  x + sharedStart (old.drop x) (new.drop (x - k).toNat)

/-- The next frontier: where its paths begin and where they end. -/
def next (old new : List α) (d : Nat) (starts : List Nat) : Frontier :=
  List.zipWith (slide old new) (diagonals d) starts

end Frontier

open Frontier

/-- Whether `d` edits from one corner and `e` from the other meet on a diagonal. -/
def meets (n m : Nat) (e : Nat) (other : Frontier) (k : Int) (x : Nat) : Bool :=
  (reach? e other (n - m - k)).any fun y => n ≤ x + y

/-- The place where paths from both corners first meet, after `d` edits from the first; the
frontiers of both corners have `d` edits less one. -/
def meeting (old new : List α) : Nat → Nat → Frontier → Frontier → Option (Nat × Nat)
  | 0, _, _, _ => none
  | fuel + 1, d, forward, backward =>
    let n := old.length
    let m := new.length
    let even := (n + m) % 2 = 0
    let starts := forward.step
    let forward' := next old new d starts
    let found := if even ∨ d = 0 then none else
      ((diagonals d).zip (starts.zip forward')).find? fun (k, _, x) => meets n m (d - 1) backward k x
    match found with
    | some (k, x, _) => some (x, (x - k).toNat)
    | none =>
      let backward' := next old.reverse new.reverse d backward.step
      let found := if even then
        ((diagonals d).zip backward').find? fun (k, x) => meets n m d forward' k x
      else none
      match found with
      | some (k, x) => some (n - x, m - (x - k).toNat)
      | none => meeting old new fuel (d + 1) forward' backward'

/-- Both halves of the edits are needed at most. -/
def middle (old new : List α) : Option (Nat × Nat) :=
  meeting old new ((old.length + new.length + 1) / 2 + 1) 0 [] []

def kept (items : List α) : Script α := if items.isEmpty then [] else [.keep items]

/-- Two lists without what they begin and end with alike. -/
structure Trimmed (α : Type) where
  start : List α
  old : List α
  new : List α
  rest : List α

def trim (old new : List α) : Trimmed α :=
  let n := sharedStart old new
  let m := sharedEnd (old.drop n) (new.drop n)
  { start := old.take n
    old := (old.drop n).take ((old.drop n).length - m)
    new := (new.drop n).take ((new.drop n).length - m)
    rest := (old.drop n).drop ((old.drop n).length - m) }

theorem length_trim_le (old new : List α) :
    (trim old new).old.length + (trim old new).new.length ≤ old.length + new.length := by
  simp only [trim, List.length_take, List.length_drop]
  omega

/-- Whether a place divides the grid of two lists into smaller ones. -/
def divides (x y : Nat) (old new : List α) : Bool :=
  0 < x + y ∧ x ≤ old.length ∧ y ≤ new.length ∧ x + y < old.length + new.length

def shortest (old new : List α) : Script α :=
  let t := trim old new
  let inner : Script α :=
    if t.old.isEmpty ∧ t.new.isEmpty then []
    else if t.new.isEmpty then [.remove t.old]
    else if t.old.isEmpty then [.add t.new]
    else match middle t.old t.new with
      | none => [.remove t.old, .add t.new]
      | some (x, y) =>
        if _h : divides x y t.old t.new then
          shortest (t.old.take x) (t.new.take y) ++ shortest (t.old.drop x) (t.new.drop y)
        else [.remove t.old, .add t.new]
  kept t.start ++ inner ++ kept t.rest
termination_by old.length + new.length
decreasing_by
  all_goals
    have := length_trim_le old new
    simp only [divides, decide_eq_true_eq, t] at _h
    simp only [List.length_take, List.length_drop]
    omega

end Rollout.Diff
