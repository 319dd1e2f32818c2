/-!
Edit scripts: what is kept, removed and added to make one list of another. A script
carries the items it speaks of, so both lists can be read off it.
-/

namespace Rollout.Diff

variable {α : Type}

/-- One step of a script, over a run of items. -/
inductive Edit (α : Type) where
  | keep (items : List α)
  | remove (items : List α)
  | add (items : List α)
  deriving DecidableEq

inductive Kind where
  | kept
  | removed
  | added
  deriving DecidableEq

def Edit.kind : Edit α → Kind
  | keep _ => .kept
  | remove _ => .removed
  | add _ => .added

/-- The items an edit takes from the old list. -/
def Edit.old : Edit α → List α
  | keep items | remove items => items
  | add _ => []

/-- The items an edit gives to the new list. -/
def Edit.new : Edit α → List α
  | keep items | add items => items
  | remove _ => []

abbrev Script (α : Type) := List (Edit α)

namespace Script

def old (s : Script α) : List α := s.flatMap Edit.old

def new (s : Script α) : List α := s.flatMap Edit.new

theorem old_append (s t : Script α) : old (s ++ t) = old s ++ old t := by
  simp [old]

theorem new_append (s t : Script α) : new (s ++ t) = new s ++ new t := by
  simp [new]

end Script

variable [DecidableEq α]

/-- The number of items with which two lists begin alike. -/
def sharedStart : List α → List α → Nat
  | a :: as, b :: bs => if a = b then sharedStart as bs + 1 else 0
  | _, _ => 0

/-- The number of items with which two lists end alike. -/
def sharedEnd (as bs : List α) : Nat := sharedStart as.reverse bs.reverse

theorem take_sharedStart (as bs : List α) :
    as.take (sharedStart as bs) = bs.take (sharedStart as bs) := by
  fun_induction sharedStart as bs <;> simp_all

theorem sharedStart_le (as bs : List α) :
    sharedStart as bs ≤ as.length ∧ sharedStart as bs ≤ bs.length := by
  fun_induction sharedStart as bs <;> simp_all

theorem sharedEnd_le (as bs : List α) :
    sharedEnd as bs ≤ as.length ∧ sharedEnd as bs ≤ bs.length := by
  simpa [sharedEnd] using sharedStart_le as.reverse bs.reverse

end Rollout.Diff
