import Rollout.Diff.Script
/-!
Compacting edit scripts: removals and additions are moved towards others of their
kind and joined with them. An addition moves past kept items that it begins or ends
with; a removal moves past additions only.
-/

namespace Rollout.Diff

variable {α : Type} [DecidableEq α]

/-- An edit in its place in a script: what is before it, nearest first, and what is after. -/
structure Focus (α : Type) where
  before : Script α
  here : Edit α
  after : Script α

/-- Kept items in front of a script. -/
def keepBefore (items : List α) : Script α → Script α
  | .keep more :: rest => .keep (items ++ more) :: rest
  | rest => .keep items :: rest

/-- Kept items at the end of a script given backwards. -/
def keepAfter (items : List α) : Script α → Script α
  | .keep more :: rest => .keep (more ++ items) :: rest
  | rest => .keep items :: rest

/-- Bounds the moves of an edit across a script. -/
def weight : Script α → Nat
  | [] => 0
  | e :: s => e.old.length + e.new.length + 1 + weight s

/-- Moves an edit towards the beginning as far as it goes. -/
def moveUp : Script α → Edit α → Script α → Focus α
  | [], e, after => ⟨[], e, after⟩
  | .keep items :: before, .add added, after =>
    let n := sharedEnd items added
    let rest := items.take (items.length - n)
    let shared := items.drop (items.length - n)
    let turned := shared ++ added.take (added.length - n)
    if n = 0 then ⟨.keep items :: before, .add added, after⟩
    else if rest = [] then moveUp before (.add turned) (keepBefore shared after)
    else moveUp (.keep rest :: before) (.add turned) (keepBefore shared after)
  | .keep items :: before, e, after => ⟨.keep items :: before, e, after⟩
  | .add items :: before, .add added, after => moveUp before (.add (items ++ added)) after
  | .remove items :: before, .remove removed, after =>
    moveUp before (.remove (items ++ removed)) after
  | other :: before, e, after => moveUp before e (other :: after)
termination_by before => weight before
decreasing_by
  all_goals simp only [weight, Edit.old, Edit.new]
  all_goals try omega
  · have := (sharedEnd_le items added).1
    have : 0 < sharedEnd items added := by omega
    simp only [List.length_take]
    omega

/-- Moves an edit towards the end as far as it goes. -/
def moveDown : Script α → Edit α → Script α → Focus α
  | before, e, [] => ⟨before, e, []⟩
  | before, .add added, .keep items :: after =>
    let n := sharedStart items added
    let rest := items.drop n
    let shared := items.take n
    let turned := added.drop n ++ shared
    if n = 0 then ⟨before, .add added, .keep items :: after⟩
    else if rest = [] then moveDown (keepAfter shared before) (.add turned) after
    else moveDown (keepAfter shared before) (.add turned) (.keep rest :: after)
  | before, e, .keep items :: after => ⟨before, e, .keep items :: after⟩
  | before, .add added, .add items :: after => moveDown before (.add (added ++ items)) after
  | before, .remove removed, .remove items :: after =>
    moveDown before (.remove (removed ++ items)) after
  | before, e, other :: after => moveDown (other :: before) e after
termination_by _ _ after => weight after
decreasing_by
  all_goals simp only [weight, Edit.old, Edit.new]
  all_goals try omega
  · have := (sharedStart_le items added).1
    have : 0 < sharedStart items added := by omega
    simp only [List.length_drop]
    omega

def countKind (k : Kind) : Script α → Nat
  | [] => 0
  | e :: s => (if e.kind = k then 1 else 0) + countKind k s

omit [DecidableEq α] in
theorem countKind_keepBefore {k : Kind} (h : k ≠ .kept) (items : List α) (s : Script α) :
    countKind k (keepBefore items s) = countKind k s := by
  fun_cases keepBefore items s <;> simp [countKind, Edit.kind, Ne.symm h]

/-- Moving an edit up leaves the number of edits of its kind after it. -/
theorem countKind_after_moveUp (before : Script α) (e : Edit α) (after : Script α) :
    countKind e.kind (moveUp before e after).after = countKind e.kind after := by
  fun_induction moveUp before e after with
  | case8 =>
    simp only [countKind, Edit.kind] at *
    grind
  | _ => simp_all [Edit.kind, countKind_keepBefore]

/-- Moving an edit down adds none of its kind after it. -/
theorem countKind_after_moveDown (before : Script α) (e : Edit α) (after : Script α) :
    countKind e.kind (moveDown before e after).after ≤ countKind e.kind after := by
  fun_induction moveDown before e after <;> simp only [Edit.kind, countKind] at * <;> grind

theorem kind_moveUp (before : Script α) (e : Edit α) (after : Script α) :
    (moveUp before e after).here.kind = e.kind := by
  fun_induction moveUp before e after <;> simp_all [Edit.kind]

/-- Compacts the edits of one kind; the first script is done, and given backwards. -/
def compactKind (k : Kind) : Script α → Script α → Script α
  | before, [] => before.reverse
  | before, e :: after =>
    if _h : e.kind = k then
      let up := moveUp before e after
      let down := moveDown up.before up.here up.after
      compactKind k (down.here :: down.before) down.after
    else compactKind k (e :: before) after
termination_by _ rest => (countKind k rest, rest.length)
decreasing_by
  · have h1 := countKind_after_moveUp before e after
    have h2 := countKind_after_moveDown up.before up.here up.after
    rw [kind_moveUp] at h2
    simp only [_h, countKind, up, if_true] at *
    exact Prod.Lex.left _ _ (by omega)
  · simp only [countKind, if_neg _h, Nat.zero_add]
    exact Prod.Lex.right _ (by simp)

/-- Compacts the removals of a script, then the additions. -/
def compact (s : Script α) : Script α := compactKind .added [] (compactKind .removed [] s)

end Rollout.Diff
