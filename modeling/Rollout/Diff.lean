import Rollout.Diff.Compact
import Rollout.Diff.Shortest
import Rollout.Text.Blank
/-!
Line diffs of two texts: a shortest script between their lines, compacted, of which
only the unchanged lines near a change are shown.
-/

namespace Rollout

namespace Diff

/-- The lines of a text with their ends: a line feed, a carriage return, or both. -/
def textLines : List Char → List (List Char)
  | [] => []
  | '\r' :: '\n' :: r => ['\r', '\n'] :: textLines r
  | c :: r =>
    if c = '\n' ∨ c = '\r' then [c] :: textLines r
    else match textLines r with
      | [] => [[c]]
      | l :: ls => (c :: l) :: ls

/-- A run of kept items, or all that is removed and added between two of them. -/
inductive Run (α : Type) where
  | kept (items : List α)
  | changed (removed added : List α)
  deriving DecidableEq

variable {α : Type}

/-- A script as runs: neighbouring edits are joined, removals in front. -/
def runs : Script α → List (Run α)
  | [] => []
  | .keep items :: s => match runs s with
    | .kept more :: rs => .kept (items ++ more) :: rs
    | rs => .kept items :: rs
  | .remove items :: s => match runs s with
    | .changed removed added :: rs => .changed (items ++ removed) added :: rs
    | rs => .changed items [] :: rs
  | .add items :: s => match runs s with
    | .changed removed added :: rs => .changed removed (items ++ added) :: rs
    | rs => .changed [] items :: rs

inductive Mark where
  | context
  | removed
  | added
  deriving DecidableEq

structure Line (α : Type) where
  mark : Mark
  item : α
  old : Option Nat
  new : Option Nat
  deriving DecidableEq

/-- The lines of items from the given places on. -/
def place (mark : Mark) (inOld inNew : Bool) (i j : Nat) (items : List α) : List (Line α) :=
  items.zipIdx.map fun (item, n) =>
    ⟨mark, item, if inOld then some (i + n) else none, if inNew then some (j + n) else none⟩

/-- The kept lines that are shown, of a run at the beginning, at the end or between: those
near a change. -/
def near (context : Nat) (isFirst isLast : Bool) (ls : List (Line α)) : List (Line α) :=
  if isFirst ∧ isLast then []
  else if isFirst then ls.drop (ls.length - context)
  else if isLast then ls.take context
  else if ls.length ≤ 2 * context then ls
  else ls.take context ++ ls.drop (ls.length - context)

/-- The shown lines of runs from places `i` and `j` on. -/
def shown (context : Nat) : Bool → Nat → Nat → List (Run α) → List (Line α)
  | _, _, _, [] => []
  | isFirst, i, j, .kept items :: rs =>
    near context isFirst rs.isEmpty (place .context true true i j items) ++
      shown context false (i + items.length) (j + items.length) rs
  | _, i, j, .changed removed added :: rs =>
    place .removed true false i j removed ++ place .added false true i j added ++
      shown context false (i + removed.length) (j + added.length) rs

end Diff

abbrev Diff := List (Diff.Line String)

namespace Diff

/-- The compacted shortest script between the lines of two texts. -/
def script (old new : String) : Script (List Char) :=
  compact (shortest (textLines old.toList) (textLines new.toList))

/-- The diff of two texts with so many unchanged lines around each change. -/
def between (old new : String) (context : Nat) : Diff :=
  (shown context true 0 0 (runs (script old new))).map fun l =>
    { l with item := String.ofList (Text.trimEnd l.item) }

def hasChanges (d : Diff) : Bool := d.any fun l => l.mark ≠ .context

def Mark.sign : Mark → String
  | context => " "
  | removed => "-"
  | added => "+"

/-- Each line behind the sign of its mark. -/
def unified (d : Diff) : String := String.join (d.map fun l => l.mark.sign ++ l.item ++ "\n")

end Diff

end Rollout
