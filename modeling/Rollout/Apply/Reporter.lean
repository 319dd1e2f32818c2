import Rollout.Apply.Engine
/-!
What is said while a plan is applied, line by line and without colours.
-/

namespace Rollout

structure Reporter where
  showDiffs : Bool := true
  /-- Tell of unchanged documents too. -/
  verbose : Bool := false

def Action.symbol : Action → String
  | .unchanged => "="
  | .create => "+"
  | .update => "~"
  | .delete => "-"

def Outcome.symbol : Outcome → String
  | .unchanged => "●"
  | .created | .updated | .deleted => "✓"
  | .failed _ => "✗"
  | .skipped _ | .cancelled => "⊘"

namespace Reporter

variable (r : Reporter)

def diffLines (c : Change) : List String :=
  match c.diff? with
  | some d => if r.showDiffs then d.map fun l => "      " ++ l.mark.sign ++ l.item else []
  | none => []

def changeLines (c : Change) : List String :=
  match c.error? with
  | some e => [s!"  ✗ {c.resource.text} - {e}"]
  | none =>
    if c.action = .unchanged ∧ !r.verbose then []
    else s!"  {c.action.symbol} {c.action.text} {c.resource.text}" :: r.diffLines c

def planLines (p : Plan) : List String :=
  "Planned changes:" :: p.all.flatMap r.changeLines ++ ["", "Plan: " ++ p.summary]

def entryLines (e : Entry) : List String :=
  if e.outcome = .unchanged ∧ !r.verbose then []
  else [s!"  {e.outcome.symbol} {e.resource.text} - {e.outcome.text}"]

/-- The last lines, with the time that was taken. -/
def summaryLines (report : Report) (elapsed : String) : List String :=
  let verdict :=
    if report.cancelled then "⊘ Apply cancelled"
    else if report.isSuccess then "✓ Apply complete"
    else "✗ Apply finished with failures"
  ["", s!"{verdict}: {report.summary} ({elapsed})"]

/-- All that is said of applying: the plan, each entry as it ends, and the summary. -/
def narration {S : Type} (a : Applied S) (elapsed : String) : List String :=
  let summary := match a.result with
    | .ok report => summaryLines report elapsed
    | .error _ => []
  (a.plan.map r.planLines).getD [] ++ a.finished.flatMap r.entryLines ++ summary

def infoLine (message : String) : String := "  ℹ " ++ message

def warnLine (message : String) : String := "  ⚠ " ++ message

end Reporter

end Rollout
