import Rollout.Text.Blank
/-!
Version numbers: three numbers, then optional labels of a pre-release and a build.
-/

namespace Rollout

structure Version where
  major : Nat
  minor : Nat
  patch : Nat
  pre : String
  build : String
  deriving DecidableEq

namespace Version

def isLabelCharacter (c : Char) : Bool := c.isAlphanum || c = '-'

/-- A number below `2 ^ 64` without needless zeros. -/
def number? (cs : List Char) : Option Nat :=
  let n := Nat.ofDigitChars 10 cs 0
  if cs.isEmpty ∨ !cs.all Char.isDigit ∨ (1 < cs.length ∧ cs.head? = some '0') ∨
      Nat.pow 2 64 ≤ n then none
  else some n

/-- Labels are not empty. Those of a pre-release that are numbers have no needless zeros. -/
def isLabels (pre : Bool) (cs : List Char) : Bool :=
  (Text.splitOn '.' cs).all fun l =>
    !l.isEmpty && l.all isLabelCharacter &&
      !(pre && l.all Char.isDigit && 1 < l.length && l.head? = some '0')

/-- What follows the numbers: `-` and labels, then `+` and labels. -/
def suffix? (cs : List Char) : Option (String × String) :=
  let body := cs.takeWhile (· ≠ '+')
  let pre := match body with
    | [] => some ""
    | '-' :: r => if isLabels true r then some (String.ofList r) else none
    | _ => none
  let build := match cs.dropWhile (· ≠ '+') with
    | [] => some ""
    | _ :: r => if isLabels false r then some (String.ofList r) else none
  match pre, build with
  | some p, some b => some (p, b)
  | _, _ => none

/-- Reads a version with one to three numbers, after any `v`; missing numbers are zero. -/
def parse? (text : String) : Option Version := do
  let cs := (Text.trim text.toList).dropWhile (· = 'v')
  let isEnd := fun c => c = '-' || c = '+'
  let parts := Text.splitOn '.' (cs.takeWhile fun c => !isEnd c)
  let numbers ← parts.mapM number?
  let (pre, build) ← suffix? (cs.dropWhile fun c => !isEnd c)
  match numbers with
  | [a] => some ⟨a, 0, 0, pre, build⟩
  | [a, b] => some ⟨a, b, 0, pre, build⟩
  | [a, b, c] => some ⟨a, b, c, pre, build⟩
  | _ => none

def text (v : Version) : String :=
  let label := fun (mark s : String) => if s.isEmpty then "" else mark ++ s
  s!"{v.major}.{v.minor}.{v.patch}" ++ label "-" v.pre ++ label "+" v.build

end Version

end Rollout
