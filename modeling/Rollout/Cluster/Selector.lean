import Rollout.Text.Blank
/-!
Label selectors: requirements separated by commas, all of which must hold.
-/

namespace Rollout

/-- `key!=value`, `key==value` or `key=value`, `!key`, and `key`. -/
inductive Requirement where
  | equals (key value : String)
  | differs (key value : String)
  | present (key : String)
  | absent (key : String)
  deriving DecidableEq

namespace Requirement

/-- What is before and after the first occurrence of a mark. -/
def cut? (mark : List Char) : List Char → Option (List Char × List Char)
  | [] => none
  | c :: r =>
    if mark.isPrefixOf (c :: r) then some ([], (c :: r).drop mark.length)
    else (cut? mark r).map fun (a, b) => (c :: a, b)

def trimmed (cs : List Char) : String := String.ofList (Text.trim cs)

/-- Reads a requirement that has no blanks around it. -/
def parse (cs : List Char) : Requirement :=
  match cut? ['!', '='] cs, cut? ['=', '='] cs, cut? ['='] cs with
  | some (k, v), _, _ => differs (trimmed k) (trimmed v)
  | none, some (k, v), _ | none, none, some (k, v) => equals (trimmed k) (trimmed v)
  | none, none, none =>
    match cs with
    | '!' :: k => absent (trimmed k)
    | _ => present (String.ofList cs)

def value? (key : String) (labels : List (String × String)) : Option String :=
  (labels.find? (·.1 = key)).map (·.2)

def holds (labels : List (String × String)) : Requirement → Bool
  | equals key value => value? key labels == some value
  | differs key value => value? key labels != some value
  | present key => (value? key labels).isSome
  | absent key => (value? key labels).isNone

end Requirement

/-- The requirements of a selector; empty ones say nothing. -/
def selectorRequirements (selector : String) : List Requirement :=
  (((Text.splitOn ',' selector.toList).map Text.trim).filter (!·.isEmpty)).map Requirement.parse

def selectorMatches (selector : String) (labels : List (String × String)) : Bool :=
  (selectorRequirements selector).all (Requirement.holds labels)

end Rollout
