import Rollout.Value
import Rollout.Yaml.Cursor
/-!
What a plain scalar means: null, a boolean, a number, or its own text.
-/

namespace Rollout.Yaml

/-- The meaning of a plain scalar. Words beyond 64 bits are told apart: within 128 bits
they are refused, beyond that they are read as floating-point numbers. -/
inductive Meaning where
  | null
  | bool (b : Bool)
  | number (n : Number)
  | infiniteOrNaN
  | largeWord
  | text
  deriving DecidableEq

def isNullText (s : String) : Bool := s = "null" || s = "Null" || s = "NULL" || s = "~"

def bool? (s : String) : Option Bool :=
  if s = "true" ∨ s = "True" ∨ s = "TRUE" then some true
  else if s = "false" ∨ s = "False" ∨ s = "FALSE" then some false
  else none

/-- A run of digits with a needless zero in front, which is text and no number. -/
def isZeroPadded (cs : List Char) : Bool :=
  let cs := match cs with
    | '-' :: r | '+' :: r => r
    | _ => cs
  match cs with
  | '0' :: d :: r => (d :: r).all Char.isDigit
  | _ => false

def digitValue? (base : Nat) (c : Char) : Option Nat :=
  let v := if c.isDigit then some (c.toNat - '0'.toNat)
    else if 'a' ≤ c ∧ c ≤ 'z' then some (c.toNat - 'a'.toNat + 10)
    else if 'A' ≤ c ∧ c ≤ 'Z' then some (c.toNat - 'A'.toNat + 10)
    else none
  v.filter (· < base)

def natOf? (base : Nat) (cs : List Char) : Option Nat :=
  if cs.isEmpty then none
  else (cs.mapM (digitValue? base)).map fun ds => ds.foldl (fun v d => v * base + d) 0

/-- An integer without its sign: after `0x`, `0o` or `0b`, or decimal without a needless zero. -/
def magnitude? (cs : List Char) : Option Nat :=
  match cs with
  | '0' :: 'x' :: r => natOf? 16 r
  | '0' :: 'o' :: r => natOf? 8 r
  | '0' :: 'b' :: r => natOf? 2 r
  | _ => if isZeroPadded cs then none else natOf? 10 cs

def integer? (cs : List Char) : Option Int :=
  match cs with
  | '-' :: r => (magnitude? r).map fun n => -(n : Int)
  | '+' :: r => (magnitude? r).map fun n => n
  | _ => (magnitude? cs).map fun n => n

/-- Digits, a fraction and an exponent; at least one digit before the exponent. -/
def decimal? (cs : List Char) : Option (Nat × Int) := do
  let whole := cs.takeWhile Char.isDigit
  let (fraction, rest) := match cs.dropWhile Char.isDigit with
    | '.' :: r => (r.takeWhile Char.isDigit, r.dropWhile Char.isDigit)
    | r => ([], r)
  if whole.isEmpty ∧ fraction.isEmpty then none
  let digits := Nat.ofDigitChars 10 (whole ++ fraction) 0
  let power : Int := -fraction.length
  match rest with
  | [] => return (digits, power)
  | e :: r =>
    if e ≠ 'e' ∧ e ≠ 'E' then none
    let (down, r) := match r with
      | '-' :: r => (true, r)
      | '+' :: r => (false, r)
      | _ => (false, r)
    let n : Int ← natOf? 10 r
    return (digits, if down then power - n else power + n)

/-- The finite floating-point number a plain scalar writes. -/
def float? (cs : List Char) : Option Binary64 := do
  let (negative, cs) := match cs with
    | '-' :: r => (true, r)
    | '+' :: r => (false, r)
    | _ => (false, cs)
  let (digits, power) ← decimal? cs
  Binary64.ofDecimal? negative digits power

/-- The forms of infinity and of what is not a number; neither has a value in a tree. -/
def isInfiniteOrNaN (s : String) : Bool :=
  [".inf", ".Inf", ".INF", "+.inf", "+.Inf", "+.INF", "-.inf", "-.Inf", "-.INF",
    ".nan", ".NaN", ".NAN"].contains s

/-- The meaning of an integer, by the width of the words that hold it. -/
def integerMeaning? (cs : List Char) : Option Meaning := do
  let n ← integer? cs
  if -(Nat.pow 2 63 : Int) ≤ n ∧ n < Nat.pow 2 64 then some (.number (.whole n))
  else if -(Nat.pow 2 127 : Int) ≤ n ∧ n < Nat.pow 2 128 then some .largeWord
  else none

def floatMeaning? (s : String) : Option Meaning :=
  if isInfiniteOrNaN s then some .infiniteOrNaN
  else (float? s.toList).map fun x => .number (.float x)

def meaning (s : String) : Meaning :=
  if s.isEmpty ∨ isNullText s then .null
  else match bool? s with
    | some b => .bool b
    | none =>
      match integerMeaning? s.toList with
      | some m => m
      | none => if isZeroPadded s.toList then .text else (floatMeaning? s).getD .text

end Rollout.Yaml
