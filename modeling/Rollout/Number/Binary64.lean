/-!
Finite binary floating-point numbers with 53 bits of significand, and the
rounding of exact quotients to them. Everything is natural-number arithmetic.
-/

namespace Rollout

/-- The number `± significand · 2 ^ exponent`. Every function of this module
returns the one form with `significand < 2 ^ 53`, `-1074 ≤ exponent ≤ 971`, and
`2 ^ 52 ≤ significand` unless `exponent = -1074`. -/
structure Binary64 where
  negative : Bool
  significand : Nat
  exponent : Int
  deriving DecidableEq, Repr

/-- The quotient to the nearest integer, a half going to the even neighbour. -/
def roundHalfEven (num den : Nat) : Nat :=
  let whole := num / den
  let rest := 2 * (num % den)
  if den < rest ∨ (rest = den ∧ whole % 2 = 1) then whole + 1 else whole

namespace Binary64

def zero (negative : Bool) : Binary64 := ⟨negative, 0, -1074⟩

def isZero (x : Binary64) : Bool := x.significand == 0

/-- Equality of values: the two zeros are equal. -/
def equal (x y : Binary64) : Bool := x == y || (x.isZero && y.isZero)

/-- `num / den` over `2 ^ q`, as a quotient of naturals. -/
def scaled (num den : Nat) (q : Int) : Nat × Nat :=
  if q < 0 then (num * Nat.pow 2 (-q).toNat, den) else (num, den * Nat.pow 2 q.toNat)

/-- The exponent that leaves 53 bits before the point, but never below `-1074`. -/
def exponentOf (num den : Nat) : Int :=
  let guess : Int := (num.log2 : Int) - den.log2 - 52
  let (n, d) := scaled num den guess
  max (if n < d * Nat.pow 2 52 then guess - 1 else guess) (-1074)

/-- The nearest number to `± num / den`, a tie going to the even significand;
`none` when it lies beyond the largest one. -/
def ofRatio? (negative : Bool) (num den : Nat) : Option Binary64 :=
  if num = 0 then some (zero negative) else
  let q := exponentOf num den
  let (n, d) := scaled num den q
  let m := roundHalfEven n d
  let (m, q) := if m = Nat.pow 2 53 then (Nat.pow 2 52, q + 1) else (m, q)
  if q > 971 then none else some ⟨negative, m, q⟩

def ratio (x : Binary64) : Nat × Nat :=
  if x.exponent < 0 then (x.significand, Nat.pow 2 (-x.exponent).toNat)
  else (x.significand * Nat.pow 2 x.exponent.toNat, 1)

def mul? (x y : Binary64) : Option Binary64 :=
  let (a, b) := x.ratio
  let (c, d) := y.ratio
  ofRatio? (x.negative != y.negative) (a * c) (b * d)

/-- The rounded quotient by a number that is not zero. -/
def div? (x y : Binary64) : Option Binary64 :=
  let (a, b) := x.ratio
  let (c, d) := y.ratio
  ofRatio? (x.negative != y.negative) (a * d) (b * c)

/-- The nearest number to `± digits · 10 ^ power`. Powers far beyond the range are told by
the place of the leading digit alone. -/
def ofDecimal? (negative : Bool) (digits : Nat) (power : Int) : Option Binary64 :=
  let lead : Int := (Nat.toDigits 10 digits).length + power
  if digits = 0 ∨ lead < -330 then some (zero negative)
  else if 330 < lead then none
  else if power < 0 then ofRatio? negative digits (Nat.pow 10 (-power).toNat)
  else ofRatio? negative (digits * Nat.pow 10 power.toNat) 1

end Binary64

end Rollout
