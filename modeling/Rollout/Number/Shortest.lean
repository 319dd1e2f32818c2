import Rollout.Number.Binary64
/-!
The shortest decimal text that reads back as a given floating-point number,
and of those the nearest to it.
-/

namespace Rollout

structure Decimal where
  digits : Nat
  power : Int
  deriving DecidableEq, Repr

namespace Binary64

/-- Twice the widths of the reals below and above a number that round to it, in
units of `2 ^ exponent / 4`: numbers just below a power of two lie closer. -/
def reach (x : Binary64) : Nat × Nat :=
  if x.significand = Nat.pow 2 52 ∧ x.exponent > -1074 then (1, 2) else (2, 2)

/-- Four times a magnitude `num / den`, in units of `2 ^ exponent`. -/
def quarters (x : Binary64) (d : Decimal) : Nat × Nat :=
  let (n, e) := if d.power < 0 then (d.digits, Nat.pow 10 (-d.power).toNat)
    else (d.digits * Nat.pow 10 d.power.toNat, 1)
  let (n, e) := scaled n e x.exponent
  (4 * n, e)

/-- Whether a decimal reads back as `x`: it lies strictly between the midpoints
to the neighbours, or on one of them when the significand is even. -/
def readsBack (x : Binary64) (d : Decimal) : Bool :=
  let (n, e) := x.quarters d
  let low := (4 * x.significand - x.reach.1) * e
  let high := (4 * x.significand + x.reach.2) * e
  if x.significand % 2 = 0 then low ≤ n && n ≤ high else low < n && n < high

/-- Four times the distance of a decimal from `x`, over the decimal's own denominator. -/
def distance (x : Binary64) (d : Decimal) : Nat :=
  let (n, e) := x.quarters d
  let v := 4 * x.significand * e
  if n < v then v - n else n - v

/-- The power of ten of the leading digit of `num / den`. -/
def leadingPower (num den : Nat) : Int :=
  let rec climb : Nat → Nat → Nat → Int
    | 0, _, _ => 0
    | fuel + 1, n, d => if 10 * d ≤ n then 1 + climb fuel n (10 * d) else 0
  let rec fall : Nat → Nat → Nat → Int
    | 0, _, _ => 0
    | fuel + 1, n, d => if n < d then fall fuel (10 * n) d - 1 else 0
  if num < den then fall 400 num den else climb 400 num den

/-- The neighbours of `x` on the grid of multiples of `10 ^ power`. -/
def gridNeighbours (x : Binary64) (power : Int) : Decimal × Decimal :=
  let (n, d) := x.ratio
  let (n, d) := if power < 0 then (n * Nat.pow 10 (-power).toNat, d)
    else (n, d * Nat.pow 10 power.toNat)
  (⟨n / d, power⟩, ⟨n / d + 1, power⟩)

/-- On a grid, the nearer neighbour that reads back; on an exact tie the even one. -/
def nearestOn (x : Binary64) (power : Int) : Option Decimal :=
  let (low, high) := x.gridNeighbours power
  match x.readsBack low, x.readsBack high with
  | false, false => none
  | true, false => some low
  | false, true => some high
  | true, true =>
    let (below, above) := (x.distance low, x.distance high)
    if below < above ∨ (below = above ∧ low.digits % 2 = 0) then some low else some high

/-- Seventeen digits always suffice, so the first coarse enough grid is met. -/
def shortest (x : Binary64) : Decimal :=
  let (n, d) := x.ratio
  let lead := leadingPower n d
  let rec search : Nat → Int → Decimal
    | 0, power => (x.gridNeighbours power).1
    | fuel + 1, power => (x.nearestOn power).getD (search fuel (power - 1))
  search 17 lead

def trimZeros (d : Decimal) : Decimal :=
  let rec strip : Nat → Nat → Int → Decimal
    | 0, n, p => ⟨n, p⟩
    | fuel + 1, n, p => if n ≠ 0 ∧ n % 10 = 0 then strip fuel (n / 10) (p + 1) else ⟨n, p⟩
  strip 400 d.digits d.power

end Binary64

/-- How a floating-point number is laid out. -/
structure DecimalLayout where
  /-- Positional while the point stands at most so many digits after the first. -/
  wholeDigits : Int
  /-- Positional while at most so many zeros follow the point. -/
  leadingZeros : Int
  /-- Whether an exponent that is not negative has a sign. -/
  plusSign : Bool

def zeros (n : Int) : List Char := List.replicate n.toNat '0'

def DecimalLayout.exponent (f : DecimalLayout) (e : Int) : List Char :=
  'e' :: (if f.plusSign ∧ 0 ≤ e then ['+'] else []) ++ (toString e).toList

/-- Positional text has a fraction, if only `.0`; other text has an exponent. -/
def DecimalLayout.lay (f : DecimalLayout) (d : Decimal) : List Char :=
  let digits := Nat.toDigits 10 d.digits
  let count : Int := digits.length
  let point := count + d.power
  if 0 ≤ d.power ∧ point ≤ f.wholeDigits then digits ++ zeros d.power ++ ['.', '0']
  else if 0 < point ∧ point ≤ f.wholeDigits then
    digits.take point.toNat ++ ['.'] ++ digits.drop point.toNat
  else if -f.leadingZeros ≤ point ∧ point ≤ 0 then ['0', '.'] ++ zeros (-point) ++ digits
  else match digits with
    | first :: second :: rest => first :: '.' :: second :: rest ++ f.exponent (point - 1)
    | _ => digits ++ f.exponent (point - 1)

/-- The shortest text that reads back as the same number. -/
def Binary64.text (f : DecimalLayout) (x : Binary64) : List Char :=
  (if x.negative then ['-'] else []) ++
    (if x.isZero then ['0', '.', '0'] else f.lay (trimZeros x.shortest))

end Rollout
