import Rollout.Text.Blank
/-!
Points in time as objects carry them: a date and a time of day with an offset, kept in
whole seconds of universal time.
-/

namespace Rollout

structure Instant where
  year : Nat
  month : Nat
  day : Nat
  hour : Nat
  minute : Nat
  second : Nat
  deriving DecidableEq

namespace Instant

def isLeapYear (year : Nat) : Bool := year % 4 == 0 && (year % 100 != 0 || year % 400 == 0)

def daysInMonth (year month : Nat) : Nat :=
  if month = 2 then if isLeapYear year then 29 else 28
  else if [4, 6, 9, 11].contains month then 30
  else 31

def isValid (t : Instant) : Bool :=
  1 ≤ t.month && t.month ≤ 12 && 1 ≤ t.day && t.day ≤ daysInMonth t.year t.month &&
    t.hour ≤ 23 && t.minute ≤ 59 && t.second ≤ 59

def nextDay (t : Instant) : Instant :=
  if t.day < daysInMonth t.year t.month then { t with day := t.day + 1 }
  else if t.month < 12 then { t with month := t.month + 1, day := 1 }
  else { t with year := t.year + 1, month := 1, day := 1 }

def previousDay (t : Instant) : Instant :=
  if 1 < t.day then { t with day := t.day - 1 }
  else if 1 < t.month then { t with month := t.month - 1, day := daysInMonth t.year (t.month - 1) }
  else { t with year := t.year - 1, month := 12, day := 31 }

/-- The same point in time without an offset. An offset is less than a day. -/
def toUniversal (t : Instant) (offsetMinutes : Int) : Instant :=
  let minutes : Int := t.hour * 60 + t.minute - offsetMinutes
  let t := if minutes < 0 then t.previousDay else if 1440 ≤ minutes then t.nextDay else t
  let minutes := (minutes % 1440).toNat
  { t with hour := minutes / 60, minute := minutes % 60 }

/-- A number of so many digits, and what follows it. -/
def digits? (n : Nat) (cs : List Char) : Option (Nat × List Char) :=
  let ds := cs.take n
  if ds.length = n ∧ ds.all Char.isDigit then some (Nat.ofDigitChars 10 ds 0, cs.drop n) else none

def mark? (c : Char) : List Char → Option (List Char)
  | d :: r => if d = c then some r else none
  | [] => none

/-- Drops the fraction of a second. -/
def dropFraction? : List Char → Option (List Char)
  | '.' :: r => if r.head?.any Char.isDigit then some (r.dropWhile Char.isDigit) else none
  | cs => some cs

def offset? : List Char → Option Int
  | ['Z'] | ['z'] => some 0
  | '+' :: r => (size? r).map fun n => (n : Int)
  | '-' :: r => (size? r).map fun n => -(n : Int)
  | _ => none
where
  size? (cs : List Char) : Option Nat := do
    let (hours, r) ← digits? 2 cs
    let (minutes, r) ← digits? 2 ((mark? ':' r).getD r)
    if r.isEmpty ∧ hours < 24 ∧ minutes < 60 then some (hours * 60 + minutes) else none

def parse? (text : String) : Option Instant := do
  let (year, r) ← digits? 4 text.toList
  let (month, r) ← digits? 2 (← mark? '-' r)
  let (day, r) ← digits? 2 (← mark? '-' r)
  let r ← mark? 'T' r <|> mark? 't' r <|> mark? ' ' r
  let (hour, r) ← digits? 2 r
  let (minute, r) ← digits? 2 (← mark? ':' r)
  let (second, r) ← digits? 2 (← mark? ':' r)
  let offset ← offset? (← dropFraction? r)
  let t : Instant := ⟨year, month, day, hour, minute, second⟩
  if t.isValid then some (t.toUniversal offset) else none

/-- A number with at least so many digits. -/
def padded (width n : Nat) : String :=
  let ds := Nat.toDigits 10 n
  String.ofList (List.replicate (width - ds.length) '0' ++ ds)

def text (t : Instant) : String :=
  s!"{padded 4 t.year}-{padded 2 t.month}-{padded 2 t.day}T" ++
    s!"{padded 2 t.hour}:{padded 2 t.minute}:{padded 2 t.second}Z"

end Instant

end Rollout
