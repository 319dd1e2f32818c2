import Rollout.Value
/-!
Reading JSON text. Nesting is limited; a key that repeats keeps its first place
and takes the last value.
-/

namespace Rollout.Json

/-- Sequences and mappings nest at most so deep. -/
def maxDepth : Nat := 127

def largestWord : Nat := Nat.pow 2 64 - 1

/-- Reads digits into a running number for as long as it fits a 64-bit word;
also the count of digits taken and the digits left over. -/
def takeWord (word : Nat) : List Char → Nat × Nat × List Char
  | [] => (word, 0, [])
  | c :: r =>
    let next := word * 10 + (c.toNat - '0'.toNat)
    if largestWord < next then (word, 0, c :: r)
    else
      let (w, n, left) := takeWord next r
      (w, n + 1, left)

/-- `word · 10 ^ power`: the word and the power of ten are each rounded before they
are multiplied or divided, and a large negative power is divided out in two steps. -/
def scale? (negative : Bool) (word : Nat) (power : Int) : Option Binary64 := do
  let x ← Binary64.ofRatio? negative word 1
  if x.isZero then return x
  if 308 < power then none
  else if 0 ≤ power then x.mul? (← Binary64.ofRatio? false (Nat.pow 10 power.toNat) 1)
  else
    let step (x : Binary64) (n : Nat) : Option Binary64 := do
      x.div? (← Binary64.ofRatio? false (Nat.pow 10 n) 1)
    let rec divide : Nat → Binary64 → Nat → Option Binary64
      | 0, x, _ => some x
      | fuel + 1, x, n =>
        if x.isZero then some x
        else if n ≤ 308 then step x n
        else do divide fuel (← step x 308) (n - 308)
    divide 4 x (-power).toNat

def digitsOf (cs : List Char) : List Char × List Char :=
  (cs.takeWhile Char.isDigit, cs.dropWhile Char.isDigit)

def largestPower : Int := Nat.pow 2 31 - 1

def clampPower (p : Int) : Int := max (-largestPower - 1) (min largestPower p)

/-- The exponent after its mark. One too large for 32 bits is an error only where
the number would be too large. -/
def exponent (negative : Bool) (word : Nat) (power : Int) (cs : List Char) :
    Option (Binary64 × List Char) := do
  let (down, cs) := match cs with
    | '+' :: r => (false, r)
    | '-' :: r => (true, r)
    | _ => (false, cs)
  let (ds, rest) := digitsOf cs
  if ds.isEmpty then none
  let size : Int := Nat.ofDigitChars 10 ds 0
  if largestPower < size then
    if word ≠ 0 ∧ !down then none else some (Binary64.zero negative, rest)
  else
    let power := clampPower (if down then power - size else power + size)
    return (← scale? negative word power, rest)

/-- The rest of a number with a fraction or an exponent. -/
def fraction (negative : Bool) (word : Nat) (power : Int) (cs : List Char) :
    Option (Binary64 × List Char) := do
  let tail (word : Nat) (power : Int) (cs : List Char) : Option (Binary64 × List Char) :=
    match cs with
    | 'e' :: r | 'E' :: r => exponent negative word power r
    | _ => do return (← scale? negative word power, cs)
  match cs with
  | '.' :: r =>
    let (ds, rest) := digitsOf r
    if ds.isEmpty then none
    let (word, used, _) := takeWord word ds
    tail word (power - used) rest
  | _ => tail word power cs

/-- A number without its sign. A whole number that does not fit its 64 bits, and `-0`,
is read as a floating-point number. -/
def number (negative : Bool) (cs : List Char) : Option (Number × List Char) := do
  let (ds, rest) := digitsOf cs
  match ds with
  | [] => none
  | '0' :: _ :: _ => none
  | _ =>
    let (word, _, left) := takeWord 0 ds
    let plain := match rest with
      | '.' :: _ | 'e' :: _ | 'E' :: _ => false
      | _ => left.isEmpty
    if !plain then
      let (x, rest) ← fraction negative word left.length rest
      return (.float x, rest)
    else if !negative then return (.whole word, rest)
    else if word = 0 ∨ Nat.pow 2 63 < word then
      return (.float (← Binary64.ofRatio? true word 1), rest)
    else return (.whole (-word), rest)

def hexValue (c : Char) : Option Nat :=
  if c.isDigit then some (c.toNat - '0'.toNat)
  else if 'a' ≤ c ∧ c ≤ 'f' then some (c.toNat - 'a'.toNat + 10)
  else if 'A' ≤ c ∧ c ≤ 'F' then some (c.toNat - 'A'.toNat + 10)
  else none

def hexQuad : List Char → Option (Nat × List Char)
  | a :: b :: c :: d :: r => do
    return (((← hexValue a) * 16 + (← hexValue b)) * 256 + (← hexValue c) * 16 + (← hexValue d), r)
  | _ => none

/-- A character of a string that may be escaped, but is not the closing quote. Halves of
a surrogate pair must come together. -/
def character : List Char → Option (Char × List Char)
  | '\\' :: 'u' :: r => do
    let (n, r) ← hexQuad r
    if n < 0xD800 ∨ 0xDFFF < n then some (Char.ofNat n, r)
    else if 0xDC00 ≤ n then none
    else match r with
      | '\\' :: 'u' :: r => do
        let (m, r) ← hexQuad r
        if m < 0xDC00 ∨ 0xDFFF < m then none
        else some (Char.ofNat (0x10000 + (n - 0xD800) * 0x400 + (m - 0xDC00)), r)
      | _ => none
  | '\\' :: c :: r => match c with
    | '"' | '\\' | '/' => some (c, r)
    | 'b' => some ('\x08', r)
    | 'f' => some ('\x0c', r)
    | 'n' => some ('\n', r)
    | 'r' => some ('\r', r)
    | 't' => some ('\t', r)
    | _ => none
  | c :: r => if c < ' ' ∨ c = '\\' then none else some (c, r)
  | [] => none

/-- The rest of a string after its opening quote. -/
def string : Nat → List Char → Option (List Char × List Char)
  | 0, _ => none
  | _ + 1, '"' :: r => some ([], r)
  | fuel + 1, cs => do
    let (c, r) ← character cs
    let (s, r) ← string fuel r
    return (c :: s, r)

def isSpace (c : Char) : Bool := c = ' ' || c = '\n' || c = '\t' || c = '\r'

def skipSpace (cs : List Char) : List Char := cs.dropWhile isSpace

mutual

def value : Nat → Nat → List Char → Option (Value × List Char)
  | 0, _, _ => none
  | fuel + 1, depth, cs => match skipSpace cs with
    | 'n' :: 'u' :: 'l' :: 'l' :: r => some (.null, r)
    | 't' :: 'r' :: 'u' :: 'e' :: r => some (.bool true, r)
    | 'f' :: 'a' :: 'l' :: 's' :: 'e' :: r => some (.bool false, r)
    | '"' :: r => do
      let (s, r) ← string r.length.succ r
      return (.string (String.ofList s), r)
    | '[' :: r =>
      match depth, skipSpace r with
      | 0, _ => none
      | _ + 1, ']' :: r => some (.sequence [], r)
      | depth + 1, r => do
        let (vs, r) ← items fuel depth r
        return (.sequence vs, r)
    | '\x7b' :: r =>
      match depth, skipSpace r with
      | 0, _ => none
      | _ + 1, '\x7d' :: r => some (.mapping [], r)
      | depth + 1, r => do
        let (fs, r) ← fields fuel depth r
        return (.mapping (Ordered.ofList fs), r)
    | '-' :: r => do
      let (n, r) ← number true r
      return (.number n, r)
    | r => do
      let (n, r) ← number false r
      return (.number n, r)

/-- Items up to and with the closing bracket. -/
def items : Nat → Nat → List Char → Option (List Value × List Char)
  | 0, _, _ => none
  | fuel + 1, depth, cs => do
    let (v, r) ← value fuel depth cs
    match skipSpace r with
    | ',' :: r =>
      let (vs, r) ← items fuel depth r
      return (v :: vs, r)
    | ']' :: r => return ([v], r)
    | _ => none

/-- Fields up to and with the closing brace. -/
def fields : Nat → Nat → List Char → Option (List (String × Value) × List Char)
  | 0, _, _ => none
  | fuel + 1, depth, cs =>
    match skipSpace cs with
    | '"' :: r => do
      let (k, r) ← string r.length.succ r
      match skipSpace r with
      | ':' :: r =>
        let (v, r) ← value fuel depth r
        let entry := (String.ofList k, v)
        match skipSpace r with
        | ',' :: r =>
          let (fs, r) ← fields fuel depth r
          return (entry :: fs, r)
        | '\x7d' :: r => return ([entry], r)
        | _ => none
      | _ => none
    | _ => none

end

/-- All that is read with so much fuel is as said, at every depth. -/
structure Yields (P : Value → Prop) (fuel : Nat) : Prop where
  value : ∀ {depth cs v r}, value fuel depth cs = some (v, r) → P v
  items : ∀ {depth cs vs r}, items fuel depth cs = some (vs, r) → ∀ v ∈ vs, P v
  fields : ∀ {depth cs fs r}, fields fuel depth cs = some (fs, r) → ∀ e ∈ fs, P e.2

namespace Yields

variable {P : Value → Prop} {fuel depth : Nat} {cs r : List Char}

theorem zero : Yields P 0 := ⟨by simp [Json.value], by simp [Json.items], by simp [Json.fields]⟩

theorem value_succ (hP : Value.Compositional P)
    (hnumber : ∀ {negative cs n r}, number negative cs = some (n, r) → P (.number n))
    (ih : Yields P fuel) {v : Value} (h : Json.value (fuel + 1) depth cs = some (v, r)) : P v := by
  rw [Json.value] at h
  split at h
  case h_1 =>
    cases h
    exact hP.null
  case h_2 | h_3 =>
    cases h
    exact hP.bool _
  case h_4 =>
    obtain ⟨⟨_, _⟩, -, h⟩ := Option.bind_eq_some_iff.mp h
    cases h
    exact hP.string _
  case h_5 =>
    split at h
    · cases h
    · cases h
      exact hP.sequence (List.forall_mem_nil _)
    · obtain ⟨⟨vs, _⟩, hvs, h⟩ := Option.bind_eq_some_iff.mp h
      cases h
      exact hP.sequence (ih.items hvs)
  case h_6 =>
    split at h
    · cases h
    · cases h
      exact hP.mapping (List.forall_mem_nil _)
    · obtain ⟨⟨fs, _⟩, hfs, h⟩ := Option.bind_eq_some_iff.mp h
      cases h
      exact hP.mapping (ih.fields hfs)
  case h_7 | h_8 =>
    obtain ⟨⟨_, _⟩, hn, h⟩ := Option.bind_eq_some_iff.mp h
    cases h
    exact hnumber hn

theorem items_succ (ih : Yields P fuel) {vs : List Value}
    (h : Json.items (fuel + 1) depth cs = some (vs, r)) : ∀ v ∈ vs, P v := by
  rw [Json.items] at h
  obtain ⟨⟨v, _⟩, hv, h⟩ := Option.bind_eq_some_iff.mp h
  dsimp only at h
  split at h
  · obtain ⟨⟨ws, _⟩, hws, h⟩ := Option.bind_eq_some_iff.mp h
    cases h
    exact List.forall_mem_cons.mpr ⟨ih.value hv, ih.items hws⟩
  · cases h
    exact List.forall_mem_singleton.mpr (ih.value hv)
  · cases h

theorem fields_succ (ih : Yields P fuel) {fs : List (String × Value)}
    (h : Json.fields (fuel + 1) depth cs = some (fs, r)) : ∀ e ∈ fs, P e.2 := by
  rw [Json.fields] at h
  split at h
  · obtain ⟨⟨k, _⟩, -, h⟩ := Option.bind_eq_some_iff.mp h
    dsimp only at h
    split at h
    · obtain ⟨⟨v, _⟩, hv, h⟩ := Option.bind_eq_some_iff.mp h
      dsimp only at h
      split at h
      · obtain ⟨⟨gs, _⟩, hgs, h⟩ := Option.bind_eq_some_iff.mp h
        cases h
        exact List.forall_mem_cons.mpr ⟨ih.value hv, ih.fields hgs⟩
      · cases h
        exact List.forall_mem_singleton.mpr (ih.value hv)
      · cases h
    · cases h
  · cases h

end Yields

/-- What holds of the numbers that are read holds of all that is read. -/
theorem yields {P : Value → Prop} (hP : Value.Compositional P)
    (hnumber : ∀ {negative cs n r}, number negative cs = some (n, r) → P (.number n))
    (fuel : Nat) : Yields P fuel := by
  induction fuel with
  | zero => exact .zero
  | succ fuel ih => exact ⟨ih.value_succ hP hnumber, ih.items_succ, ih.fields_succ⟩

end Rollout.Json

/-- The tree written by a JSON text; `none` if it is not one. -/
def Rollout.Value.ofJson? (text : String) : Option Rollout.Value := do
  let cs := text.toList
  let (v, r) ← Rollout.Json.value (2 * cs.length + 2) Rollout.Json.maxDepth cs
  if (Rollout.Json.skipSpace r).isEmpty then some v else none

theorem Rollout.Value.Compositional.ofJson? {P : Rollout.Value → Prop}
    (hP : Rollout.Value.Compositional P)
    (hnumber : ∀ {negative cs n r}, Rollout.Json.number negative cs = some (n, r) → P (.number n))
    {text : String} {v : Rollout.Value} (h : Rollout.Value.ofJson? text = some v) : P v := by
  obtain ⟨⟨w, r⟩, hw, h⟩ := Option.bind_eq_some_iff.mp h
  dsimp only at h
  split at h
  · cases h
    exact (Rollout.Json.yields hP hnumber _).value hw
  · cases h

theorem Rollout.Value.wellKeyed_ofJson? {text : String} {v : Rollout.Value}
    (h : Rollout.Value.ofJson? text = some v) : v.WellKeyed :=
  WellKeyed.compositional.ofJson? (fun _ => trivial) h

def Rollout.Tree.ofJson? (text : String) : Option Rollout.Tree :=
  match h : Rollout.Value.ofJson? text with
  | some v => some ⟨v, Rollout.Value.wellKeyed_ofJson? h⟩
  | none => none
