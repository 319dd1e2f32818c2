/-!
White space and lines of text.
-/

namespace Rollout.Text

/-- The characters with the white-space property. -/
def isBlank (c : Char) : Bool :=
  let n := c.toNat
  (0x09 ≤ n && n ≤ 0x0D) || n == 0x20 || n == 0x85 || n == 0xA0 || n == 0x1680 ||
    (0x2000 ≤ n && n ≤ 0x200A) || n == 0x2028 || n == 0x2029 || n == 0x202F || n == 0x205F ||
    n == 0x3000

def trimStart (cs : List Char) : List Char := cs.dropWhile isBlank

def trimEnd (cs : List Char) : List Char := (cs.reverse.dropWhile isBlank).reverse

def trim (cs : List Char) : List Char := trimEnd (trimStart cs)

/-- The lines of a text, each with its line feed. Together they are the text. -/
def segments : List Char → List (List Char)
  | [] => []
  | c :: r =>
    if c = '\n' then [c] :: segments r
    else match segments r with
      | [] => [[c]]
      | s :: ss => (c :: s) :: ss

theorem flatten_segments (cs : List Char) : (segments cs).flatten = cs := by
  induction cs with
  | nil => rfl
  | cons c r ih =>
    rw [segments]
    split
    · simp [ih]
    · split <;> simp_all

/-- A line without its line feed and a carriage return before it. -/
def lineOf (s : List Char) : List Char :=
  if s.getLast? = some '\n' then
    let l := s.dropLast
    if l.getLast? = some '\r' then l.dropLast else l
  else s

def lines (cs : List Char) : List (List Char) := (segments cs).map lineOf

/-- The pieces between occurrences of a character; a text without it is one piece. -/
def splitOn (sep : Char) : List Char → List (List Char)
  | [] => [[]]
  | c :: r =>
    if c = sep then [] :: splitOn sep r
    else match splitOn sep r with
      | [] => [[c]]
      | s :: ss => (c :: s) :: ss

/-- Order by code points. -/
def le (a b : String) : Bool := !decide (b < a)

end Rollout.Text
