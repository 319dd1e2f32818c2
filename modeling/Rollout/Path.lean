/-!
Property paths: dotted keys, quoted keys in brackets and sequence indices, as in
`spec.containers[0].image` or `metadata.labels["app.kubernetes.io/name"]`.
-/

namespace Rollout

inductive Segment where
  | key (k : String)
  | index (i : Nat)
  deriving DecidableEq

abbrev Path := List Segment

/-- Why a text is no path, or a path cannot be followed. -/
inductive PathFault where
  | emptyKey
  | trailingDot
  | openQuote
  | noBracketAfterQuote
  | badIndex
  | openBracket
  | noSeparator
  | emptyPath
  | noField
  | indexTooFar
  deriving DecidableEq

def PathFault.message : PathFault → String
  | emptyKey => "empty key"
  | trailingDot => "trailing '.'"
  | openQuote => "unterminated quoted key"
  | noBracketAfterQuote => "expected ']' after quoted key"
  | badIndex => "sequence index must be a number"
  | openBracket => "unterminated '['"
  | noSeparator => "expected '.' or '[' between segments"
  | emptyPath => "path is empty"
  | noField => "a document path must start with a field name"
  | indexTooFar => "index is too far past the end of the sequence"

namespace Path

/-- Indices are below this. -/
def indexLimit : Nat := Nat.pow 2 64

/-- The rest of a quoted key and its bracket; a backslash stands before any one character. -/
def quotedKey : List Char → Except PathFault (List Char × List Char)
  | '"' :: ']' :: r => .ok ([], r)
  | '"' :: _ => .error .noBracketAfterQuote
  | '\\' :: c :: r => do
    let (k, r) ← quotedKey r
    return (c :: k, r)
  | ['\\'] | [] => .error .openQuote
  | c :: r => do
    let (k, r) ← quotedKey r
    return (c :: k, r)

/-- The digits of an index and its bracket. -/
def indexDigits : List Char → Except PathFault (List Char × List Char)
  | ']' :: r => .ok ([], r)
  | [] => .error .openBracket
  | c :: r => do
    if !c.isDigit then throw .badIndex
    let (ds, r) ← indexDigits r
    return (c :: ds, r)

def indexOf (ds : List Char) : Except PathFault Nat :=
  let i := Nat.ofDigitChars 10 ds 0
  if ds.isEmpty ∨ indexLimit ≤ i then .error .badIndex else .ok i

def isKeyEnd (c : Char) : Bool := c = '.' || c = '['

/-- The segments of a text. `keyNext` holds at the start and after a dot. -/
def segmentsOf : Nat → Bool → List Char → Except PathFault Path
  | 0, _, _ => .ok []
  | _ + 1, _, [] => .ok []
  | fuel + 1, keyNext, '.' :: r =>
    if keyNext then .error .emptyKey
    else if r.isEmpty then .error .trailingDot
    else segmentsOf fuel true r
  | fuel + 1, _, '[' :: '"' :: r => do
    let (k, r) ← quotedKey r
    return .key (String.ofList k) :: (← segmentsOf fuel false r)
  | fuel + 1, _, '[' :: r => do
    let (ds, r) ← indexDigits r
    let i ← indexOf ds
    return .index i :: (← segmentsOf fuel false r)
  | fuel + 1, keyNext, c :: r => do
    if !keyNext then throw .noSeparator
    let k := c :: r.takeWhile fun c => !isKeyEnd c
    return .key (String.ofList k) :: (← segmentsOf fuel false (r.dropWhile fun c => !isKeyEnd c))

def parse (text : String) : Except PathFault Path := do
  let cs := text.toList
  match ← segmentsOf (cs.length + 1) true cs with
  | [] => throw .emptyPath
  | p => return p

/-- The first key of a path, if it starts with one. -/
def rootKey? : Path → Option String
  | .key k :: _ => some k
  | _ => none

/-- A key that cannot stand bare in a path. -/
def needsQuotes (k : List Char) : Bool :=
  k.isEmpty || k.any fun c => c = '.' || c = '[' || c = ']' || c = '"'

def escapeKey (c : Char) : List Char := if c = '\\' ∨ c = '"' then ['\\', c] else [c]

def segmentText (first : Bool) : Segment → List Char
  | .key k =>
    if needsQuotes k.toList then '[' :: '"' :: k.toList.flatMap escapeKey ++ ['"', ']']
    else if first then k.toList
    else '.' :: k.toList
  | .index i => '[' :: (toString i).toList ++ [']']

def textOf : Path → List Char
  | [] => []
  | s :: p => segmentText true s ++ p.flatMap (segmentText false)

/-- The text of a path; reading it gives the path back. -/
def text (p : Path) : String := String.ofList p.textOf

end Path

end Rollout
