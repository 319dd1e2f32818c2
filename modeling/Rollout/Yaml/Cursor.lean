/-!
Places in a YAML text and the classes of its characters.
-/

namespace Rollout.Yaml

/-- Why a text is not YAML, or not of a form that a tree can hold. -/
inductive Fault where
  | controlCharacter
  | misplacedTab
  | misplacedIndicator (c : Char)
  | strayCharacter
  | missingColon
  | openEnd
  | badEscape
  | badDirective
  | badTag
  | badAnchor
  | badBlockHeader
  | unexpectedToken
  | unknownAlias (name : String)
  | unknownHandle (name : String)
  | severalDocuments
  | tooDeep
  | tooManyAliases
  | collectionAsKey
  | unexpectedTag (tag : String)
  | illTyped (text : String)
  | wordTooLarge (text : String)
  deriving DecidableEq

def Fault.message : Fault → String
  | controlCharacter => "control characters are not allowed"
  | misplacedTab => "found a tab where indentation is expected"
  | misplacedIndicator c => s!"'{c}' is not allowed in this context"
  | strayCharacter => "found a character that cannot start any token"
  | missingColon => "could not find expected ':'"
  | openEnd => "found unexpected end of stream"
  | badEscape => "found an invalid escape sequence"
  | badDirective => "found an invalid directive"
  | badTag => "found an invalid tag"
  | badAnchor => "found an invalid anchor or alias"
  | badBlockHeader => "found an invalid block scalar header"
  | unexpectedToken => "found an unexpected token"
  | unknownAlias name => s!"unknown anchor {name}"
  | unknownHandle name => s!"undefined tag handle {name}"
  | severalDocuments => "the text holds more than one document"
  | tooDeep => "recursion limit exceeded"
  | tooManyAliases => "repetition limit exceeded"
  | collectionAsKey => "a key must be a scalar"
  | unexpectedTag tag => s!"unexpected tag {tag}"
  | illTyped text => s!"'{text}' does not fit its type"
  | wordTooLarge text => s!"the integer {text} is out of range"

def isBreak (c : Char) : Bool :=
  c = '\n' || c = '\r' || c = '\u0085' || c = '\u2028' || c = '\u2029'

def isSpace (c : Char) : Bool := c = ' ' || c = '\t'

/-- Letters and digits of ASCII, the underscore and the hyphen. -/
def isWord (c : Char) : Bool := c.isAlphanum || c = '_' || c = '-'

/-- Whether a text is at its end, at a break or at a blank. -/
def atBlank : List Char → Bool
  | [] => true
  | c :: _ => isSpace c || isBreak c

def atBreak : List Char → Bool
  | [] => true
  | c :: _ => isBreak c

def isReadable (c : Char) : Bool :=
  let n := c.toNat
  n == 0x09 || n == 0x0A || n == 0x0D || (0x20 ≤ n && n ≤ 0x7E) || n == 0x85 ||
    (0xA0 ≤ n && n ≤ 0xFFFD) || 0x10000 ≤ n

/-- A place in a text: what follows, and how far it lies behind the start. -/
structure Cursor where
  rest : List Char
  index : Nat := 0
  line : Nat := 0
  column : Nat := 0

namespace Cursor

/-- Past `n` characters of one line. -/
def skip (p : Cursor) (n : Nat := 1) : Cursor :=
  { p with rest := p.rest.drop n, index := p.index + n, column := p.column + n }

/-- Past a line break; a carriage return and a line feed are one. -/
def skipBreak (p : Cursor) : Cursor :=
  let n := match p.rest with
    | '\r' :: '\n' :: _ => 2
    | _ => 1
  { rest := p.rest.drop n, index := p.index + n, line := p.line + 1, column := 0 }

/-- What a line break means in a scalar: a line feed, unless it is a Unicode separator. -/
def breakText (p : Cursor) : List Char :=
  match p.rest with
  | c :: _ => if c = '\u2028' ∨ c = '\u2029' then [c] else ['\n']
  | [] => []

def takeWhile (f : Char → Bool) (p : Cursor) : List Char × Cursor :=
  let taken := p.rest.takeWhile f
  (taken, p.skip taken.length)

def skipWhile (f : Char → Bool) (p : Cursor) : Cursor := (p.takeWhile f).2

/-- Past a comment, up to the end of its line. -/
def skipComment (p : Cursor) : Cursor :=
  match p.rest with
  | '#' :: _ => p.skipWhile fun c => !isBreak c
  | _ => p

/-- At the start of a line that begins with `---` or `...` and then a blank. -/
def atMarker (p : Cursor) : Bool :=
  p.column == 0 && match p.rest with
    | '-' :: '-' :: '-' :: r => atBlank r
    | '.' :: '.' :: '.' :: r => atBlank r
    | _ => false

end Cursor

end Rollout.Yaml
