import Rollout.Json.Writer
import Rollout.Yaml.Scalar
/-!
Writing a tree as YAML in block style: two columns of indentation, sequences in
mappings not indented, lines of any length.
-/

namespace Rollout.Yaml

/-- Positional from `1e-5` up to `1e16`; an exponent that is not negative has no sign. -/
def numberLayout : DecimalLayout := ⟨16, 4, false⟩

/-- Keys longer than so many bytes are not written on the line of their value. -/
def longestKey : Nat := 128

/-- Characters that may stand unescaped in a scalar. -/
def isPrintable (c : Char) : Bool :=
  let n := c.toNat
  n == 0x0A || (0x20 ≤ n && n ≤ 0x7E) || (0xA0 ≤ n && n ≤ 0xFFFD && n ≠ 0xFEFF) || 0x10000 ≤ n

inductive Style where
  | plain
  | single
  | double
  | literal
  deriving DecidableEq

/-- Whether a character that satisfies `f` stands directly before one that satisfies `g`. -/
def anyBefore (f g : Char → Bool) : List Char → Bool
  | a :: b :: r => (f a && g b) || anyBefore f g (b :: r)
  | _ => false

/-- What about a text decides its style. -/
structure Shape where
  /-- An indicator or a colon with a blank keeps it from being plain. -/
  indicators : Bool
  broken : Bool
  special : Bool
  outerBlank : Bool
  spaceAtEnd : Bool
  spaceAfterBreak : Bool
  spaceBeforeBreak : Bool

/-- A colon before a blank, or a number sign after one, behind the first character. -/
def hasInnerIndicator (before : Char) : List Char → Bool
  | [] => false
  | c :: r =>
    (c = ':' && atBlank r) || (c = '#' && (isSpace before || isBreak before)) ||
      hasInnerIndicator c r

def hasIndicators (cs : List Char) : Bool :=
  match cs with
  | [] => false
  | c :: r =>
    ['-', '-', '-'].isPrefixOf cs || ['.', '.', '.'].isPrefixOf cs ||
    "#,[]\x7b\x7d&*!|>'\"%@\x60".toList.contains c ||
    ("?:-".toList.contains c && atBlank r) || hasInnerIndicator c r

def shape (cs : List Char) : Shape where
  indicators := hasIndicators cs
  broken := cs.any isBreak
  special := cs.any fun c => !isPrintable c
  outerBlank := (cs.head?.any fun c => c = ' ' || isBreak c) ||
    (cs.getLast?.any fun c => c = ' ' || isBreak c)
  spaceAtEnd := cs.getLast? = some ' '
  spaceAfterBreak := anyBefore isBreak (· = ' ') cs
  spaceBeforeBreak := anyBefore (· = ' ') isBreak cs

/-- Text that would read back as something else is quoted. -/
def readsAsText (s : String) : Bool := meaning s = .text && !isZeroPadded s.toList

/-- Literal if there is a line feed, else plain, else in single quotes, as far as the text
allows it; double quotes can hold any text. -/
def style (s : String) : Style :=
  let f := shape s.toList
  let singleFits := !f.spaceAfterBreak && !f.spaceBeforeBreak && !f.special
  let quotes := if singleFits then Style.single else .double
  if s.toList.contains '\n' then
    if f.spaceAtEnd ∨ f.spaceBeforeBreak ∨ f.special then .double else .literal
  else if !readsAsText s then quotes
  else if f.outerBlank ∨ f.broken ∨ f.special ∨ f.indicators then quotes
  else .plain

def upperHex (width n : Nat) : List Char :=
  let digits := (Nat.toDigits 16 n).map Char.toUpper
  List.replicate (width - digits.length) '0' ++ digits

def escape (c : Char) : List Char :=
  let n := c.toNat
  if c = '"' ∨ c = '\\' then ['\\', c]
  else if isPrintable c ∧ !isBreak c then [c]
  else match n with
    | 0x00 => ['\\', '0']
    | 0x07 => ['\\', 'a']
    | 0x08 => ['\\', 'b']
    | 0x09 => ['\\', 't']
    | 0x0A => ['\\', 'n']
    | 0x0B => ['\\', 'v']
    | 0x0C => ['\\', 'f']
    | 0x0D => ['\\', 'r']
    | 0x1B => ['\\', 'e']
    | 0x85 => ['\\', 'N']
    | 0x2028 => ['\\', 'L']
    | 0x2029 => ['\\', 'P']
    | _ =>
      if n ≤ 0xFF then '\\' :: 'x' :: upperHex 2 n
      else if n ≤ 0xFFFF then '\\' :: 'u' :: upperHex 4 n
      else '\\' :: 'U' :: upperHex 8 n

def pad (indent : Nat) : List Char := List.replicate indent ' '

/-- Text in which each line but the first is indented; `fresh` says whether the next
character begins a line. -/
def indentLines (indent : Nat) (each : Char → List Char) (fresh : Bool) : List Char → List Char
  | [] => []
  | c :: r =>
    if isBreak c then c :: indentLines indent each true r
    else (if fresh then pad indent else []) ++ each c ++ indentLines indent each false r

/-- What is said about a literal text on its first line: an indentation that its own first
character hides, and how its last line breaks are kept. -/
def literalHints (cs : List Char) : List Char :=
  let hidden := cs.head?.any fun c => c = ' ' || isBreak c
  (if hidden then ['2'] else []) ++
    match cs.reverse with
    | [] => ['-']
    | c :: r =>
      if !isBreak c then ['-']
      else match r with
        | [] => ['+']
        | d :: _ => if isBreak d then ['+'] else []

/-- A string whose further lines stand at column `indent`. -/
def stringText (indent : Nat) (s : String) : List Char :=
  let cs := s.toList
  match style s with
  | .plain => cs
  | .single =>
    let quote := fun c => if c = '\'' then ['\'', '\''] else [c]
    let tail := if cs.getLast?.any isBreak then pad indent else []
    '\'' :: indentLines indent quote false cs ++ tail ++ ['\'']
  | .double => '"' :: cs.flatMap escape ++ ['"']
  | .literal => '|' :: literalHints cs ++ '\n' :: indentLines indent (fun c => [c]) true cs

def scalarText (indent : Nat) : Value → List Char
  | .null => "null".toList
  | .bool b => if b then "true".toList else "false".toList
  | .number n => n.text numberLayout
  | .string s => stringText indent s
  | .sequence _ => ['[', ']']
  | .mapping _ => ['\x7b', '\x7d']

/-- Ends a line, unless a literal text has ended it. -/
def endLine (cs : List Char) : List Char :=
  if cs.getLast?.any isBreak then cs else cs ++ ['\n']

/-- A key that stands on the line of its value. -/
def isSimpleKey (k : String) : Bool := k.utf8ByteSize ≤ longestKey && !k.toList.any isBreak

/-- The key of a field with its indicators; a key that is not simple has lines of its own. -/
def keyText (indent : Nat) (k : String) : List Char :=
  if isSimpleKey k then stringText (indent + 2) k ++ [':']
  else '?' :: ' ' :: endLine (stringText (indent + 2) k) ++ pad indent ++ [':']

mutual

/-- A value behind an indicator, its further lines at column `indent`. -/
def inline (indent : Nat) : Value → List Char
  | .mapping ((k, v) :: fs) => keyText indent k ++ fieldValue indent k v ++ fieldLines indent fs
  | .sequence (v :: vs) => '-' :: ' ' :: inline (indent + 2) v ++ itemLines indent vs
  | v => endLine (scalarText indent v)

/-- A value behind a key at column `indent`. -/
def fieldValue (indent : Nat) (k : String) : Value → List Char
  | .mapping ((j, v) :: fs) =>
    if isSimpleKey k then
      '\n' :: pad (indent + 2) ++ keyText (indent + 2) j ++ fieldValue (indent + 2) j v ++
        fieldLines (indent + 2) fs
    else ' ' :: keyText (indent + 2) j ++ fieldValue (indent + 2) j v ++ fieldLines (indent + 2) fs
  | .sequence (v :: vs) =>
    if isSimpleKey k then
      '\n' :: pad indent ++ '-' :: ' ' :: inline (indent + 2) v ++ itemLines indent vs
    else ' ' :: '-' :: ' ' :: inline (indent + 4) v ++ itemLines (indent + 2) vs
  | v => ' ' :: endLine (scalarText (indent + 2) v)

def fieldLines (indent : Nat) : List (String × Value) → List Char
  | [] => []
  | (k, v) :: fs => pad indent ++ keyText indent k ++ fieldValue indent k v ++ fieldLines indent fs

def itemLines (indent : Nat) : List Value → List Char
  | [] => []
  | v :: vs => pad indent ++ '-' :: ' ' :: inline (indent + 2) v ++ itemLines indent vs

end

/-- A tree as a whole document, which ends with a line break. -/
def document : Value → List Char
  | .string s => endLine (stringText 2 s)
  | v => inline 0 v

end Rollout.Yaml

def Rollout.Value.toYaml (v : Rollout.Value) : String := String.ofList (Rollout.Yaml.document v)
