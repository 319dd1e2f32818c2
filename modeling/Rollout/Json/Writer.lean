import Rollout.Value
/-!
Compact JSON text: no spaces, keys in the order of the tree, and only what must
be escaped is escaped.
-/

namespace Rollout.Json

/-- Positional from `1e-5` up to `1e16`; the exponent has a sign. -/
def numberLayout : DecimalLayout := ⟨16, 4, true⟩

def hexDigit (n : Nat) : Char := Nat.digitChar n

/-- Quotes, backslashes and characters below the space are escaped, nothing else. -/
def escape (c : Char) : List Char :=
  if c = '"' then ['\\', '"']
  else if c = '\\' then ['\\', '\\']
  else if c = '\n' then ['\\', 'n']
  else if c = '\r' then ['\\', 'r']
  else if c = '\t' then ['\\', 't']
  else if c = '\x08' then ['\\', 'b']
  else if c = '\x0c' then ['\\', 'f']
  else if c < ' ' then ['\\', 'u', '0', '0', hexDigit (c.toNat / 16), hexDigit (c.toNat % 16)]
  else [c]

def quoted (s : String) : List Char := '"' :: s.toList.flatMap escape ++ ['"']

end Rollout.Json

namespace Rollout

def Number.text (f : DecimalLayout) : Number → List Char
  | .whole n => (toString n).toList
  | .float x => x.text f

namespace Value

mutual

def jsonChars : Value → List Char
  | .null => ['n', 'u', 'l', 'l']
  | .bool true => ['t', 'r', 'u', 'e']
  | .bool false => ['f', 'a', 'l', 's', 'e']
  | .number n => n.text Json.numberLayout
  | .string s => Json.quoted s
  | .sequence [] => ['[', ']']
  | .sequence (v :: vs) => '[' :: jsonChars v ++ itemsJson vs
  | .mapping [] => ['\x7b', '\x7d']
  | .mapping ((k, v) :: fs) => '\x7b' :: Json.quoted k ++ ':' :: jsonChars v ++ fieldsJson fs

/-- The items after the first, and the closing bracket. -/
def itemsJson : List Value → List Char
  | [] => [']']
  | v :: vs => ',' :: jsonChars v ++ itemsJson vs

/-- The fields after the first, and the closing brace. -/
def fieldsJson : List (String × Value) → List Char
  | [] => ['\x7d']
  | (k, v) :: fs => ',' :: Json.quoted k ++ ':' :: jsonChars v ++ fieldsJson fs

end

def toJson (v : Value) : String := String.ofList v.jsonChars

end Value

end Rollout
