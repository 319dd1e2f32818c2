/-!
Text between double quotes on one line. Quotes and backslashes are escaped, and so
are characters that cannot be seen.
-/

namespace Rollout.Text

/-- Blocks of characters that are not shown as they are: controls, separators, marks that
join others, private use and unassigned planes. -/
def invisible : List (Nat × Nat) :=
  [(0x00, 0x1f), (0x7f, 0xa0), (0xad, 0xad), (0x300, 0x36f), (0x483, 0x489), (0x591, 0x5bd),
    (0x600, 0x605), (0x610, 0x61a), (0x64b, 0x65f), (0x6dd, 0x6dd), (0x1680, 0x1680),
    (0x180e, 0x180e), (0x1ab0, 0x1ace), (0x1dc0, 0x1dff), (0x2000, 0x200f), (0x2028, 0x202f),
    (0x205f, 0x206f), (0x20d0, 0x20f0), (0x302a, 0x302f), (0x3000, 0x3000), (0x3099, 0x309a),
    (0xd800, 0xf8ff), (0xfe00, 0xfe0f), (0xfe20, 0xfe2f), (0xfeff, 0xfeff), (0xfff0, 0xfffb),
    (0xfffe, 0xffff), (0xe0000, 0x10ffff)]

def isInvisible (c : Char) : Bool := invisible.any fun r => r.1 ≤ c.toNat ∧ c.toNat ≤ r.2

def hexText (n : Nat) : List Char := Nat.toDigits 16 n

def quotedChar (c : Char) : List Char :=
  match c with
  | '"' => ['\\', '"']
  | '\\' => ['\\', '\\']
  | '\n' => ['\\', 'n']
  | '\r' => ['\\', 'r']
  | '\t' => ['\\', 't']
  | '\x00' => ['\\', '0']
  | c => if isInvisible c then ['\\', 'u', '\x7b'] ++ hexText c.toNat ++ ['\x7d'] else [c]

def quoted (s : String) : String :=
  "\"" ++ String.ofList (s.toList.flatMap quotedChar) ++ "\""

/-- A list of quoted texts in brackets. -/
def quotedList (ss : List String) : String := "[" ++ ", ".intercalate (ss.map quoted) ++ "]"

end Rollout.Text
