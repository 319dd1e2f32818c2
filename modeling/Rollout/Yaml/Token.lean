import Rollout.Yaml.Cursor
/-!
The tokens of a YAML text. Indentation appears as tokens that open and close
blocks. A key is known only by the colon behind it, so the tokens that open a key
are spliced in before the tokens already read.
-/

namespace Rollout.Yaml

inductive Token where
  | version (major minor : Nat)
  | handle (name expansion : String)
  | documentStart
  | documentEnd
  | blockSequence
  | blockMapping
  | blockEnd
  | flowSequence
  | flowSequenceEnd
  | flowMapping
  | flowMappingEnd
  | blockEntry
  | flowEntry
  | key
  | value
  | alias (name : String)
  | anchor (name : String)
  | tag (handle suffix : String)
  | scalar (plain : Bool) (text : String)
  deriving DecidableEq

/-- White space met within a scalar. -/
structure Gap where
  blanks : List Char := []
  /-- Whether there was a line break, if only an escaped one. -/
  broken : Bool := false
  firstBreak : List Char := []
  moreBreaks : List Char := []

/-- A single line feed is folded to a space; further breaks stand for themselves. -/
def Gap.text (g : Gap) : List Char :=
  if !g.broken then g.blanks
  else if g.firstBreak = ['\n'] then
    if g.moreBreaks.isEmpty then [' '] else g.moreBreaks
  else g.firstBreak ++ g.moreBreaks

/-- Reads white space. After a line break a tab left of column `margin` is refused. -/
def Gap.read (margin : Nat) : Nat → Gap → Cursor → Except Fault (Gap × Cursor)
  | 0, g, p => .ok (g, p)
  | fuel + 1, g, p =>
    match p.rest with
    | [] => .ok (g, p)
    | c :: _ =>
      if isSpace c then
        if g.broken ∧ p.column < margin ∧ c = '\t' then .error .misplacedTab
        else
          let g := if g.broken then g else { g with blanks := g.blanks ++ [c] }
          Gap.read margin fuel g p.skip
      else if isBreak c then
        let g := if g.broken then { g with moreBreaks := g.moreBreaks ++ p.breakText }
          else { broken := true, firstBreak := p.breakText }
        Gap.read margin fuel g p.skipBreak
      else .ok (g, p)

/-- Whether a text begins with one of the characters of `set`. -/
def startsIn (set : String) : List Char → Bool
  | [] => false
  | c :: _ => set.toList.contains c

/-- A stretch of a plain scalar without blanks. -/
def plainRun (flow : Bool) : List Char → Except Fault (List Char)
  | [] => .ok []
  | c :: r =>
    if isSpace c || isBreak c then .ok []
    else if flow ∧ c = ':' ∧ startsIn ",?[]\x7b\x7d" r then .error (.misplacedIndicator ':')
    else if (c = ':' ∧ atBlank r) ∨ (flow ∧ startsIn ",[]\x7b\x7d" [c]) then .ok []
    else do return c :: (← plainRun flow r)

/-- A plain scalar from column `margin` on; also whether it ended after a line break. -/
def plainScalar (flow : Bool) (margin : Nat) :
    Nat → Gap → List Char → Cursor → Except Fault (List Char × Bool × Cursor)
  | 0, g, acc, p => .ok (acc, g.broken, p)
  | fuel + 1, g, acc, p => do
    if p.atMarker ∨ p.rest.head? = some '#' then return (acc, g.broken, p)
    let run ← plainRun flow p.rest
    let (acc, g) := if run.isEmpty then (acc, g) else (acc ++ g.text ++ run, {})
    let p := p.skip run.length
    if p.rest.isEmpty || !atBlank p.rest then return (acc, g.broken, p)
    let (g, p) ← Gap.read margin (p.rest.length + 1) g p
    if !flow && p.column < margin then return (acc, g.broken, p)
    plainScalar flow margin fuel g acc p

def hexDigit? (c : Char) : Option Nat :=
  if c.isDigit then some (c.toNat - '0'.toNat)
  else if 'a' ≤ c ∧ c ≤ 'f' then some (c.toNat - 'a'.toNat + 10)
  else if 'A' ≤ c ∧ c ≤ 'F' then some (c.toNat - 'A'.toNat + 10)
  else none

/-- The character with the code written by `n` hexadecimal digits. -/
def hexCharacter (n : Nat) (cs : List Char) : Except Fault Char :=
  let digits := (cs.take n).mapM hexDigit?
  match digits with
  | none => .error .badEscape
  | some ds =>
    let code := ds.foldl (fun v d => v * 16 + d) 0
    if ds.length < n ∨ (0xD800 ≤ code ∧ code ≤ 0xDFFF) ∨ 0x10FFFF < code then .error .badEscape
    else .ok (Char.ofNat code)

/-- The character an escape stands for, and the length of the escape after its backslash. -/
def escaped (c : Char) (r : List Char) : Except Fault (Char × Nat) :=
  match c with
  | '0' => .ok ('\x00', 1)
  | 'a' => .ok ('\x07', 1)
  | 'b' => .ok ('\x08', 1)
  | 't' | '\t' => .ok ('\t', 1)
  | 'n' => .ok ('\n', 1)
  | 'v' => .ok ('\x0b', 1)
  | 'f' => .ok ('\x0c', 1)
  | 'r' => .ok ('\r', 1)
  | 'e' => .ok ('\x1b', 1)
  | ' ' | '"' | '/' | '\\' => .ok (c, 1)
  | 'N' => .ok ('\u0085', 1)
  | '_' => .ok ('\u00a0', 1)
  | 'L' => .ok ('\u2028', 1)
  | 'P' => .ok ('\u2029', 1)
  | 'x' => do return (← hexCharacter 2 r, 3)
  | 'u' => do return (← hexCharacter 4 r, 5)
  | 'U' => do return (← hexCharacter 8 r, 9)
  | _ => .error .badEscape

/-- A stretch of a quoted scalar without blanks, newest character first; also whether an
escaped line break ended it. -/
def quotedRun (single : Bool) : Nat → List Char → Cursor →
    Except Fault (List Char × Bool × Cursor)
  | 0, acc, p => .ok (acc, false, p)
  | fuel + 1, acc, p =>
    match p.rest with
    | [] => .ok (acc, false, p)
    | c :: r =>
      if isSpace c || isBreak c then .ok (acc, false, p)
      else if single then
        match c, r with
        | '\'', '\'' :: _ => quotedRun single fuel ('\'' :: acc) (p.skip 2)
        | '\'', _ => .ok (acc, false, p)
        | _, _ => quotedRun single fuel (c :: acc) p.skip
      else
        match c, r with
        | '"', _ => .ok (acc, false, p)
        | '\\', d :: r' =>
          if isBreak d then .ok (acc, true, p.skip.skipBreak)
          else do
            let (e, n) ← escaped d r'
            quotedRun single fuel (e :: acc) (p.skip (n + 1))
        | '\\', [] => .error .badEscape
        | _, _ => quotedRun single fuel (c :: acc) p.skip

/-- A quoted scalar after its opening quote; what was read of it is given newest first. -/
def quotedScalar (single : Bool) : Nat → List Char → Cursor → Except Fault (List Char × Cursor)
  | 0, _, _ => .error .openEnd
  | fuel + 1, acc, p => do
    if p.atMarker then throw (.misplacedIndicator '-')
    if p.rest.isEmpty then throw .openEnd
    let (acc, broken, p) ← quotedRun single (p.rest.length + 1) acc p
    if p.rest.head? = some (if single then '\'' else '"') then return (acc.reverse, p.skip)
    let (g, p) ← Gap.read 0 (p.rest.length + 1) { broken := broken } p
    quotedScalar single fuel (g.text.reverse ++ acc) p

/-- Empty lines of a block scalar and the indentation before its next line. An indentation
of zero is not yet known, and is then the deepest one met. -/
def blockBreaks (parent : Int) : Nat → Nat → Nat → List Char → Cursor →
    Except Fault (Nat × List Char × Cursor)
  | 0, indent, _, acc, p => .ok (indent, acc, p)
  | fuel + 1, indent, deepest, acc, p =>
    let inside := fun (column : Nat) => indent == 0 || column < indent
    let spaces := (p.rest.takeWhile (· = ' ')).length
    let p := p.skip (if indent == 0 then spaces else min spaces (indent - p.column))
    let deepest := max deepest p.column
    if inside p.column ∧ p.rest.head? = some '\t' then .error .misplacedTab
    else if !p.rest.isEmpty && atBreak p.rest then
      blockBreaks parent fuel indent deepest (acc ++ p.breakText) p.skipBreak
    else
      let indent := if indent == 0 then max (max deepest (parent + 1).toNat) 1 else indent
      .ok (indent, acc, p)

inductive Chomping where
  | strip
  | clip
  | keep
  deriving DecidableEq

/-- The lines of a block scalar. `pending` is the break of the line before, `more` the empty
lines after it, `indented` whether that line began with a blank. -/
def blockLines (literal : Bool) (parent : Int) (indent : Nat) :
    Nat → List Char → List Char → List Char → Bool → Cursor →
      Except Fault (List Char × List Char × List Char × Cursor)
  | 0, acc, pending, more, _, p => .ok (acc, pending, more, p)
  | fuel + 1, acc, pending, more, indented, p =>
    if p.column ≠ indent ∨ p.rest.isEmpty then .ok (acc, pending, more, p)
    else do
      let blank := match p.rest with
        | c :: _ => isSpace c
        | [] => false
      let joint :=
        if !literal ∧ pending = ['\n'] ∧ !indented ∧ !blank then
          if more.isEmpty then [' '] else []
        else pending
      let (line, p) := p.takeWhile fun c => !isBreak c
      let acc := acc ++ joint ++ more ++ line
      let (pending, p) := if p.rest.isEmpty then ([], p) else (p.breakText, p.skipBreak)
      let (_, more, p) ← blockBreaks parent (p.rest.length + 1) indent 0 [] p
      blockLines literal parent indent fuel acc pending more blank p

/-- What stands between the indicator of a block scalar and the end of its line. -/
def blockHeader (p : Cursor) : Except Fault (Chomping × Nat × Cursor) := do
  let chomp := fun (p : Cursor) => match p.rest with
    | '+' :: _ => (Chomping.keep, p.skip)
    | '-' :: _ => (Chomping.strip, p.skip)
    | _ => (Chomping.clip, p)
  let digit := fun (p : Cursor) => match p.rest with
    | c :: _ => if c.isDigit then (some (c.toNat - '0'.toNat), p.skip) else (none, p)
    | [] => (none, p)
  let (chomping, p) := chomp p
  let (increment, p) := digit p
  let (chomping, p) := if chomping = .clip ∧ increment.isSome then chomp p else (chomping, p)
  if increment = some 0 then throw .badBlockHeader
  let p := (p.skipWhile isSpace).skipComment
  if !atBreak p.rest then throw .badBlockHeader
  return (chomping, increment.getD 0, if p.rest.isEmpty then p else p.skipBreak)

/-- A block scalar after its indicator, below a block of indentation `parent`. -/
def blockScalar (literal : Bool) (parent : Int) (p : Cursor) :
    Except Fault (List Char × Cursor) := do
  let (chomping, increment, p) ← blockHeader p
  let indent := if increment = 0 then 0
    else if 0 ≤ parent then parent.toNat + increment else increment
  let (indent, more, p) ← blockBreaks parent (p.rest.length + 1) indent 0 [] p
  let (text, pending, more, p) ←
    blockLines literal parent indent (p.rest.length + 1) [] [] more false p
  let tail := match chomping with
    | .strip => []
    | .clip => pending
    | .keep => pending ++ more
  return (text ++ tail, p)

def anchorName (p : Cursor) : Except Fault (String × Cursor) := do
  let (name, p) := p.takeWhile isWord
  if name.isEmpty ∨ !(atBlank p.rest || startsIn "?:,]\x7d%@\x60" p.rest) then throw .badAnchor
  return (String.ofList name, p)

/-- The character of a run of percent-encoded bytes, and how many bytes it took. -/
def percentCharacter (cs : List Char) : Except Fault (Char × Nat) := do
  let byte := fun (i : Nat) => match cs.drop (3 * i) with
    | '%' :: a :: b :: _ => do return (← hexDigit? a) * 16 + (← hexDigit? b)
    | _ => none
  let tail := fun (i : Nat) => match byte i with
    | some n => if 0x80 ≤ n ∧ n < 0xC0 then Except.ok (n - 0x80) else .error Fault.badTag
    | none => .error .badTag
  match byte 0 with
  | none => throw .badTag
  | some n =>
    if n < 0x80 then return (Char.ofNat n, 1)
    else if 0xC0 ≤ n ∧ n < 0xE0 then return (Char.ofNat ((n - 0xC0) * 64 + (← tail 1)), 2)
    else if 0xE0 ≤ n ∧ n < 0xF0 then
      return (Char.ofNat ((n - 0xE0) * 4096 + (← tail 1) * 64 + (← tail 2)), 3)
    else if 0xF0 ≤ n ∧ n < 0xF8 then
      return (Char.ofNat ((n - 0xF0) * 262144 + (← tail 1) * 4096 + (← tail 2) * 64 + (← tail 3)), 4)
    else throw .badTag

/-- The characters of a tag; `verbatim` allows those that otherwise belong to flow collections. -/
def tagText (verbatim : Bool) : Nat → List Char → Cursor → Except Fault (List Char × Cursor)
  | 0, acc, p => .ok (acc, p)
  | fuel + 1, acc, p =>
    match p.rest with
    | [] => .ok (acc, p)
    | c :: _ =>
      if c = '%' then do
        let (d, n) ← percentCharacter p.rest
        tagText verbatim fuel (acc ++ [d]) (p.skip (3 * n))
      else if isWord c ∨ startsIn ";/?:@&=+$.!~*'()" p.rest ∨ (verbatim ∧ startsIn ",[]" p.rest) then
        tagText verbatim fuel (acc ++ [c]) p.skip
      else .ok (acc, p)

/-- An exclamation mark, and a word and a second mark if they follow. -/
def tagHandle (p : Cursor) : Except Fault (List Char × Cursor) :=
  match p.rest with
  | '!' :: _ =>
    let (word, p) := p.skip.takeWhile isWord
    match p.rest with
    | '!' :: _ => .ok ('!' :: word ++ ['!'], p.skip)
    | _ => .ok ('!' :: word, p)
  | _ => .error .badTag

/-- A tag: verbatim, with a handle, or local. -/
def tagToken (flow : Bool) (p : Cursor) : Except Fault (Token × Cursor) := do
  let (token, p) ← match p.rest with
    | '!' :: '<' :: _ => do
      let (text, p) ← tagText true (p.rest.length + 1) [] (p.skip 2)
      if text.isEmpty ∨ p.rest.head? ≠ some '>' then throw .badTag
      pure (Token.tag "" (String.ofList text), p.skip)
    | _ => do
      let (handle, p) ← tagHandle p
      if 1 < handle.length ∧ handle.getLast? = some '!' then do
        let (text, p) ← tagText false (p.rest.length + 1) [] p
        if text.isEmpty then throw .badTag
        pure (Token.tag (String.ofList handle) (String.ofList text), p)
      else do
        let (text, p) ← tagText false (p.rest.length + 1) (handle.drop 1) p
        pure (if text.isEmpty then Token.tag "" "!" else Token.tag "!" (String.ofList text), p)
  if !atBlank p.rest ∧ !(flow ∧ p.rest.head? = some ',') then throw .badTag
  return (token, p)

def versionNumber (p : Cursor) : Except Fault (Nat × Cursor) := do
  let (digits, p) := p.takeWhile Char.isDigit
  if digits.isEmpty ∨ 9 < digits.length then throw .badDirective
  return (Nat.ofDigitChars 10 digits 0, p)

/-- A directive after its percent sign, with the rest of its line. -/
def directive (p : Cursor) : Except Fault (Token × Cursor) := do
  let (name, p) := p.takeWhile isWord
  if name.isEmpty ∨ !atBlank p.rest then throw .badDirective
  let p := p.skipWhile isSpace
  let (token, p) ←
    if name = "YAML".toList then do
      let (major, p) ← versionNumber p
      if p.rest.head? ≠ some '.' then throw .badDirective
      let (minor, p) ← versionNumber p.skip
      pure (Token.version major minor, p)
    else if name = "TAG".toList then do
      let (handle, p) ← tagHandle p
      if 1 < handle.length ∧ handle.getLast? ≠ some '!' then throw .badDirective
      match p.rest with
      | c :: _ => if !isSpace c then throw .badDirective
      | [] => throw .badDirective
      let p := p.skipWhile isSpace
      let (expansion, p) ← tagText true (p.rest.length + 1) [] p
      if expansion.isEmpty ∨ !atBlank p.rest then throw .badDirective
      pure (Token.handle (String.ofList handle) (String.ofList expansion), p)
    else throw .badDirective
  let p := (p.skipWhile isSpace).skipComment
  if !atBreak p.rest then throw .badDirective
  return (token, if p.rest.isEmpty then p else p.skipBreak)

/-- A place where a key may turn out to have begun. -/
structure KeyStart where
  token : Nat
  /-- Whether the block cannot go on unless this is a key. -/
  required : Bool
  place : Cursor

structure Scanner where
  cursor : Cursor
  /-- Newest first. -/
  tokens : List Token := []
  count : Nat := 0
  /-- Tokens to stand before those already read, by position. -/
  splices : List (Nat × List Token) := []
  indent : Int := -1
  outer : List Int := []
  /-- One for each open flow collection, innermost first, and one for the block around. -/
  keys : List (Option KeyStart) := [none]
  keyAllowed : Bool := true

namespace Scanner

def flow (s : Scanner) : Bool := 1 < s.keys.length

def push (s : Scanner) (t : Token) : Scanner :=
  { s with tokens := t :: s.tokens, count := s.count + 1 }

def dropKey (s : Scanner) : Except Fault Scanner :=
  match s.keys with
  | some k :: ks => if k.required then .error .missingColon else .ok { s with keys := none :: ks }
  | _ => .ok s

def saveKey (s : Scanner) : Except Fault Scanner := do
  if !s.keyAllowed then return s
  let start : KeyStart :=
    { token := s.count, required := !s.flow && s.indent == s.cursor.column, place := s.cursor }
  let s ← s.dropKey
  return { s with keys := some start :: s.keys.drop 1 }

/-- A key ends on the line where it began, within 1024 characters. -/
def dropStaleKeys (s : Scanner) : Except Fault Scanner := do
  let keys ← s.keys.mapM fun key => match key with
    | none => pure none
    | some k =>
      if k.place.line < s.cursor.line ∨ k.place.index + 1024 < s.cursor.index then
        if k.required then throw .missingColon else pure none
      else pure (some k)
  return { s with keys := keys }

/-- Opens a block at a deeper column. -/
def openBlock (s : Scanner) (column : Nat) (t : Token) : Scanner :=
  if !s.flow ∧ s.indent < column then
    { s with outer := s.indent :: s.outer, indent := column }.push t
  else s

def closeBlocks (s : Scanner) (column : Int) : Scanner :=
  let rec close : List Int → Scanner → Scanner
    | [], s => s
    | i :: is, s =>
      if s.indent > column then close is { s.push .blockEnd with indent := i, outer := is }
      else s
  if s.flow then s else close s.outer s

/-- White space, comments and line breaks before a token. -/
def skipBlank : Nat → Scanner → Scanner
  | 0, s => s
  | fuel + 1, s =>
    let p := if s.cursor.column == 0 ∧ s.cursor.rest.head? = some '\ufeff' then s.cursor.skip
      else s.cursor
    let p := p.skipWhile fun c => c = ' ' || (c = '\t' && (s.flow || !s.keyAllowed))
    let p := p.skipComment
    if !p.rest.isEmpty && atBreak p.rest then
      skipBlank fuel { s with cursor := p.skipBreak, keyAllowed := s.keyAllowed || !s.flow }
    else { s with cursor := p }

def moved (s : Scanner) (p : Cursor) : Scanner := { s with cursor := p }

/-- A token that is one indicator of length `n`. -/
def indicator (s : Scanner) (t : Token) (keyAllowed : Bool) (n : Nat := 1) : Scanner :=
  { (s.push t).moved (s.cursor.skip n) with keyAllowed := keyAllowed }

def openFlow (s : Scanner) (t : Token) : Except Fault Scanner := do
  let s ← s.saveKey
  return { s with keys := none :: s.keys }.indicator t true

def closeFlow (s : Scanner) (t : Token) : Except Fault Scanner := do
  let s ← s.dropKey
  return { s with keys := if s.flow then s.keys.drop 1 else s.keys }.indicator t false

def blockEntry (s : Scanner) : Except Fault Scanner := do
  if !s.flow ∧ !s.keyAllowed then throw (.misplacedIndicator '-')
  let s ← (s.openBlock s.cursor.column .blockSequence).dropKey
  return s.indicator .blockEntry true

def explicitKey (s : Scanner) : Except Fault Scanner := do
  if !s.flow ∧ !s.keyAllowed then throw (.misplacedIndicator '?')
  let s ← (s.openBlock s.cursor.column .blockMapping).dropKey
  return s.indicator .key (!s.flow)

/-- A colon makes the tokens since the last possible start a key, or follows an explicit key. -/
def valueIndicator (s : Scanner) : Except Fault Scanner := do
  match s.keys with
  | some k :: ks =>
    let opens := !s.flow && decide (s.indent < k.place.column)
    let s := if opens then { s with outer := s.indent :: s.outer, indent := k.place.column } else s
    let opening := if opens then [Token.blockMapping, .key] else [.key]
    let s := { s with splices := (k.token, opening) :: s.splices, keys := none :: ks }
    return s.indicator .value false
  | _ =>
    if !s.flow ∧ !s.keyAllowed then throw (.misplacedIndicator ':')
    let s := s.openBlock s.cursor.column .blockMapping
    return s.indicator .value (!s.flow)

/-- A token that may itself begin a key, and after which none may begin. -/
def atom (s : Scanner) (read : Cursor → Except Fault (Token × Cursor)) : Except Fault Scanner := do
  let s ← s.saveKey
  let (t, p) ← read s.cursor
  return { (s.push t).moved p with keyAllowed := false }

def blockText (s : Scanner) (literal : Bool) : Except Fault Scanner := do
  let s ← s.dropKey
  let (text, p) ← blockScalar literal s.indent s.cursor.skip
  return { (s.push (.scalar false (String.ofList text))).moved p with keyAllowed := true }

def plainText (s : Scanner) : Except Fault Scanner := do
  let s ← s.saveKey
  let (text, broken, p) ←
    plainScalar s.flow (s.indent + 1).toNat (s.cursor.rest.length + 1) {} [] s.cursor
  return { (s.push (.scalar true (String.ofList text))).moved p with keyAllowed := broken }

/-- Whether a plain scalar may begin with `c` before `r`. -/
def startsPlain (flow : Bool) (c : Char) (r : List Char) : Bool :=
  if c = '-' then match r with
    | d :: _ => !isSpace d
    | [] => true
  else if c = '?' ∨ c = ':' then !flow && !atBlank r
  else !(isSpace c || isBreak c || startsIn ",[]\x7b\x7d#&*!|>'\"%@\x60" [c])

def quoted (single : Bool) (p : Cursor) : Except Fault (Token × Cursor) := do
  let (text, p) ← quotedScalar single (p.rest.length + 1) [] p.skip
  return (.scalar false (String.ofList text), p)

def named (make : String → Token) (p : Cursor) : Except Fault (Token × Cursor) := do
  let (name, p) ← anchorName p.skip
  return (make name, p)

/-- Reads the token that begins with `c` before `r`. -/
def token (s : Scanner) (c : Char) (r : List Char) : Except Fault Scanner :=
  if s.cursor.column == 0 ∧ c = '%' then do
    let s ← (s.closeBlocks (-1)).dropKey
    let (t, p) ← directive s.cursor.skip
    return { (s.push t).moved p with keyAllowed := false }
  else if s.cursor.atMarker then do
    let s ← (s.closeBlocks (-1)).dropKey
    return s.indicator (if c = '-' then .documentStart else .documentEnd) false 3
  else if c = '[' then s.openFlow .flowSequence
  else if c = '\x7b' then s.openFlow .flowMapping
  else if c = ']' then s.closeFlow .flowSequenceEnd
  else if c = '\x7d' then s.closeFlow .flowMappingEnd
  else if c = ',' then do return (← s.dropKey).indicator .flowEntry true
  else if c = '-' ∧ atBlank r then s.blockEntry
  else if c = '?' ∧ (s.flow ∨ atBlank r) then s.explicitKey
  else if c = ':' ∧ (s.flow ∨ atBlank r) then s.valueIndicator
  else if c = '*' then s.atom (named .alias)
  else if c = '&' then s.atom (named .anchor)
  else if c = '!' then s.atom (tagToken s.flow)
  else if c = '|' ∧ !s.flow then s.blockText true
  else if c = '>' ∧ !s.flow then s.blockText false
  else if c = '\'' then s.atom (quoted true)
  else if c = '"' then s.atom (quoted false)
  else if startsPlain s.flow c r then s.plainText
  else .error .strayCharacter

/-- Every token takes at least one character, so the length of the text is fuel enough. -/
def run : Nat → Scanner → Except Fault Scanner
  | 0, s => .ok s
  | fuel + 1, s => do
    let s ← (skipBlank (s.cursor.rest.length + 1) s).dropStaleKeys
    match s.cursor.rest with
    | [] => (s.closeBlocks (-1)).dropKey
    | c :: r => run fuel (← (s.closeBlocks s.cursor.column).token c r)

/-- The tokens in order, each splice before the token at its position. -/
def finish (s : Scanner) : List Token :=
  let rec weave : Nat → List Token → List (Nat × List Token) → List Token
    | _, [], _ => []
    | n, t :: ts, splices =>
      match splices with
      | (m, before) :: more => if m = n then before ++ t :: weave (n + 1) ts more
        else t :: weave (n + 1) ts splices
      | [] => t :: ts
  weave 0 s.tokens.reverse (s.splices.mergeSort fun a b => a.1 ≤ b.1)

end Scanner

def tokens (text : List Char) : Except Fault (List Token) := do
  if !text.all isReadable then throw .controlCharacter
  return (← Scanner.run (text.length + 1) { cursor := { rest := text } }).finish

end Rollout.Yaml
