import Rollout.Yaml.Token
/-!
The nodes of a YAML document. Aliases are not followed here: an alias holds the
number of its anchor, and the nodes with anchors are listed beside the root.
-/

namespace Rollout.Yaml

inductive Node where
  | alias (anchor : Nat)
  | scalar (tag : Option String) (plain : Bool) (text : String)
  | sequence (tag : Option String) (items : List Node)
  | mapping (tag : Option String) (fields : List (Node × Node))

/-- What is known of a document while its nodes are read. -/
structure Names where
  handles : List (String × String)
  /-- The number of each anchor name. -/
  anchors : List (String × Nat) := []
  /-- The nodes with anchors, in the order of their places in the text. -/
  anchored : List (Nat × Node) := []
  /-- How many events a reader of the nodes sees: two for a collection, else one. -/
  events : Nat := 0

namespace Names

/-- An anchor is numbered by the count of names known before it. A name given again takes
a new number without adding to the count, so the next new name takes that number over. -/
def define (n : Names) (name : String) : Nat × Names :=
  let number := n.anchors.length
  (number, { n with anchors := (name, number) :: n.anchors.filter (·.1 ≠ name) })

def find? (n : Names) (name : String) : Option Nat :=
  (n.anchors.find? (·.1 = name)).map (·.2)

def count (n : Names) (k : Nat) : Names := { n with events := n.events + k }

end Names

structure Properties where
  anchor : Option String := none
  tag : Option (String × String) := none

/-- An anchor and a tag, in either order. -/
def properties : List Token → Properties × List Token
  | .anchor a :: .tag h s :: ts => ({ anchor := some a, tag := some (h, s) }, ts)
  | .tag h s :: .anchor a :: ts => ({ anchor := some a, tag := some (h, s) }, ts)
  | .anchor a :: ts => ({ anchor := some a }, ts)
  | .tag h s :: ts => ({ tag := some (h, s) }, ts)
  | ts => ({}, ts)

def resolveTag (n : Names) : Option (String × String) → Except Fault (Option String)
  | none => .ok none
  | some ("", suffix) => .ok (some suffix)
  | some (handle, suffix) =>
    match n.handles.find? (·.1 = handle) with
    | some (_, expansion) => .ok (some (expansion ++ suffix))
    | none => .error (.unknownHandle handle)

def emptyNode : Node := .scalar none true ""

abbrev Read (α : Type) := Names → List Token → Except Fault (α × Names × List Token)

def readEmpty : Read Node := fun n ts => .ok (emptyNode, n.count 1, ts)

mutual

/-- A node. Only within a block may block collections begin; `indentless` allows the entries
of a sequence that is a value to stand at the column of its key. -/
def readNode (block indentless : Bool) : Nat → Read Node
  | 0, _, _ => .error .unexpectedToken
  | _ + 1, n, .alias name :: ts =>
    match n.find? name with
    | some k => .ok (.alias k, n.count 1, ts)
    | none => .error (.unknownAlias name)
  | fuel + 1, n, ts => do
    let (props, ts) := properties ts
    let tag ← resolveTag n props.tag
    let before := n.anchored
    let (number, n) := match props.anchor with
      | some a => let (k, n) := n.define a; (some k, n)
      | none => (none, n)
    let n : Names := { n with anchored := [] }
    let (node, n, ts) ← readContent block indentless props tag fuel n ts
    let here := match number with
      | some k => [(k, node)]
      | none => []
    return (node, { n with anchored := before ++ here ++ n.anchored }, ts)

/-- The content of a node after its anchor and tag. -/
def readContent (block indentless : Bool) (props : Properties) (tag : Option String) :
    Nat → Read Node
  | 0, _, _ => .error .unexpectedToken
  | fuel + 1, n, ts =>
    match ts with
    | .blockEntry :: _ =>
      if indentless then do
        let (items, n, ts) ← indentlessItems fuel (n.count 2) ts
        return (.sequence tag items, n, ts)
      else readMissing props tag n ts
    | .scalar plain text :: ts => .ok (.scalar tag plain text, n.count 1, ts)
    | .flowSequence :: ts => do
      let (items, n, ts) ← flowItems true fuel (n.count 2) ts
      return (.sequence tag items, n, ts)
    | .flowMapping :: ts => do
      let (fields, n, ts) ← flowFields true fuel (n.count 2) ts
      return (.mapping tag fields, n, ts)
    | .blockSequence :: r =>
      if block then do
        let (items, n, ts) ← blockItems fuel (n.count 2) r
        return (.sequence tag items, n, ts)
      else readMissing props tag n ts
    | .blockMapping :: r =>
      if block then do
        let (fields, n, ts) ← blockFields fuel (n.count 2) r
        return (.mapping tag fields, n, ts)
      else readMissing props tag n ts
    | _ => readMissing props tag n ts

/-- An anchor or a tag may stand for an empty scalar. -/
def readMissing (props : Properties) (tag : Option String) : Read Node := fun n ts =>
  if props.anchor.isSome ∨ props.tag.isSome then .ok (.scalar tag true "", n.count 1, ts)
  else .error .unexpectedToken

def blockItems : Nat → Read (List Node)
  | 0, _, _ => .error .unexpectedToken
  | fuel + 1, n, .blockEntry :: ts => do
    let (node, n, ts) ← match ts with
      | .blockEntry :: _ | .blockEnd :: _ => readEmpty n ts
      | _ => readNode true false fuel n ts
    let (rest, n, ts) ← blockItems fuel n ts
    return (node :: rest, n, ts)
  | _ + 1, n, .blockEnd :: ts => .ok ([], n, ts)
  | _ + 1, _, _ => .error .unexpectedToken

def indentlessItems : Nat → Read (List Node)
  | 0, _, _ => .error .unexpectedToken
  | fuel + 1, n, .blockEntry :: ts => do
    let (node, n, ts) ← match ts with
      | .blockEntry :: _ | .key :: _ | .value :: _ | .blockEnd :: _ => readEmpty n ts
      | _ => readNode true false fuel n ts
    let (rest, n, ts) ← indentlessItems fuel n ts
    return (node :: rest, n, ts)
  | _ + 1, n, ts => .ok ([], n, ts)

/-- A key or a value of a block mapping, after its indicator. -/
def blockPart : Nat → Read Node
  | 0, _, _ => .error .unexpectedToken
  | fuel + 1, n, ts => match ts with
    | .key :: _ | .value :: _ | .blockEnd :: _ => readEmpty n ts
    | _ => readNode true true fuel n ts

def blockFields : Nat → Read (List (Node × Node))
  | 0, _, _ => .error .unexpectedToken
  | fuel + 1, n, .key :: ts => do
    let (key, n, ts) ← blockPart fuel n ts
    let (value, n, ts) ← match ts with
      | .value :: ts => blockPart fuel n ts
      | _ => readEmpty n ts
    let (rest, n, ts) ← blockFields fuel n ts
    return ((key, value) :: rest, n, ts)
  | _ + 1, n, .blockEnd :: ts => .ok ([], n, ts)
  | _ + 1, _, _ => .error .unexpectedToken

/-- Items up to and with the closing bracket; items after the first follow a comma. -/
def flowItems (first : Bool) : Nat → Read (List Node)
  | 0, _, _ => .error .unexpectedToken
  | _ + 1, n, .flowSequenceEnd :: ts => .ok ([], n, ts)
  | fuel + 1, n, ts => do
    let ts ← match first, ts with
      | true, _ => pure ts
      | false, .flowEntry :: ts => pure ts
      | false, _ => throw .unexpectedToken
    match ts with
    | .flowSequenceEnd :: ts => return ([], n, ts)
    | .key :: ts =>
      let (key, value, n, ts) ← flowPair fuel (n.count 2) ts
      let (rest, n, ts) ← flowItems false fuel n ts
      return (.mapping none [(key, value)] :: rest, n, ts)
    | _ =>
      let (node, n, ts) ← readNode false false fuel n ts
      let (rest, n, ts) ← flowItems false fuel n ts
      return (node :: rest, n, ts)

/-- A key and its value alone in a flow sequence. Where the key is empty, the token after
its indicator is lost. -/
def flowPair : Nat → Names → List Token → Except Fault (Node × Node × Names × List Token)
  | 0, _, _ => .error .unexpectedToken
  | fuel + 1, n, ts => do
    let (key, n, ts) ← match ts with
      | .value :: r | .flowEntry :: r | .flowSequenceEnd :: r => readEmpty n r
      | _ => readNode false false fuel n ts
    let (value, n, ts) ← match ts with
      | .value :: ts => match ts with
        | .flowEntry :: _ | .flowSequenceEnd :: _ => readEmpty n ts
        | _ => readNode false false fuel n ts
      | _ => readEmpty n ts
    return (key, value, n, ts)

/-- Fields up to and with the closing brace; fields after the first follow a comma. -/
def flowFields (first : Bool) : Nat → Read (List (Node × Node))
  | 0, _, _ => .error .unexpectedToken
  | _ + 1, n, .flowMappingEnd :: ts => .ok ([], n, ts)
  | fuel + 1, n, ts => do
    let ts ← match first, ts with
      | true, _ => pure ts
      | false, .flowEntry :: ts => pure ts
      | false, _ => throw .unexpectedToken
    match ts with
    | .flowMappingEnd :: ts => return ([], n, ts)
    | .key :: ts =>
      let (key, n, ts) ← match ts with
        | .value :: _ | .flowEntry :: _ | .flowMappingEnd :: _ => readEmpty n ts
        | _ => readNode false false fuel n ts
      let (value, n, ts) ← match ts with
        | .value :: ts => match ts with
          | .flowEntry :: _ | .flowMappingEnd :: _ => readEmpty n ts
          | _ => readNode false false fuel n ts
        | _ => readEmpty n ts
      let (rest, n, ts) ← flowFields false fuel n ts
      return ((key, value) :: rest, n, ts)
    | _ =>
      let (key, n, ts) ← readNode false false fuel n ts
      let (value, n, ts) ← readEmpty n ts
      let (rest, n, ts) ← flowFields false fuel n ts
      return ((key, value) :: rest, n, ts)

end

/-- A document: its root and the nodes its aliases may stand for. -/
structure Parsed where
  root : Node
  anchored : List (Nat × Node)
  events : Nat

/-- Directives before a document. A version is given once, a handle once. -/
def readDirectives (version : Bool) (handles : List (String × String)) :
    List Token → Except Fault (List (String × String) × List Token)
  | .version major minor :: ts =>
    if version ∨ major ≠ 1 ∨ (minor ≠ 1 ∧ minor ≠ 2) then .error .badDirective
    else readDirectives true handles ts
  | .handle name expansion :: ts =>
    if handles.any (·.1 = name) then .error .badDirective
    else readDirectives version (handles ++ [(name, expansion)]) ts
  | ts => .ok (handles, ts)

def defaultHandles : List (String × String) := [("!", "!"), ("!!", "tag:yaml.org,2002:")]

/-- The one document of a text; `none` for a text without tokens. -/
def readDocument (ts : List Token) : Except Fault (Option Parsed) := do
  let fuel := 2 * ts.length + 2
  let finish := fun (ts : List Token) =>
    if (ts.dropWhile (· = .documentEnd)).isEmpty then pure () else throw Fault.severalDocuments
  let parsed := fun (root : Node) (n : Names) =>
    some ({ root := root, anchored := n.anchored, events := n.events } : Parsed)
  match ts with
  | [] => return none
  | .version .. :: _ | .handle .. :: _ | .documentStart :: _ =>
    let (handles, ts) ← readDirectives false [] ts
    let n : Names := { handles := handles ++ defaultHandles }
    match ts with
    | .documentStart :: ts =>
      let (root, n, ts) ← match ts with
        | [] | .version .. :: _ | .handle .. :: _ | .documentStart :: _ | .documentEnd :: _ =>
          readEmpty n ts
        | _ => readNode true false fuel n ts
      finish ts
      return parsed root n
    | _ => throw .unexpectedToken
  | _ =>
    let (root, n, ts) ← readNode true false fuel { handles := defaultHandles } ts
    finish ts
    return parsed root n

end Rollout.Yaml
