import Rollout.Yaml.Node
import Rollout.Yaml.Scalar
/-!
Reading a YAML text as one tree. Aliases are copied out. Keys are the texts of
their scalars; a key that repeats keeps its place and takes the last value.
-/

namespace Rollout.Yaml

/-- Collections nest at most so deep, those reached by aliases included. -/
def maxDepth : Nat := 128

/-- Each event of a document may be copied by an alias so many times. -/
def copiesPerEvent : Nat := 100

/-- Reading values counts the aliases followed so far. -/
abbrev Copying := StateT Nat (Except Fault)

def follow (d : Parsed) : Node → Copying Node
  | .alias k => do
    let used := (← get) + 1
    set used
    if d.events * copiesPerEvent < used then throw .tooManyAliases
    match d.anchored.reverse.find? (·.1 = k) with
    | some (_, node) => return node
    | none => throw (.unknownAlias (toString k))
  | node => pure node

/-- A tag whose name begins with an exclamation mark is the user's own. -/
def isOwnTag (tag : String) : Bool := tag.toList.head? = some '!'

def ofMeaning (s : String) : Meaning → Except Fault Tree
  | .null | .infiniteOrNaN => .ok .null
  | .bool b => .ok (.bool b)
  | .number n => .ok (.number n)
  | .largeWord => .error (.wordTooLarge s)
  | .text => .ok (.string s)

/-- The value of a scalar. Tags of the standard types decide its type whatever its form,
any other tag makes it text. -/
def scalarValue (tag : Option String) (plain : Bool) (s : String) : Except Fault Tree :=
  match tag with
  | none => if plain then ofMeaning s (meaning s) else .ok (.string s)
  | some tag =>
    if isOwnTag tag then .error (.unexpectedTag tag)
    else if tag = "tag:yaml.org,2002:bool" then
      match bool? s with
      | some b => .ok (.bool b)
      | none => .error (.illTyped s)
    else if tag = "tag:yaml.org,2002:int" then
      match integerMeaning? s.toList with
      | some m => ofMeaning s m
      | none => .error (.illTyped s)
    else if tag = "tag:yaml.org,2002:float" then
      match floatMeaning? s with
      | some m => ofMeaning s m
      | none => .error (.illTyped s)
    else if tag = "tag:yaml.org,2002:null" then
      if isNullText s then .ok .null else .error (.illTyped s)
    else .ok (.string s)

def refuseOwnTag (tag : Option String) : Except Fault Unit :=
  match tag with
  | some t => if isOwnTag t then .error (.unexpectedTag t) else .ok ()
  | none => .ok ()

def readKey (d : Parsed) (node : Node) : Copying String := do
  match ← follow d node with
  | .scalar _ _ s => return s
  | _ => throw .collectionAsKey

/-- The value of a node, with at most `depth` collections nested in it. -/
def valueOf (d : Parsed) : Nat → Node → Copying Tree
  | depth, node => do
    match ← follow d node with
    | .alias _ => throw .unexpectedToken
    | .scalar tag plain s => scalarValue tag plain s
    | .sequence tag items =>
      refuseOwnTag tag
      match depth with
      | 0 => throw .tooDeep
      | depth + 1 => return .sequence (← items.mapM (valueOf d depth))
    | .mapping tag fields =>
      refuseOwnTag tag
      match depth with
      | 0 => throw .tooDeep
      | depth + 1 =>
        let entries ← fields.mapM fun (k, v) => do
          return (← readKey d k, ← valueOf d depth v)
        return .ofEntries entries

/-- The tree a text writes; an empty text is null. -/
def read (text : String) : Except Fault Tree := do
  match ← readDocument (← tokens text.toList) with
  | none => return .null
  | some d => (valueOf d maxDepth d.root).run' 0

end Rollout.Yaml
