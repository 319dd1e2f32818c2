import Rollout.Yaml.Reader
/-!
Reading YAML texts whose fields are known: records, lists and texts, without a
tree between. A field given twice is an error, and so is a scalar where a
collection belongs, unless it is empty.
-/

namespace Rollout.Yaml

inductive RecordFault where
  | yaml (f : Fault)
  | duplicateField (name : String)
  | unknownField (name : String)
  | missingField (name : String)
  | unknownVariant (name : String)
  | unexpectedShape
  deriving DecidableEq

def RecordFault.message : RecordFault → String
  | .yaml f => f.message
  | .duplicateField name => s!"duplicate field '{name}'"
  | .unknownField name => s!"unknown field '{name}'"
  | .missingField name => s!"missing field '{name}'"
  | .unknownVariant name => s!"unknown variant '{name}'"
  | .unexpectedShape => "a value has an unexpected shape"

/-- Reading records counts the aliases followed so far. -/
abbrev RecordReader := StateT Nat (Except RecordFault)

def followed (d : Parsed) (node : Node) : RecordReader Node := do
  match (follow d node).run (← get) with
  | .ok (node, used) => set used; return node
  | .error f => throw (.yaml f)

/-- A plain scalar with nothing in it stands for any empty collection. -/
def isNothing : Node → Bool
  | .scalar _ true "" => true
  | _ => false

/-- The text of a scalar, whatever its form. -/
def textNode (d : Parsed) (node : Node) : RecordReader String := do
  match ← followed d node with
  | .scalar _ _ s => return s
  | _ => throw .unexpectedShape

def listNode {α : Type} (d : Parsed) (item : Node → RecordReader α) (node : Node) :
    RecordReader (List α) := do
  match ← followed d node with
  | .sequence _ items => items.mapM item
  | n => if isNothing n then return [] else throw .unexpectedShape

/-- A value that may be null: empty, or plain and spelled as null. -/
def optionalNode {α : Type} (d : Parsed) (some? : Node → RecordReader α) (node : Node) :
    RecordReader (Option α) := do
  let node ← followed d node
  match node with
  | .scalar none true s => if s.isEmpty ∨ isNullText s then return none else some <$> some? node
  | .scalar (some "tag:yaml.org,2002:null") true s =>
    if isNullText s then return none else throw (.yaml (.illTyped s))
  | _ => some <$> some? node

/-- One of a set of names: a scalar that spells it, or a tag that does, on nothing or null. -/
def variantNode {α : Type} (d : Parsed) (variant? : String → Option α) (node : Node) :
    RecordReader α := do
  let named := fun (s : String) => match variant? s with
    | some a => pure a
    | none => throw (RecordFault.unknownVariant s)
  match ← followed d node with
  | .scalar (some tag) plain s =>
    if !isOwnTag tag then named s
    else
      let a ← named (String.ofList (tag.toList.drop 1))
      if plain ∧ (s.isEmpty ∨ isNullText s) then return a else throw .unexpectedShape
  | .scalar none _ s => named s
  | _ => throw .unexpectedShape

/-- The fields of a record by name; `known` tells which names it has, and `strict` refuses
all others. -/
def recordNode (d : Parsed) (known : List String) (strict : Bool) (node : Node) :
    RecordReader (List (String × Node)) := do
  match ← followed d node with
  | .mapping _ fields =>
    fields.foldlM (fun (found : List (String × Node)) (k, v) => do
      let name ← textNode d k
      if !known.contains name then
        if strict then throw (.unknownField name) else return found
      if found.any (·.1 = name) then throw (.duplicateField name)
      return found ++ [(name, v)]) []
  | n => if isNothing n then return [] else throw .unexpectedShape

/-- Reads a text as one value; an empty text stands for an empty record. -/
def readRecord {α : Type} (text : String) (root : Parsed → Node → RecordReader α) :
    Except RecordFault α := do
  match (tokens text.toList).bind readDocument with
  | .error f => throw (.yaml f)
  | .ok found =>
    let d := found.getD { root := emptyNode, anchored := [], events := 1 }
    (root d d.root).run' 0

end Rollout.Yaml
