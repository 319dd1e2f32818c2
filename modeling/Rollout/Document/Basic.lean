import Rollout.BuildError
import Rollout.Path.Edit
import Rollout.Yaml.Reader
import Rollout.Yaml.Writer
/-!
One manifest object as an open tree. Its identity is read from the tree; the
fields `apiVersion` and `kind` cannot be edited, and an edit that would leave
`metadata` without a valid name is taken back.
-/

namespace Rollout

structure CrdRef where
  name : String
  group : String
  kind : String
  versions : List String
  namespaced : Bool
  deriving DecidableEq

/-- What a build has found out about a document. -/
structure Markers where
  /-- The type that the document itself defines. -/
  defines : Option CrdRef := none
  /-- The type of the build that the document is an instance of. -/
  requires : Option CrdRef := none
  /-- Whether the document was added and not authored. -/
  synthesized : Bool := false
  deriving DecidableEq

structure Document where
  root : Value
  markers : Markers := {}
  wellKeyed : root.WellKeyed
  deriving DecidableEq

/-- The group and the version of an `apiVersion`, split at its last slash. -/
def splitApiVersion (apiVersion : String) : String × String :=
  let parts := Text.splitOn '/' apiVersion.toList
  match parts.reverse with
  | version :: group :: more =>
    (String.ofList (List.intercalate ['/'] (group :: more).reverse), String.ofList version)
  | _ => ("", apiVersion)

/-- A document is an instance of a type if group, version and kind are those of the type. -/
def CrdRef.matches (c : CrdRef) (apiVersion kind : String) : Bool :=
  let (group, version) := splitApiVersion apiVersion
  c.kind == kind && c.group == group && c.versions.contains version

namespace Document

/-- A document with nothing but its identity. -/
def new (apiVersion kind name : String) : Document where
  root := .mapping [("apiVersion", .string apiVersion), ("kind", .string kind),
    ("metadata", .mapping [("name", .string name)])]
  wellKeyed := by simp [Ordered.keys]

def minimalNamespace (name : String) : Document := new "v1" "Namespace" name

def isNonEmptyText : Value → Bool
  | .string s => !s.isEmpty
  | _ => false

/-- `metadata` is a mapping with a name; its namespace is absent, null or a string. -/
def checkMetadata (metadata : Value) : Except DocumentFault Unit :=
  if !metadata.isMapping then .error .metadataNotMapping
  else if !(metadata.field? "name").any isNonEmptyText then .error .badName
  else match metadata.field? "namespace" with
    | none | some .null | some (.string _) => .ok ()
    | some _ => .error .badNamespace

def checkTextField (root : Value) (field : String) : Except DocumentFault Unit :=
  match root.field? field with
  | none => .error (.missing field)
  | some v => if isNonEmptyText v then .ok () else .error (.notText field)

def check (root : Value) : Except DocumentFault Unit := do
  if !root.isMapping then throw .notMapping
  checkTextField root "apiVersion"
  checkTextField root "kind"
  match root.field? "metadata" with
  | none => throw (.missing "metadata")
  | some m => checkMetadata m

def ofTree (root : Tree) : Except DocumentFault Document := do
  check root
  return { root := root, wellKeyed := root.2 }

variable (d : Document)

def apiVersion : String := (d.root.fieldText? "apiVersion").getD ""

def kind : String := (d.root.fieldText? "kind").getD ""

def group : String := (splitApiVersion d.apiVersion).1

def version : String := (splitApiVersion d.apiVersion).2

def metadata : Value := (d.root.field? "metadata").getD .null

def name : String := (d.metadata.fieldText? "name").getD ""

/-- The namespace; an empty one counts as none. -/
def ns? : Option String := (d.metadata.fieldText? "namespace").filter (!·.isEmpty)

def key : Key := ⟨d.kind, d.ns?, d.name⟩

def tree : Tree := ⟨d.root, d.wellKeyed⟩

def withRoot (root : Tree) : Document := { d with root := root, wellKeyed := root.2 }

def onFields (f : Fields → Fields) : Value → Value
  | .mapping fs => .mapping (f fs)
  | v => v

/-- A change of fields that gives no key twice. -/
def KeepsKeys (f : Fields → Fields) : Prop :=
  ∀ fs, (Value.mapping fs).WellKeyed → (Value.mapping (f fs)).WellKeyed

theorem wellKeyed_onFields {f : Fields → Fields} (hf : KeepsKeys f) {v : Value}
    (hv : v.WellKeyed) : (onFields f v).WellKeyed := by
  cases v with
  | mapping fs => exact hf fs hv
  | _ => exact hv

/-- Changes `metadata`, if it is a mapping. -/
def modifyMetadata (f : Fields → Fields) (hf : KeepsKeys f) : Document :=
  d.withRoot ⟨onFields (Ordered.modify "metadata" (onFields f)) d.root,
    wellKeyed_onFields (fun _ h => h.modify "metadata" fun _ => wellKeyed_onFields hf) d.wellKeyed⟩

def withNs (ns : Option String) (ms : Fields) : Fields :=
  match ns with
  | some ns => Ordered.put "namespace" (.string ns) ms
  | none => Ordered.remove "namespace" ms

theorem withNs_keepsKeys (ns : Option String) : KeepsKeys (withNs ns) := by
  intro ms h
  cases ns with
  | some ns => exact h.put "namespace" trivial
  | none => exact h.remove "namespace"

/-- Sets or clears the namespace. -/
def setNs (ns : Option String) : Document := d.modifyMetadata (withNs ns) (withNs_keepsKeys ns)

/-- The value at a path; `none` also for a text that is no path. -/
def get? (path : String) : Option Value :=
  match Path.parse path with
  | .ok p => p.get? d.root
  | .error _ => none

def text? (path : String) : Option String := (d.get? path).bind Value.text?

def fields : Fields := d.root.fields?.getD []

def spec? : Option Value := d.root.field? "spec"

structure Edited (α : Type) where
  outcome : Except BuildError α
  document : Document

/-- Puts back a top-level field as it was before an edit. -/
def restore (field : String) (before : Option Value) (root : Value) : Value :=
  onFields (fun fs => match before with
    | some v => Ordered.put field v fs
    | none => Ordered.remove field fs) root

/-- The edited tree with a top-level field as it was in the document. -/
def restored (field : String) (root : Tree) : Tree where
  val := restore field (d.root.field? field) root
  property := by
    refine wellKeyed_onFields (fun fs h => ?_) root.2
    split
    · next v hv => exact h.put field (d.wellKeyed.field? hv)
    · exact h.remove field

/-- Edits the tree under the rules of identity. `change` gives its result and the tree after
it, also where it fails; the field it touched is put back then. -/
def edit {α : Type} (path : Path) (change : Tree → Except BuildError α × Tree) : Edited α :=
  match path with
  | .key field :: _ =>
    if field = "apiVersion" ∨ field = "kind" then ⟨.error (.fixedField field), d⟩
    else
      let (result, root) := change d.tree
      let outcome := do
        let a ← result
        if field = "metadata" then
          ((checkMetadata ((root.1.field? field).getD .null)).mapError .invalidDocument)
        return a
      match outcome with
      | .ok a => ⟨.ok a, d.withRoot root⟩
      | .error e => ⟨.error e, d.withRoot (d.restored field root)⟩
  | _ => ⟨.error (.invalidPath path.text .noField), d⟩

def parsePath (path : String) : Except BuildError Path :=
  (Path.parse path).mapError (.invalidPath path)

def set (path : String) (x : Tree) : Edited Unit :=
  match parsePath path with
  | .error e => ⟨.error e, d⟩
  | .ok p => d.edit p fun root => match h : p.set x root with
    | .ok v => (.ok (), ⟨v, p.wellKeyed_set x.2 root.2 (.inl h)⟩)
    | .error v =>
      (.error (.invalidPath p.text .indexTooFar), ⟨v, p.wellKeyed_set x.2 root.2 (.inr h)⟩)

/-- Removes a value by path; `metadata` as a whole cannot be removed. -/
def remove (path : String) : Edited (Option Value) :=
  match parsePath path with
  | .error e => ⟨.error e, d⟩
  | .ok [.key "metadata"] => ⟨.error (.fixedField "metadata"), d⟩
  | .ok p => d.edit p fun root =>
    let removed := p.remove root
    (.ok removed.1, ⟨removed.2, p.wellKeyed_remove root.2⟩)

def isCrd : Bool := d.kind == "CustomResourceDefinition" && d.group == "apiextensions.k8s.io"

def isNamespace : Bool := d.kind == "Namespace" && d.apiVersion == "v1"

def toYaml : String := d.root.toYaml

end Document

end Rollout
