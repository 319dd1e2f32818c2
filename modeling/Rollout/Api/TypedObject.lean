import Rollout.Api.Shape
import Rollout.Document.Basic
/-!
Objects on their way to and from a server. What they are and their metadata have a shape;
the other fields are kept as they are.
-/

namespace Rollout

structure TypedObject where
  /-- The version of the interface, and the kind. -/
  types : Option (String × String) := none
  metadata : Fields := []
  others : Fields := []
  metadata_wellKeyed : (Value.mapping metadata).WellKeyed
  others_wellKeyed : ∀ e ∈ others, e.2.WellKeyed
  deriving DecidableEq

namespace TypedObject

def isTypeField (k : String) : Bool := k = "apiVersion" || k = "kind"

/-- The types of an object, if both are there and are texts, and the names of the fields that
were read for them: they are read up to one that is no text. -/
def readTypes (fs : Fields) : Option (String × String) × List String :=
  let typed := fs.filter fun (k, _) => isTypeField k
  let types := do
    return (← (Ordered.find? "apiVersion" typed).bind Value.text?,
      ← (Ordered.find? "kind" typed).bind Value.text?)
  let used := match typed with
    | (k, .string _) :: rest => k :: Ordered.keys rest
    | (k, _) :: _ => [k]
    | [] => []
  (types, used)

def ofTree? (t : Tree) : Option TypedObject :=
  match h : t.1.fields? with
  | none => none
  | some fs =>
    match hm : Shape.metadata.read? ((Ordered.find? "metadata" fs).getD (.mapping [])) with
    | some (.mapping metadata) =>
      let (types, used) := readTypes fs
      have hfs : (Value.mapping fs).WellKeyed := t.2.fields? h
      some {
        types := types
        metadata := metadata
        others := fs.filter fun (k, _) => k ≠ "metadata" ∧ k ∉ used
        metadata_wellKeyed := Shape.wellKeyed_read? Shape.metadata 
            (hfs.find?_getD (Value.wellKeyed_mapping.mpr (by simp [Ordered.keys]))) hm
        others_wellKeyed := fun e he =>
          (Value.wellKeyed_mapping.mp hfs).2 e (List.mem_filter.mp he |>.1) }
    | _ => none

def toFields (o : TypedObject) : Fields :=
  let types : Fields := match o.types with
    | some (apiVersion, kind) => [("apiVersion", .string apiVersion), ("kind", .string kind)]
    | none => []
  Ordered.ofList (types ++ ("metadata", .mapping o.metadata) :: o.others)

theorem wellKeyed_toFields (o : TypedObject) : (Value.mapping o.toFields).WellKeyed := by
  refine .ofList fun e he => ?_
  rcases List.mem_append.mp he with ht | hr
  · split at ht
    · simp only [List.mem_cons, List.not_mem_nil, or_false] at ht
      rcases ht with rfl | rfl <;> trivial
    · cases ht
  · rcases List.mem_cons.mp hr with rfl | ho
    · exact o.metadata_wellKeyed
    · exact o.others_wellKeyed e ho

def toTree (o : TypedObject) : Tree := ⟨.mapping o.toFields, o.wellKeyed_toFields⟩

/-- Metadata that only the server gives. -/
def serverMetadata : List String :=
  ["managedFields", "resourceVersion", "uid", "creationTimestamp", "generation"]

/-- The object without the metadata that only the server gives. -/
def authored (o : TypedObject) : TypedObject :=
  { o with
    metadata := o.metadata.filter fun (k, _) => k ∉ serverMetadata
    metadata_wellKeyed := o.metadata_wellKeyed.sublist List.filter_sublist }

/-- Gives a text for a key that is not there. -/
def fill (k s : String) (fs : Fields) : Fields :=
  if Ordered.has k fs then fs else Ordered.put k (.string s) fs

theorem wellKeyed_fill {fs : Fields} (h : (Value.mapping fs).WellKeyed) (k s : String) :
    (Value.mapping (fill k s fs)).WellKeyed := by
  unfold fill
  split
  · exact h
  · exact h.put k trivial

/-- The document of an object as it lives. Objects in lists do not say what they are. -/
def toDocument (apiVersion kind : String) (o : TypedObject) : Except DocumentFault Document :=
  Document.ofTree ⟨.mapping (fill "kind" kind (fill "apiVersion" apiVersion o.authored.toFields)),
    wellKeyed_fill (wellKeyed_fill o.authored.wellKeyed_toFields _ _) _ _⟩

end TypedObject

end Rollout
