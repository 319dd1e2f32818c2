import Rollout.Document.LastApplied
import Rollout.Manifest
import Rollout.Proofs.Value.Canonical
/-!
Edits that leave the identity of a document as it is: notes, and the canonical form.
-/

namespace Rollout

namespace Value

/-- A field of a canonical mapping is the canonical form of the field. -/
theorem field?_canonicalBy (order : List String) {v : Value} (h : v.WellKeyed) (k : String) :
    (canonicalBy order v).field? k =
      (v.field? k).map (canonicalEntry (isRequirement (v.fields?.getD [])) k) := by
  cases v with
  | mapping fs =>
      rw [wellKeyed_mapping] at h
      rw [canonicalBy]
      exact find?_mergeSort_canonicalFields order (isRequirement fs) k h.1
  | sequence vs =>
      rw [canonicalBy]
      rfl
  | _ =>
      simp only [canonicalBy]
      rfl

theorem text?_canonicalBy (order : List String) (v : Value) :
    (canonicalBy order v).text? = v.text? := by
  cases v <;> simp only [canonicalBy, text?]

theorem text?_sortItems (v : Value) : (sortItems v).text? = v.text? := by
  cases v <;> rfl

theorem text?_canonicalEntry (requirement : Bool) (k : String) (v : Value) :
    (canonicalEntry requirement k v).text? = v.text? := by
  rw [canonicalEntry]
  split
  · rw [text?_sortItems, text?_canonicalBy]
  · rw [text?_canonicalBy]

theorem fieldText?_canonicalBy (order : List String) {v : Value} (h : v.WellKeyed) (k : String) :
    (canonicalBy order v).fieldText? k = v.fieldText? k := by
  rw [fieldText?, fieldText?, field?_canonicalBy order h]
  cases v.field? k with
  | none => rfl
  | some x => exact text?_canonicalEntry _ k x

end Value

namespace Document

theorem field?_onFields {f : Fields → Fields} {k : String}
    (hf : ∀ fs, Ordered.find? k (f fs) = Ordered.find? k fs) (v : Value) :
    (onFields f v).field? k = v.field? k := by
  cases v with
  | mapping fs => exact hf fs
  | _ => rfl

variable (d : Document)

theorem metadata_modifyMetadata (f : Fields → Fields) (hf : KeepsKeys f) :
    (d.modifyMetadata f hf).metadata = onFields f d.metadata := by
  change ((onFields _ d.root).field? "metadata").getD .null = _
  rw [metadata]
  cases d.root with
  | mapping fs =>
      change (Ordered.find? "metadata" (Ordered.modify "metadata" (onFields f) fs)).getD .null =
        onFields f ((Ordered.find? "metadata" fs).getD .null)
      rw [Ordered.find?_modify, if_pos rfl]
      cases Ordered.find? "metadata" fs <;> rfl
  | _ => rfl

/-- Only the name and the namespace of the metadata belong to the identity. -/
theorem key_modifyMetadata {f : Fields → Fields} (hf : KeepsKeys f)
    (hname : ∀ fs, Ordered.find? "name" (f fs) = Ordered.find? "name" fs)
    (hns : ∀ fs, Ordered.find? "namespace" (f fs) = Ordered.find? "namespace" fs) :
    (d.modifyMetadata f hf).key = d.key := by
  have hkind : (d.modifyMetadata f hf).root.field? "kind" = d.root.field? "kind" := by
    refine field?_onFields (fun fs => ?_) d.root
    rw [Ordered.find?_modify, if_neg (by decide)]
  rw [key, key, kind, kind, Value.fieldText?, Value.fieldText?, hkind, name, name, ns?, ns?,
    metadata_modifyMetadata, Value.fieldText?, Value.fieldText?, Value.fieldText?,
    Value.fieldText?, field?_onFields hname, field?_onFields hns]

theorem Note.field_ne (n : Note) : n.field ≠ "name" ∧ n.field ≠ "namespace" := by
  cases n <;> decide

theorem find?_withNote {n : Note} {j : String} (h : n.field ≠ j) (k v : String) (ms : Fields) :
    Ordered.find? j (withNote n k v ms) = Ordered.find? j ms := by
  rw [withNote, Ordered.find?_put, if_neg h]

theorem find?_withoutNote {n : Note} {j : String} (h : n.field ≠ j) (k : String) (ms : Fields) :
    Ordered.find? j (withoutNote n k ms) = Ordered.find? j ms := by
  unfold withoutNote
  split
  · split
    · split
      · exact Ordered.find?_remove_of_ne h ms
      · rw [Ordered.find?_put, if_neg h]
    · rfl
  · rfl

theorem key_setNote (n : Note) (k v : String) : (d.setNote n k v).key = d.key :=
  d.key_modifyMetadata (withNote_keepsKeys n k v) (find?_withNote n.field_ne.1 k v)
    (find?_withNote n.field_ne.2 k v)

theorem key_removeNote (n : Note) (k : String) : (d.removeNote n k).2.key = d.key :=
  d.key_modifyMetadata (withoutNote_keepsKeys n k) (find?_withoutNote n.field_ne.1 k)
    (find?_withoutNote n.field_ne.2 k)

/-- The record of what was applied does not belong to the identity. -/
theorem key_withLastApplied : d.withLastApplied.key = d.key := by
  rw [withLastApplied, key_setNote, key_removeNote]

theorem key_canonical : d.canonical.key = d.key := by
  have hmetadata (k : String) : d.canonical.metadata.fieldText? k = d.metadata.fieldText? k := by
    change (((Value.canonicalBy Value.topOrder d.root).field? "metadata").getD .null).fieldText? k =
      ((d.root.field? "metadata").getD .null).fieldText? k
    rw [Value.field?_canonicalBy _ d.wellKeyed]
    cases hm : d.root.field? "metadata" with
    | none => rfl
    | some m =>
        have hset (requirement : Bool) : Value.isSetField requirement "metadata" = false := by
          cases requirement <;> decide
        rw [Option.map_some, Option.getD_some, Option.getD_some, Value.canonicalEntry, hset]
        exact Value.fieldText?_canonicalBy _ (d.wellKeyed.field? hm) k
  have hkind : d.canonical.kind = d.kind :=
    congrArg (·.getD "") (Value.fieldText?_canonicalBy _ d.wellKeyed "kind")
  rw [key, key, hkind, name, name, ns?, ns?, hmetadata, hmetadata]

theorem kind_canonical : d.canonical.kind = d.kind := congrArg Key.kind d.key_canonical

theorem name_canonical : d.canonical.name = d.name := congrArg Key.name d.key_canonical

theorem ns?_canonical : d.canonical.ns? = d.ns? := congrArg Key.ns d.key_canonical

theorem apiVersion_canonical : d.canonical.apiVersion = d.apiVersion :=
  congrArg (·.getD "") (Value.fieldText?_canonicalBy _ d.wellKeyed "apiVersion")

theorem isCrd_canonical : d.canonical.isCrd = d.isCrd := by
  rw [isCrd, isCrd, group, group, d.kind_canonical, d.apiVersion_canonical]

/-- Other fields than the metadata are as they were. -/
theorem field?_setNs (ns : Option String) {k : String} (hk : "metadata" ≠ k) :
    (d.setNs ns).root.field? k = d.root.field? k :=
  field?_onFields (fun fs => by rw [Ordered.find?_modify, if_neg hk]) d.root

theorem kind_setNs (ns : Option String) : (d.setNs ns).kind = d.kind := by
  rw [kind, kind, Value.fieldText?, Value.fieldText?, d.field?_setNs ns (by decide)]

theorem apiVersion_setNs (ns : Option String) : (d.setNs ns).apiVersion = d.apiVersion := by
  rw [apiVersion, apiVersion, Value.fieldText?, Value.fieldText?, d.field?_setNs ns (by decide)]

theorem metadata_setNs (ns : Option String) :
    (d.setNs ns).metadata = onFields (withNs ns) d.metadata :=
  d.metadata_modifyMetadata (withNs ns) (withNs_keepsKeys ns)

/-- Other fields of the metadata than the namespace too. -/
theorem metadata_field?_setNs (ns : Option String) {k : String} (hk : "namespace" ≠ k) :
    (d.setNs ns).metadata.field? k = d.metadata.field? k := by
  rw [metadata_setNs]
  refine field?_onFields (fun fs => ?_) d.metadata
  cases ns with
  | some ns => rw [withNs, Ordered.find?_put, if_neg hk]
  | none => exact Ordered.find?_remove_of_ne hk fs

theorem name_setNs (ns : Option String) : (d.setNs ns).name = d.name := by
  rw [name, name, Value.fieldText?, Value.fieldText?, d.metadata_field?_setNs ns (by decide)]

end Document

end Rollout
