import Rollout.Json.Writer
import Rollout.Text.Blank
/-!
The canonical form of a tree: keys in a fixed order for well-known places and by
name otherwise, and sequences whose order means nothing sorted by their JSON text.
Values never change.
-/

namespace Rollout.Value

def topOrder : List String :=
  ["apiVersion", "kind", "metadata", "spec", "data", "stringData", "status"]

def metadataOrder : List String := ["name", "generateName", "namespace", "labels", "annotations"]

/-- For mappings that are items of a sequence. -/
def itemOrder : List String := ["name"]

def orderBelow (k : String) : List String := if k = "metadata" then metadataOrder else []

/-- Sequences under these keys are sets. -/
def setFields : List String :=
  ["matchExpressions", "verbs", "apiGroups", "resources", "resourceNames", "nonResourceURLs"]

/-- A selector requirement, whose `values` are a set too. -/
def isRequirement (fs : Fields) : Bool := Ordered.has "key" fs && Ordered.has "operator" fs

def isSetField (requirement : Bool) (k : String) : Bool :=
  setFields.contains k || (requirement && k == "values")

/-- The place of a key in an order; keys that are not in it come after all that are. -/
def rank (order : List String) (k : String) : Nat := order.idxOf k

def fieldLe (order : List String) (a b : String × Value) : Bool :=
  rank order a.1 < rank order b.1 || (rank order a.1 == rank order b.1 && Text.le a.1 b.1)

def sortItems : Value → Value
  | .sequence vs => .sequence
      (((vs.map fun v => (v.toJson, v)).mergeSort fun a b => Text.le a.1 b.1).map (·.2))
  | v => v

mutual

/-- The canonical form, with the keys of the outermost mapping in the given order. -/
def canonicalBy (order : List String) : Value → Value
  | .mapping fs => .mapping ((canonicalFields (isRequirement fs) fs).mergeSort (fieldLe order))
  | .sequence vs => .sequence (canonicalItems vs)
  | v => v

def canonicalItems : List Value → List Value
  | [] => []
  | v :: vs => canonicalBy itemOrder v :: canonicalItems vs

def canonicalFields (requirement : Bool) : List (String × Value) → List (String × Value)
  | [] => []
  | (k, v) :: fs =>
    let v := canonicalBy (orderBelow k) v
    (k, if isSetField requirement k then sortItems v else v) :: canonicalFields requirement fs

end

def canonical (v : Value) : Value := canonicalBy topOrder v

theorem wellKeyed_sortItems {v : Value} (h : v.WellKeyed) : (sortItems v).WellKeyed := by
  cases v with
  | sequence vs =>
      rw [sortItems, wellKeyed_sequence]
      intro x hx
      obtain ⟨e, he, rfl⟩ := List.mem_map.mp hx
      obtain ⟨v, hv, rfl⟩ := List.mem_map.mp ((List.mergeSort_perm ..).mem_iff.mp he)
      exact wellKeyed_sequence.mp h v hv
  | _ => exact h

theorem keys_canonicalFields (requirement : Bool) (fs : Fields) :
    Ordered.keys (canonicalFields requirement fs) = Ordered.keys fs := by
  induction fs with
  | nil => rfl
  | cons e fs ih => simp [canonicalFields, Ordered.keys_cons, ih]

mutual

theorem wellKeyed_canonicalBy (order : List String) : (v : Value) → v.WellKeyed →
    (canonicalBy order v).WellKeyed
  | .mapping fs, h => by
      rw [canonicalBy, wellKeyed_mapping]
      rw [wellKeyed_mapping] at h
      have hp := List.mergeSort_perm (canonicalFields (isRequirement fs) fs) (fieldLe order)
      constructor
      · have hkeys := keys_canonicalFields (isRequirement fs) fs
        exact (hp.map Prod.fst).nodup_iff.mpr (hkeys.symm ▸ h.1 :)
      · exact fun e he => wellKeyed_canonicalFields _ fs h.2 e (hp.mem_iff.mp he)
  | .sequence vs, h => by
      rw [canonicalBy, wellKeyed_sequence]
      exact wellKeyed_canonicalItems vs (wellKeyed_sequence.mp h)
  | .null, _ | .bool _, _ | .number _, _ | .string _, _ => by simp [canonicalBy]

theorem wellKeyed_canonicalItems : (vs : List Value) → (∀ v ∈ vs, v.WellKeyed) →
    ∀ v ∈ canonicalItems vs, v.WellKeyed
  | [], _ => by simp [canonicalItems]
  | v :: vs, h => by
      rw [canonicalItems]
      rw [List.forall_mem_cons] at h ⊢
      exact ⟨wellKeyed_canonicalBy itemOrder v h.1, wellKeyed_canonicalItems vs h.2⟩

theorem wellKeyed_canonicalFields (requirement : Bool) : (fs : Fields) →
    (∀ e ∈ fs, e.2.WellKeyed) → ∀ e ∈ canonicalFields requirement fs, e.2.WellKeyed
  | [], _ => by simp [canonicalFields]
  | (k, v) :: fs, h => by
      rw [canonicalFields]
      rw [List.forall_mem_cons] at h ⊢
      refine ⟨?_, wellKeyed_canonicalFields requirement fs h.2⟩
      have hv := wellKeyed_canonicalBy (orderBelow k) v h.1
      show WellKeyed (if isSetField requirement k then _ else _)
      split
      · exact wellKeyed_sortItems hv
      · exact hv

end

end Rollout.Value
