import Mathlib.Data.List.Forall2
import Rollout.Proofs.Document.Identity
/-!
Trees with the same canonical form: whatever is read from one by keys is read from the other,
except where the key is that of a set.
-/

namespace Rollout.Value

/-- Two trees have the same canonical form. -/
structure Agree (v w : Value) : Prop where
  left : v.WellKeyed
  right : w.WellKeyed
  canonical : ∃ order, canonicalBy order v = canonicalBy order w

/-- The order of a sequence under this key means something. -/
def Settled (k : String) : Prop := ∀ requirement, isSetField requirement k = false

instance (k : String) : Decidable (Settled k) :=
  inferInstanceAs (Decidable (∀ requirement, isSetField requirement k = false))

theorem Settled.canonicalEntry_eq {k : String} (hk : Settled k) (requirement : Bool) (v : Value) :
    canonicalEntry requirement k v = canonicalBy (orderBelow k) v := by
  rw [canonicalEntry, hk requirement, if_neg Bool.false_ne_true]

namespace Agree

variable {α : Type} {v w : Value}

theorem null : Agree .null .null := ⟨trivial, trivial, [], rfl⟩

theorem fieldText? (h : Agree v w) (k : String) : v.fieldText? k = w.fieldText? k := by
  obtain ⟨order, hcanonical⟩ := h.canonical
  rw [← fieldText?_canonicalBy order h.left, hcanonical, fieldText?_canonicalBy order h.right]

/-- The fields of a key agree, or there is none in either tree. -/
theorem field?_cases (h : Agree v w) {k : String} (hk : Settled k) :
    v.field? k = none ∧ w.field? k = none ∨
      ∃ x y, v.field? k = some x ∧ w.field? k = some y ∧ Agree x y := by
  obtain ⟨order, hcanonical⟩ := h.canonical
  have hfield := congrArg (·.field? k) hcanonical
  simp only [field?_canonicalBy order h.left, field?_canonicalBy order h.right] at hfield
  cases hx : v.field? k with
  | none =>
      rw [hx, Option.map_none, eq_comm, Option.map_eq_none_iff] at hfield
      exact .inl ⟨rfl, hfield⟩
  | some x =>
      rw [hx, Option.map_some, eq_comm, Option.map_eq_some_iff] at hfield
      obtain ⟨y, hy, hxy⟩ := hfield
      rw [hk.canonicalEntry_eq, hk.canonicalEntry_eq] at hxy
      exact .inr ⟨x, y, rfl, hy, h.left.field? hx, h.right.field? hy, orderBelow k, hxy.symm⟩

theorem getD_field? (h : Agree v w) {k : String} (hk : Settled k) :
    Agree ((v.field? k).getD .null) ((w.field? k).getD .null) := by
  rcases h.field?_cases hk with ⟨hv, hw⟩ | ⟨x, y, hv, hw, hxy⟩
  · rw [hv, hw]
    exact null
  · rw [hv, hw]
    exact hxy

theorem bind_field? (h : Agree v w) {k : String} (hk : Settled k) {f g : Value → Option α}
    (hf : ∀ x y, Agree x y → f x = g y) : (v.field? k).bind f = (w.field? k).bind g := by
  rcases h.field?_cases hk with ⟨hv, hw⟩ | ⟨x, y, hv, hw, hxy⟩
  · rw [hv, hw]
    rfl
  · rw [hv, hw]
    exact hf x y hxy

theorem forall₂_canonicalItems {vs ws : List Value} (hv : ∀ v ∈ vs, v.WellKeyed)
    (hw : ∀ w ∈ ws, w.WellKeyed) (h : canonicalItems vs = canonicalItems ws) :
    List.Forall₂ Agree vs ws := by
  induction vs generalizing ws with
  | nil =>
      cases ws with
      | nil => exact .nil
      | cons w ws => cases h
  | cons v vs ih =>
      cases ws with
      | nil => cases h
      | cons w ws =>
          obtain ⟨hhead, htail⟩ := List.cons.inj h
          rw [List.forall_mem_cons] at hv hw
          exact .cons ⟨hv.1, hw.1, itemOrder, hhead⟩ (ih hv.2 hw.2 htail)

theorem items? (h : Agree v w) :
    List.Forall₂ Agree (v.items?.getD []) (w.items?.getD []) := by
  obtain ⟨order, hcanonical⟩ := h.canonical
  have hv := h.left
  have hw := h.right
  cases v <;> cases w <;> simp only [canonicalBy] at hcanonical <;> first
    | exact .nil
    | cases hcanonical
    | skip
  exact forall₂_canonicalItems (wellKeyed_sequence.mp hv) (wellKeyed_sequence.mp hw)
    (Value.sequence.inj hcanonical)

end Agree

/-- Mappings have the same canonical form if they have the same for each key. -/
theorem canonicalBy_mapping_iff (order : List String) {fs gs : Fields}
    (hfs : (Ordered.keys fs).Nodup) (hgs : (Ordered.keys gs).Nodup) :
    canonicalBy order (.mapping fs) = canonicalBy order (.mapping gs) ↔
      ∀ k, (Ordered.find? k fs).map (canonicalEntry (isRequirement fs) k) =
        (Ordered.find? k gs).map (canonicalEntry (isRequirement gs) k) := by
  rw [canonicalBy, canonicalBy]
  constructor
  · intro h k
    have hfields := Value.mapping.inj h
    rw [← find?_mergeSort_canonicalFields order _ k hfs, hfields,
      find?_mergeSort_canonicalFields order _ k hgs]
  · intro h
    refine congrArg Value.mapping (mergeSort_fieldLe_eq order ?_ (by rwa [keys_canonicalFields]))
    refine Ordered.perm_of_find?_eq (by rwa [keys_canonicalFields])
      (by rwa [keys_canonicalFields]) fun k => ?_
    rw [find?_canonicalFields, find?_canonicalFields, h]

theorem canonicalBy_eq_of_fields? {v : Value} (h : v.fields? = none) (order order' : List String) :
    canonicalBy order v = canonicalBy order' v := by
  cases v with
  | mapping fs => cases h
  | _ => simp only [canonicalBy]

theorem isRequirement_eq_of_find? {fs gs : Fields}
    (h : ∀ k ∈ ["key", "operator"], Ordered.find? k fs = Ordered.find? k gs) :
    isRequirement fs = isRequirement gs := by
  simp only [List.forall_mem_cons] at h
  rw [isRequirement, isRequirement, Ordered.has, Ordered.has, Ordered.has, Ordered.has, h.1, h.2.1]

namespace Agree

variable {v w : Value} {fs gs : Fields} {k : String}

/-- The order of the outermost keys plays no part. -/
theorem canonicalBy_eq (h : Agree v w) (order : List String) :
    canonicalBy order v = canonicalBy order w := by
  obtain ⟨order', hcanonical⟩ := h.canonical
  have hv := h.left
  have hw := h.right
  cases v with
  | mapping fs =>
      cases w with
      | mapping gs =>
          have hfs := (wellKeyed_mapping.mp hv).1
          have hgs := (wellKeyed_mapping.mp hw).1
          exact (canonicalBy_mapping_iff order hfs hgs).mpr
            ((canonicalBy_mapping_iff order' hfs hgs).mp hcanonical)
      | _ =>
          simp only [canonicalBy] at hcanonical
          cases hcanonical
  | _ =>
      cases w with
      | mapping gs =>
          simp only [canonicalBy] at hcanonical
          cases hcanonical
      | _ =>
          refine (canonicalBy_eq_of_fields? rfl order order').trans (hcanonical.trans ?_)
          exact canonicalBy_eq_of_fields? rfl order' order

theorem mapping (hfs : (Value.mapping fs).WellKeyed) (hgs : (Value.mapping gs).WellKeyed)
    (h : ∀ k, (Ordered.find? k fs).map (canonicalEntry (isRequirement fs) k) =
      (Ordered.find? k gs).map (canonicalEntry (isRequirement gs) k)) :
    Agree (.mapping fs) (.mapping gs) :=
  ⟨hfs, hgs, [], (canonicalBy_mapping_iff [] (wellKeyed_mapping.mp hfs).1
    (wellKeyed_mapping.mp hgs).1).mpr h⟩

theorem entry_eq (h : Agree (.mapping fs) (.mapping gs)) (k : String) :
    (Ordered.find? k fs).map (canonicalEntry (isRequirement fs) k) =
      (Ordered.find? k gs).map (canonicalEntry (isRequirement gs) k) :=
  (canonicalBy_mapping_iff [] (wellKeyed_mapping.mp h.left).1 (wellKeyed_mapping.mp h.right).1).mp
    (h.canonicalBy_eq []) k

theorem isRequirement_eq (h : Agree (.mapping fs) (.mapping gs)) :
    isRequirement fs = isRequirement gs := by
  refine Value.isRequirement_eq fun k => ?_
  have hentry := congrArg Option.isSome (h.entry_eq k)
  rwa [Option.isSome_map, Option.isSome_map] at hentry

/-- A change at one key that makes the same of both mappings. -/
theorem change {f : Fields → Fields} (h : Agree (.mapping fs) (.mapping gs))
    (hf : ∀ fs, (Value.mapping fs).WellKeyed → (Value.mapping (f fs)).WellKeyed)
    (hk : k ∉ ["key", "operator"])
    (hother : ∀ fs j, k ≠ j → Ordered.find? j (f fs) = Ordered.find? j fs)
    (hself : (Ordered.find? k (f fs)).map (canonicalEntry (isRequirement fs) k) =
      (Ordered.find? k (f gs)).map (canonicalEntry (isRequirement fs) k)) :
    Agree (.mapping (f fs)) (.mapping (f gs)) := by
  have hreq (fs : Fields) : isRequirement (f fs) = isRequirement fs := by
    refine isRequirement_eq_of_find? fun j hj => hother fs j ?_
    rintro rfl
    exact hk hj
  refine mapping (hf fs h.left) (hf gs h.right) fun j => ?_
  rw [hreq, hreq, ← h.isRequirement_eq]
  by_cases hj : k = j
  · exact hj ▸ hself
  · rw [hother fs j hj, hother gs j hj, h.entry_eq, h.isRequirement_eq]

end Agree

end Rollout.Value
