import Mathlib.Data.String.Basic
import Rollout.Value.Canonical
/-!
The canonical form depends on what a tree holds and not on the order of its keys.
-/

namespace Rollout

theorem Text.le_iff {a b : String} : Text.le a b = true ↔ a ≤ b := by
  rw [Text.le, Bool.not_eq_true', decide_eq_false_iff_not, not_lt]

theorem Text.pairwise_mergeSort {α : Type} (text : α → String) (l : List α) :
    (l.mergeSort fun a b => Text.le (text a) (text b)).Pairwise fun a b => text a ≤ text b := by
  refine (List.pairwise_mergeSort ?_ ?_ l).imp Text.le_iff.mp
  · intro a b c hab hbc
    exact Text.le_iff.mpr ((Text.le_iff.mp hab).trans (Text.le_iff.mp hbc))
  · intro a b
    rw [Bool.or_eq_true, Text.le_iff, Text.le_iff]
    exact le_total (text a) (text b)

/-- Items that are told by their texts are sorted by these in one way. -/
theorem Text.mergeSort_eq_of_perm {α : Type} (text : α → String) {l l' : List α} (h : l.Perm l')
    (htext : ∀ a ∈ l, ∀ b ∈ l, text a = text b → a = b) :
    l.mergeSort (fun a b => Text.le (text a) (text b)) =
      l'.mergeSort fun a b => Text.le (text a) (text b) := by
  refine List.Perm.eq_of_pairwise (fun a b ha hb hab hba => ?_) (Text.pairwise_mergeSort text l)
    (Text.pairwise_mergeSort text l')
    (((List.mergeSort_perm ..).trans h).trans (List.mergeSort_perm ..).symm)
  exact htext a ((List.mergeSort_perm ..).mem_iff.mp ha) b
    (h.mem_iff.mpr ((List.mergeSort_perm ..).mem_iff.mp hb)) (le_antisymm hab hba)

namespace Value

theorem fieldLe_iff {order : List String} {a b : String × Value} :
    fieldLe order a b = true ↔
      rank order a.1 < rank order b.1 ∨ rank order a.1 = rank order b.1 ∧ a.1 ≤ b.1 := by
  simp [fieldLe, Text.le_iff]

theorem fieldLe_trans {order : List String} {a b c : String × Value}
    (hab : fieldLe order a b) (hbc : fieldLe order b c) : fieldLe order a c := by
  rw [fieldLe_iff] at *
  rcases hab with hab | ⟨hab, hle⟩ <;> rcases hbc with hbc | ⟨hbc, hle'⟩
  · exact .inl (hab.trans hbc)
  · exact .inl (hbc ▸ hab)
  · exact .inl (hab ▸ hbc)
  · exact .inr ⟨hab.trans hbc, hle.trans hle'⟩

theorem fieldLe_total (order : List String) (a b : String × Value) :
    (fieldLe order a b || fieldLe order b a) = true := by
  rw [Bool.or_eq_true, fieldLe_iff, fieldLe_iff]
  rcases lt_trichotomy (rank order a.1) (rank order b.1) with h | h | h
  · exact .inl (.inl h)
  · rcases le_total a.1 b.1 with hle | hle
    · exact .inl (.inr ⟨h, hle⟩)
    · exact .inr (.inr ⟨h.symm, hle⟩)
  · exact .inr (.inl h)

theorem key_eq_of_fieldLe {order : List String} {a b : String × Value}
    (hab : fieldLe order a b) (hba : fieldLe order b a) : a.1 = b.1 := by
  rw [fieldLe_iff] at *
  rcases hab with hab | ⟨hab, hle⟩
  · omega
  · rcases hba with hba | ⟨-, hle'⟩
    · omega
    · exact le_antisymm hle hle'

theorem pairwise_mergeSort_fieldLe (order : List String) (fs : Fields) :
    (fs.mergeSort (fieldLe order)).Pairwise (fieldLe order · ·) := by
  refine List.pairwise_mergeSort ?_ (fieldLe_total order) fs
  intro a b c
  exact fieldLe_trans

/-- Fields with distinct keys have one sorted order. -/
theorem mergeSort_fieldLe_eq (order : List String) {fs gs : Fields} (h : fs.Perm gs)
    (hk : (Ordered.keys fs).Nodup) :
    fs.mergeSort (fieldLe order) = gs.mergeSort (fieldLe order) := by
  have hperm : (fs.mergeSort (fieldLe order)).Perm (gs.mergeSort (fieldLe order)) :=
    ((List.mergeSort_perm ..).trans h).trans (List.mergeSort_perm ..).symm
  refine hperm.eq_of_pairwise ?_ (pairwise_mergeSort_fieldLe order fs)
    (pairwise_mergeSort_fieldLe order gs)
  rintro ⟨k, v⟩ ⟨j, w⟩ hv hw hle hle'
  obtain rfl : k = j := key_eq_of_fieldLe hle hle'
  have hv' := Ordered.find?_eq_some_of_mem hk ((List.mergeSort_perm ..).mem_iff.mp hv)
  have hw' := Ordered.find?_eq_some_of_mem hk
    (h.mem_iff.mpr ((List.mergeSort_perm ..).mem_iff.mp hw))
  rw [Option.some.inj (hv'.symm.trans hw')]

/-- What the canonical form of a mapping has for a key. -/
def canonicalEntry (requirement : Bool) (k : String) (v : Value) : Value :=
  if isSetField requirement k then sortItems (canonicalBy (orderBelow k) v)
  else canonicalBy (orderBelow k) v

theorem canonicalItems_eq_map (vs : List Value) :
    canonicalItems vs = vs.map (canonicalBy itemOrder) := by
  induction vs with
  | nil => rfl
  | cons v vs ih => rw [canonicalItems, ih, List.map_cons]

theorem canonicalFields_eq_map (requirement : Bool) (fs : Fields) :
    canonicalFields requirement fs = fs.map fun e => (e.1, canonicalEntry requirement e.1 e.2) := by
  induction fs with
  | nil => rfl
  | cons e fs ih => rw [canonicalFields, ih, List.map_cons, canonicalEntry]

theorem find?_canonicalFields (requirement : Bool) (k : String) (fs : Fields) :
    Ordered.find? k (canonicalFields requirement fs) =
      (Ordered.find? k fs).map (canonicalEntry requirement k) := by
  induction fs with
  | nil => rfl
  | cons e fs ih =>
      obtain ⟨j, v⟩ := e
      by_cases hj : j = k
      · subst hj
        simp [canonicalFields, Ordered.find?, canonicalEntry]
      · simpa [canonicalFields, Ordered.find?, hj] using ih

theorem find?_mergeSort_canonicalFields (order : List String) (requirement : Bool) (k : String)
    {fs : Fields} (hk : (Ordered.keys fs).Nodup) :
    Ordered.find? k ((canonicalFields requirement fs).mergeSort (fieldLe order)) =
      (Ordered.find? k fs).map (canonicalEntry requirement k) := by
  have hkeys : (Ordered.keys (canonicalFields requirement fs)).Nodup := by
    rwa [keys_canonicalFields]
  rw [← find?_canonicalFields]
  exact (Ordered.find?_eq_of_perm hkeys (List.mergeSort_perm ..).symm k).symm

theorem isRequirement_eq {fs gs : Fields} (h : ∀ k, Ordered.has k fs = Ordered.has k gs) :
    isRequirement fs = isRequirement gs := by
  rw [isRequirement, isRequirement, h "key", h "operator"]

/-- Mappings whose values agree in canonical form have the same canonical form. -/
theorem canonicalBy_mapping_eq (order : List String) {fs gs : Fields}
    (hfs : (Ordered.keys fs).Nodup) (hgs : (Ordered.keys gs).Nodup)
    (h : ∀ k, (Ordered.find? k fs).map (canonicalBy (orderBelow k)) =
      (Ordered.find? k gs).map (canonicalBy (orderBelow k))) :
    canonicalBy order (.mapping fs) = canonicalBy order (.mapping gs) := by
  have hreq : isRequirement fs = isRequirement gs := isRequirement_eq fun k => by
    simpa [Ordered.has] using congrArg Option.isSome (h k)
  have hperm : (canonicalFields (isRequirement fs) fs).Perm
      (canonicalFields (isRequirement gs) gs) := by
    refine Ordered.perm_of_find?_eq (by rwa [keys_canonicalFields])
      (by rwa [keys_canonicalFields]) fun k => ?_
    rw [find?_canonicalFields, find?_canonicalFields, hreq]
    specialize h k
    cases hf : Ordered.find? k fs <;> cases hg : Ordered.find? k gs <;>
      simp_all [canonicalEntry]
  rw [canonicalBy, canonicalBy, mergeSort_fieldLe_eq order hperm (by rwa [keys_canonicalFields])]

def inTextOrder : Value → Bool
  | .sequence vs => decide (vs.Pairwise fun v w => Text.le v.toJson w.toJson)
  | _ => true

mutual

/-- Whether a tree is in canonical form, with the outermost keys in the given order. -/
def isCanonicalBy (order : List String) : Value → Bool
  | .mapping fs =>
    decide (fs.Pairwise (fieldLe order · ·)) && areCanonicalFields (isRequirement fs) fs
  | .sequence vs => areCanonicalItems vs
  | _ => true

def areCanonicalItems : List Value → Bool
  | [] => true
  | v :: vs => isCanonicalBy itemOrder v && areCanonicalItems vs

def areCanonicalFields (requirement : Bool) : List (String × Value) → Bool
  | [] => true
  | (k, v) :: fs =>
    isCanonicalBy (orderBelow k) v && (!isSetField requirement k || inTextOrder v) &&
      areCanonicalFields requirement fs

end

theorem sortItems_eq_self {v : Value} (h : inTextOrder v) : sortItems v = v := by
  cases v with
  | sequence vs =>
      rw [inTextOrder, decide_eq_true_iff] at h
      have hp : (vs.map fun v => (v.toJson, v)).Pairwise fun a b => Text.le a.1 b.1 :=
        List.pairwise_map.mpr h
      rw [sortItems, List.mergeSort_of_pairwise hp, List.map_map]
      exact congrArg Value.sequence (List.map_id vs)
  | _ => rfl

mutual

theorem canonicalBy_eq_self : (order : List String) → (v : Value) → isCanonicalBy order v →
    canonicalBy order v = v
  | order, .mapping fs, h => by
      rw [isCanonicalBy, Bool.and_eq_true, decide_eq_true_iff] at h
      rw [canonicalBy, canonicalFields_eq_self _ fs h.2, List.mergeSort_of_pairwise h.1]
  | _, .sequence vs, h => by rw [canonicalBy, canonicalItems_eq_self vs h]
  | _, .null, _ | _, .bool _, _ | _, .number _, _ | _, .string _, _ => by rw [canonicalBy] <;> nofun

theorem canonicalItems_eq_self : (vs : List Value) → areCanonicalItems vs → canonicalItems vs = vs
  | [], _ => rfl
  | v :: vs, h => by
      rw [areCanonicalItems, Bool.and_eq_true] at h
      rw [canonicalItems, canonicalBy_eq_self itemOrder v h.1, canonicalItems_eq_self vs h.2]

theorem canonicalFields_eq_self (requirement : Bool) : (fs : List (String × Value)) →
    areCanonicalFields requirement fs → canonicalFields requirement fs = fs
  | [], _ => rfl
  | (k, v) :: fs, h => by
      rw [areCanonicalFields, Bool.and_eq_true, Bool.and_eq_true] at h
      obtain ⟨⟨hv, hset⟩, hfs⟩ := h
      rw [canonicalFields, canonicalBy_eq_self (orderBelow k) v hv,
        canonicalFields_eq_self requirement fs hfs]
      cases hk : isSetField requirement k with
      | false => rfl
      | true =>
          rw [hk] at hset
          rw [if_pos rfl, sortItems_eq_self hset]

end

end Value

end Rollout
