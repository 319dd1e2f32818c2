import Mathlib.Data.List.Perm.Subperm
import Rollout.Proofs.Value.Canonical
/-!
What it takes for two trees to be the same in canonical form.
-/

namespace Rollout.Value

theorem length_eq_of_sameItems {vs ws : List Value} (h : sameItems vs ws) :
    vs.length = ws.length := by
  induction vs generalizing ws with
  | nil =>
      cases ws with
      | nil => rfl
      | cons w ws => cases h
  | cons v vs ih =>
      cases ws with
      | nil => cases h
      | cons w ws =>
          rw [sameItems, Bool.and_eq_true] at h
          exact congrArg (· + 1) (ih h.2)

theorem same_of_sameItems {vs ws : List Value} (h : sameItems vs ws) {i : Nat} {v w : Value}
    (hv : vs[i]? = some v) (hw : ws[i]? = some w) : v.same w := by
  induction vs generalizing ws i with
  | nil => cases hv
  | cons x vs ih =>
      cases ws with
      | nil => cases hw
      | cons y ws =>
          rw [sameItems, Bool.and_eq_true] at h
          cases i with
          | zero =>
              cases hv
              cases hw
              exact h.1
          | succ i => exact ih h.2 hv hw

theorem exists_same_of_sameFields {fs gs : Fields} (h : sameFields fs gs) {k : String} {v : Value}
    (hv : Ordered.find? k fs = some v) : ∃ w, Ordered.find? k gs = some w ∧ v.same w := by
  induction fs with
  | nil => cases hv
  | cons e fs ih =>
      obtain ⟨j, x⟩ := e
      rw [sameFields, Bool.and_eq_true] at h
      by_cases hj : j = k
      · subst hj
        obtain rfl : x = v := by simpa [Ordered.find?] using hv
        cases hg : Ordered.find? j gs with
        | none => simp [hg] at h
        | some w => exact ⟨w, rfl, by simpa [hg] using h.1⟩
      · exact ih h.2 (by simpa [Ordered.find?, hj] using hv)

/-- Same mappings with distinct keys have the same keys. -/
theorem has_eq_of_same {fs gs : Fields} (hf : (Ordered.keys fs).Nodup)
    (h : (Value.mapping fs).same (.mapping gs)) (k : String) :
    Ordered.has k fs = Ordered.has k gs := by
  rw [same, Bool.and_eq_true, beq_iff_eq] at h
  have hsub : Ordered.keys fs ⊆ Ordered.keys gs := by
    intro j hj
    rw [← Ordered.has_iff, Ordered.has, Option.isSome_iff_exists] at hj ⊢
    obtain ⟨v, hv⟩ := hj
    obtain ⟨w, hw, -⟩ := exists_same_of_sameFields h.2 hv
    exact ⟨w, hw⟩
  have hlen : (Ordered.keys gs).length ≤ (Ordered.keys fs).length := by
    simp [Ordered.keys, h.1]
  have hperm := (List.subperm_of_subset hf hsub).perm_of_length_le hlen
  rw [Bool.eq_iff_iff, Ordered.has_iff, Ordered.has_iff]
  exact hperm.mem_iff

theorem sameFields_of_forall {fs gs : Fields}
    (h : ∀ e ∈ fs, ∃ w, Ordered.find? e.1 gs = some w ∧ e.2.same w) : sameFields fs gs := by
  induction fs with
  | nil => rfl
  | cons e fs ih =>
      obtain ⟨⟨w, hw, hsame⟩, hfs⟩ := List.forall_mem_cons.mp h
      rw [sameFields, hw, Bool.and_eq_true]
      exact ⟨hsame, ih hfs⟩

/-- Mappings with distinct keys are the same if they have the same at the same keys. -/
theorem same_mapping_iff {fs gs : Fields} (hf : (Ordered.keys fs).Nodup)
    (hg : (Ordered.keys gs).Nodup) :
    (Value.mapping fs).same (.mapping gs) ↔ (∀ k, Ordered.has k fs = Ordered.has k gs) ∧
      ∀ k v w, Ordered.find? k fs = some v → Ordered.find? k gs = some w → v.same w := by
  constructor
  · intro h
    refine ⟨has_eq_of_same hf h, fun k v w hv hw => ?_⟩
    rw [same, Bool.and_eq_true] at h
    obtain ⟨x, hx, hsame⟩ := exists_same_of_sameFields h.2 hv
    obtain rfl := Option.some.inj (hw.symm.trans hx)
    exact hsame
  · rintro ⟨hhas, hsame⟩
    have hkeys (k : String) : k ∈ Ordered.keys fs ↔ k ∈ Ordered.keys gs := by
      rw [← Ordered.has_iff, ← Ordered.has_iff, hhas]
    have hlength : fs.length = gs.length := by
      simpa [Ordered.keys] using ((List.perm_ext_iff_of_nodup hf hg).mpr hkeys).length_eq
    rw [same, hlength, beq_self_eq_true, Bool.true_and]
    refine sameFields_of_forall fun e he => ?_
    have hv := Ordered.find?_eq_some_of_mem hf he
    have hw : Ordered.has e.1 gs := by rw [← hhas, Ordered.has, hv]; rfl
    obtain ⟨w, hw⟩ := Option.isSome_iff_exists.mp hw
    exact ⟨w, hw, hsame e.1 e.2 w hv hw⟩

variable {order order' : List String}

/-- Mappings are the same in canonical form if they have the same there at the same keys. -/
theorem same_canonicalBy_mapping_iff {fs gs : Fields} (hf : (Ordered.keys fs).Nodup)
    (hg : (Ordered.keys gs).Nodup) :
    (canonicalBy order (.mapping fs)).same (canonicalBy order' (.mapping gs)) ↔
      (∀ k, Ordered.has k fs = Ordered.has k gs) ∧
        ∀ k v w, Ordered.find? k fs = some v → Ordered.find? k gs = some w →
          (canonicalEntry (isRequirement gs) k v).same (canonicalEntry (isRequirement gs) k w) := by
  have hsorted (order : List String) {fs : Fields} (h : (Ordered.keys fs).Nodup) :
      (Ordered.keys ((canonicalFields (isRequirement fs) fs).mergeSort (fieldLe order))).Nodup := by
    refine ((List.mergeSort_perm ..).map Prod.fst).nodup_iff.mpr ?_
    exact (congrArg List.Nodup (keys_canonicalFields (isRequirement fs) fs)).mpr h
  rw [canonicalBy, canonicalBy, same_mapping_iff (hsorted order hf) (hsorted order' hg)]
  simp only [Ordered.has, find?_mergeSort_canonicalFields _ _ _ hf,
    find?_mergeSort_canonicalFields _ _ _ hg, Option.isSome_map]
  refine and_congr_right fun hhas => ?_
  rw [isRequirement_eq hhas]
  constructor
  · intro h k v w hv hw
    exact h k _ _ (hv ▸ rfl) (hw ▸ rfl)
  · intro h k x y hx hy
    obtain ⟨v, hv, rfl⟩ := Option.map_eq_some_iff.mp hx
    obtain ⟨w, hw, rfl⟩ := Option.map_eq_some_iff.mp hy
    exact h k v w hv hw

theorem sameItems_iff {vs ws : List Value} :
    sameItems vs ws ↔ vs.length = ws.length ∧
      ∀ (i : Nat) (v w : Value), vs[i]? = some v → ws[i]? = some w → v.same w := by
  constructor
  · intro h
    exact ⟨length_eq_of_sameItems h, fun i v w hv hw => same_of_sameItems h hv hw⟩
  · rintro ⟨hlength, h⟩
    induction vs generalizing ws with
    | nil =>
        rw [List.length_nil, eq_comm, List.length_eq_zero_iff] at hlength
        rw [hlength]
        rfl
    | cons v vs ih =>
        cases ws with
        | nil => cases hlength
        | cons w ws =>
            rw [sameItems, Bool.and_eq_true]
            exact ⟨h 0 v w rfl rfl, ih (Nat.succ.inj hlength) fun i => h (i + 1)⟩

/-- Sequences are the same in canonical form if they are so item by item. -/
theorem same_canonicalBy_sequence_iff {vs ws : List Value} :
    (canonicalBy order (.sequence vs)).same (canonicalBy order' (.sequence ws)) ↔
      vs.length = ws.length ∧ ∀ (i : Nat) (v w : Value), vs[i]? = some v → ws[i]? = some w →
        (canonicalBy itemOrder v).same (canonicalBy itemOrder w) := by
  rw [canonicalBy, canonicalBy, same, canonicalItems_eq_map, canonicalItems_eq_map, sameItems_iff,
    List.length_map, List.length_map]
  refine and_congr_right fun _ => ⟨fun h i v w hv hw => ?_, fun h i x y hx hy => ?_⟩
  · exact h i _ _ (by simp [hv]) (by simp [hw])
  · rw [List.getElem?_map] at hx hy
    obtain ⟨v, hv, rfl⟩ := Option.map_eq_some_iff.mp hx
    obtain ⟨w, hw, rfl⟩ := Option.map_eq_some_iff.mp hy
    exact h i v w hv hw

/-- Mappings that are the same in canonical form are so at each key. -/
theorem exists_same_of_same_mapping {fs gs : Fields} (hf : (Ordered.keys fs).Nodup)
    (hg : (Ordered.keys gs).Nodup)
    (h : (canonicalBy order (.mapping fs)).same (canonicalBy order' (.mapping gs)))
    {k : String} {v : Value} (hv : Ordered.find? k fs = some v) :
    ∃ w, Ordered.find? k gs = some w ∧
      (canonicalEntry (isRequirement gs) k v).same (canonicalEntry (isRequirement gs) k w) := by
  obtain ⟨hhas, hsame⟩ := (same_canonicalBy_mapping_iff hf hg).mp h
  have hw : Ordered.has k gs := by rw [← hhas, Ordered.has, hv]; rfl
  obtain ⟨w, hw⟩ := Option.isSome_iff_exists.mp hw
  exact ⟨w, hw, hsame k v w hv hw⟩

/-- Sequences that are the same in canonical form are so item by item. -/
theorem same_of_same_sequence {vs ws : List Value}
    (h : (canonicalBy order (.sequence vs)).same (canonicalBy order' (.sequence ws)))
    {i : Nat} {v w : Value} (hv : vs[i]? = some v) (hw : ws[i]? = some w) :
    (canonicalBy itemOrder v).same (canonicalBy itemOrder w) :=
  (same_canonicalBy_sequence_iff.mp h).2 i v w hv hw

/-- Sorting items makes no trees the same except two sequences of one length. -/
theorem same_of_same_sortItems {v w : Value} (h : (sortItems v).same (sortItems w)) :
    v.same w ∨ ∃ vs ws, v = .sequence vs ∧ w = .sequence ws ∧ vs.length = ws.length := by
  cases v with
  | sequence vs =>
      cases w with
      | sequence ws =>
          rw [sortItems, sortItems, same] at h
          exact .inr ⟨vs, ws, rfl, rfl, by simpa using length_eq_of_sameItems h⟩
      | _ => cases h
  | _ =>
      cases w with
      | sequence ws => cases h
      | _ => exact .inl h

theorem isMapping_canonicalBy (order : List String) (v : Value) :
    (canonicalBy order v).isMapping = v.isMapping := by
  cases v <;> simp [canonicalBy, isMapping, fields?]

theorem isMapping_eq_of_same {v w : Value} (h : v.same w) : v.isMapping = w.isMapping := by
  cases v <;> cases w <;> first | rfl | cases h

theorem isMapping_eq_of_same_canonicalBy {v w : Value}
    (h : (canonicalBy order v).same (canonicalBy order' w)) : v.isMapping = w.isMapping := by
  have hm := isMapping_eq_of_same h
  rwa [isMapping_canonicalBy, isMapping_canonicalBy] at hm

theorem number_same_self (n : Number) : n.same n := by
  cases n with
  | whole n => exact beq_self_eq_true n
  | float x => simp [Number.same, Binary64.equal]

mutual

theorem same_self : (v : Value) → v.WellKeyed → v.same v
  | .mapping fs, h => by
      obtain ⟨hkeys, hfields⟩ := wellKeyed_mapping.mp h
      rw [same, beq_self_eq_true, Bool.true_and]
      exact sameFields_self fs fs hfields fun e he => Ordered.find?_eq_some_of_mem hkeys he
  | .sequence vs, h => by
      rw [same]
      exact sameItems_self vs (wellKeyed_sequence.mp h)
  | .null, _ => rfl
  | .bool b, _ => beq_self_eq_true b
  | .number n, _ => number_same_self n
  | .string s, _ => beq_self_eq_true s

theorem sameItems_self : (vs : List Value) → (∀ v ∈ vs, v.WellKeyed) → sameItems vs vs
  | [], _ => rfl
  | v :: vs, h => by
      rw [List.forall_mem_cons] at h
      rw [sameItems, same_self v h.1, sameItems_self vs h.2]
      rfl

theorem sameFields_self (gs : Fields) : (fs : Fields) → (∀ e ∈ fs, e.2.WellKeyed) →
    (∀ e ∈ fs, Ordered.find? e.1 gs = some e.2) → sameFields fs gs
  | [], _, _ => rfl
  | (k, v) :: fs, h, hfind => by
      rw [List.forall_mem_cons] at h hfind
      rw [sameFields, hfind.1]
      dsimp only
      rw [same_self v h.1, sameFields_self gs fs h.2 hfind.2]
      rfl

end

end Rollout.Value
