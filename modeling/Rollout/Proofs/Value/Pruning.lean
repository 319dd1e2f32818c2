import Rollout.Proofs.Value.Canonical
import Rollout.Proofs.Value.Projection
/-!
Trees with entries of their mappings left out. What a projection keeps of a tree is, up to
the order of keys, the tree with entries left out.
-/

namespace Rollout.Value

mutual

/-- The first tree is the second without some entries of its mappings. -/
inductive Pruned : Value → Value → Prop where
  | same (v : Value) : Pruned v v
  | sequence {vs ws : List Value} : PrunedItems vs ws → Pruned (.sequence vs) (.sequence ws)
  | mapping {fs gs : List (String × Value)} : PrunedFields fs gs →
      Pruned (.mapping fs) (.mapping gs)

/-- Item by item; no item is left out. -/
inductive PrunedItems : List Value → List Value → Prop where
  | nil : PrunedItems [] []
  | cons {v w : Value} {vs ws : List Value} : Pruned v w → PrunedItems vs ws →
      PrunedItems (v :: vs) (w :: ws)

inductive PrunedFields : List (String × Value) → List (String × Value) → Prop where
  | nil : PrunedFields [] []
  | keep {k : String} {v w : Value} {fs gs : List (String × Value)} : Pruned v w →
      PrunedFields fs gs → PrunedFields ((k, v) :: fs) ((k, w) :: gs)
  | drop {e : String × Value} {fs gs : List (String × Value)} : PrunedFields fs gs →
      PrunedFields fs (e :: gs)

end

theorem PrunedFields.keys_sublist : {fs gs : Fields} → PrunedFields fs gs →
    (Ordered.keys fs).Sublist (Ordered.keys gs)
  | _, _, .nil => .slnil
  | _, _, .keep _ hs => hs.keys_sublist.cons_cons _
  | _, _, .drop hs => hs.keys_sublist.cons _

mutual

theorem Pruned.wellKeyed : {v w : Value} → Pruned v w → w.WellKeyed → v.WellKeyed
  | _, _, .same _, hw => hw
  | _, _, .sequence h, hw => wellKeyed_sequence.mpr (h.wellKeyed (wellKeyed_sequence.mp hw))
  | _, _, .mapping h, hw => by
      rw [wellKeyed_mapping] at hw ⊢
      exact ⟨hw.1.sublist h.keys_sublist, h.wellKeyed hw.2⟩

theorem PrunedItems.wellKeyed : {vs ws : List Value} → PrunedItems vs ws →
    (∀ w ∈ ws, w.WellKeyed) → ∀ v ∈ vs, v.WellKeyed
  | _, _, .nil, _ => by simp
  | _, _, .cons h hs, hw => by
      rw [List.forall_mem_cons] at hw ⊢
      exact ⟨h.wellKeyed hw.1, hs.wellKeyed hw.2⟩

theorem PrunedFields.wellKeyed : {fs gs : Fields} → PrunedFields fs gs →
    (∀ e ∈ gs, e.2.WellKeyed) → ∀ e ∈ fs, e.2.WellKeyed
  | _, _, .nil, _ => by simp
  | _, _, .keep h hs, hw => by
      rw [List.forall_mem_cons] at hw ⊢
      exact ⟨h.wellKeyed hw.1, hs.wellKeyed hw.2⟩
  | _, _, .drop hs, hw => hs.wellKeyed (List.forall_mem_cons.mp hw).2

end

mutual

/-- The projection with the fields in their own order. -/
def restrict : Value → Value → Value
  | .mapping fs, wanted => match wanted with
    | .mapping ws => .mapping (restrictFields ws fs)
    | _ => .mapping fs
  | .sequence vs, wanted => match wanted with
    | .sequence ws =>
      if vs.length = ws.length then .sequence (restrictItems vs ws) else .sequence vs
    | _ => .sequence vs
  | v, _ => v

def restrictItems : List Value → List Value → List Value
  | v :: vs, w :: ws => restrict v w :: restrictItems vs ws
  | _, _ => []

def restrictFields (wanted : Fields) : List (String × Value) → List (String × Value)
  | [] => []
  | (k, v) :: fs => match Ordered.find? k wanted with
    | some w => (k, restrict v w) :: restrictFields wanted fs
    | none => restrictFields wanted fs

end

mutual

theorem pruned_restrict : (v wanted : Value) → Pruned (restrict v wanted) v
  | .mapping fs, wanted => by
      cases wanted with
      | mapping ws => exact .mapping (prunedFields_restrictFields ws fs)
      | _ => exact .same _
  | .sequence vs, wanted => by
      cases wanted with
      | sequence ws =>
          rw [restrict]
          split
          · next h => exact .sequence (prunedItems_restrictItems vs ws h)
          · exact .same _
      | _ => exact .same _
  | .null, _ | .bool _, _ | .number _, _ | .string _, _ => by
      rw [restrict]
      all_goals first | exact .same _ | nofun

theorem prunedItems_restrictItems : (vs ws : List Value) → vs.length = ws.length →
    PrunedItems (restrictItems vs ws) vs
  | [], _, _ => .nil
  | v :: vs, w :: ws, h =>
      .cons (pruned_restrict v w) (prunedItems_restrictItems vs ws (Nat.succ.inj h))

theorem prunedFields_restrictFields (wanted : Fields) : (fs : List (String × Value)) →
    PrunedFields (restrictFields wanted fs) fs
  | [] => .nil
  | (k, v) :: fs => by
      rw [restrictFields]
      split
      · exact .keep (pruned_restrict v _) (prunedFields_restrictFields wanted fs)
      · exact .drop (prunedFields_restrictFields wanted fs)

end

theorem find?_restrictFields (k : String) (wanted fs : Fields) :
    Ordered.find? k (restrictFields wanted fs) =
      (Ordered.find? k wanted).bind fun w => (Ordered.find? k fs).map (restrict · w) := by
  induction fs with
  | nil => cases Ordered.find? k wanted <;> rfl
  | cons e fs ih =>
      obtain ⟨j, v⟩ := e
      rw [restrictFields]
      by_cases hj : j = k
      · subst hj
        cases hw : Ordered.find? j wanted with
        | some w => simp [Ordered.find?]
        | none => simp [ih, hw]
      · cases Ordered.find? j wanted with
        | some w => simpa [Ordered.find?, hj] using ih
        | none => simpa [Ordered.find?, hj] using ih

theorem keys_restrictFields_sublist (wanted fs : Fields) :
    (Ordered.keys (restrictFields wanted fs)).Sublist (Ordered.keys fs) :=
  (prunedFields_restrictFields wanted fs).keys_sublist

mutual

/-- A projection and the restriction differ in the order of keys alone. -/
theorem canonicalBy_restrict (order : List String) : (v wanted : Value) → v.WellKeyed →
    wanted.WellKeyed → canonicalBy order (restrict v wanted) = canonicalBy order (project v wanted)
  | .mapping fs, wanted, hv, hw => by
      cases wanted with
      | mapping ws =>
          rw [wellKeyed_mapping] at hv hw
          rw [restrict, project]
          refine canonicalBy_mapping_eq order (hv.1.sublist (keys_restrictFields_sublist ws fs))
            (hw.1.sublist (keys_projectFields_sublist fs ws)) fun k => ?_
          rw [find?_restrictFields, find?_projectFields]
          cases hk : Ordered.find? k ws with
          | none => rfl
          | some w =>
              cases hf : Ordered.find? k fs with
              | none => rfl
              | some v =>
                  -- A field that is found is no part of the term; the recursion goes to it.
                  have hkw := hw.2 _ (Ordered.mem_of_find?_eq_some hk)
                  have hkv := Ordered.mem_of_find?_eq_some hf
                  exact congrArg some (canonicalBy_restrict_field k v w fs hkv hv.2 hkw)
      | _ => rfl
  | .sequence vs, wanted, hv, hw => by
      cases wanted with
      | sequence ws =>
          rw [wellKeyed_sequence] at hv hw
          rw [restrict, project]
          split
          · rw [canonicalBy, canonicalBy, canonicalItems_restrictItems vs ws hv hw]
          · rfl
      | _ => rfl
  | .null, wanted, _, _ | .bool _, wanted, _, _ | .number _, wanted, _, _
  | .string _, wanted, _, _ => by cases wanted <;> rfl

theorem canonicalItems_restrictItems : (vs ws : List Value) → (∀ v ∈ vs, v.WellKeyed) →
    (∀ w ∈ ws, w.WellKeyed) → canonicalItems (restrictItems vs ws) =
      canonicalItems (projectItems vs ws)
  | [], ws, _, _ => by cases ws <;> rfl
  | v :: vs, [], _, _ => rfl
  | v :: vs, w :: ws, hv, hw => by
      rw [List.forall_mem_cons] at hv hw
      rw [restrictItems, projectItems, canonicalItems, canonicalItems,
        canonicalBy_restrict itemOrder v w hv.1 hw.1, canonicalItems_restrictItems vs ws hv.2 hw.2]

theorem canonicalBy_restrict_field (k : String) (v w : Value) : (fs : List (String × Value)) →
    (k, v) ∈ fs → (∀ e ∈ fs, e.2.WellKeyed) → w.WellKeyed →
      canonicalBy (orderBelow k) (restrict v w) = canonicalBy (orderBelow k) (project v w)
  | (j, x) :: fs, hm, hfs, hw => by
      rw [List.forall_mem_cons] at hfs
      rcases List.mem_cons.mp hm with he | hm
      · cases he
        exact canonicalBy_restrict (orderBelow k) v w hfs.1 hw
      · exact canonicalBy_restrict_field k v w fs hm hfs.2 hw

end

end Rollout.Value
