import Mathlib.Algebra.BigOperators.Group.List.Basic
import Rollout.Proofs.Value.Equivalence
import Rollout.Proofs.Value.Pruning
import Rollout.Proofs.Value.Sameness
/-!
The number of entries in all mappings of a tree. It depends on no order, and becomes less where an
entry is left out.
-/

namespace Rollout.Value

mutual

/-- The number of entries in the mappings of a tree. -/
def entries : Value → Nat
  | .mapping fs => entriesFields fs
  | .sequence vs => entriesItems vs
  | _ => 0

def entriesItems : List Value → Nat
  | [] => 0
  | v :: vs => entries v + entriesItems vs

def entriesFields : List (String × Value) → Nat
  | [] => 0
  | (_, v) :: fs => entries v + 1 + entriesFields fs

end

variable {v w : Value}

theorem entriesItems_eq_sum (vs : List Value) : entriesItems vs = (vs.map entries).sum := by
  induction vs with
  | nil => rfl
  | cons v vs ih => rw [entriesItems, ih, List.map_cons, List.sum_cons]

theorem entriesFields_eq_sum (fs : Fields) :
    entriesFields fs = (fs.map fun e => entries e.2 + 1).sum := by
  induction fs with
  | nil => rfl
  | cons e fs ih => rw [entriesFields, ih, List.map_cons, List.sum_cons]

theorem entriesItems_eq_of_perm {vs ws : List Value} (h : vs.Perm ws) :
    entriesItems vs = entriesItems ws := by
  rw [entriesItems_eq_sum, entriesItems_eq_sum]
  exact (h.map entries).sum_eq

theorem entriesFields_eq_of_perm {fs gs : Fields} (h : fs.Perm gs) :
    entriesFields fs = entriesFields gs := by
  rw [entriesFields_eq_sum, entriesFields_eq_sum]
  exact (h.map _).sum_eq

/-- Another value with as many entries in the place of a field. -/
theorem entries_field_congr (h : entries v = entries w) (fs gs : Fields) (k : String) :
    entries (.mapping (fs ++ (k, v) :: gs)) = entries (.mapping (fs ++ (k, w) :: gs)) := by
  rw [entries, entries, entriesFields_eq_sum, entriesFields_eq_sum]
  simp [h]

theorem entries_eq_of_equivalent (h : v.Equivalent w) : entries v = entries w := by
  induction h with
  | refl => rfl
  | symm _ ih => exact ih.symm
  | trans _ _ ih ih' => exact ih.trans ih'
  | keys h =>
      rw [entries, entries]
      exact entriesFields_eq_of_perm h
  | elements _ h =>
      refine entries_field_congr ?_ ..
      rw [entries, entries]
      exact entriesItems_eq_of_perm h
  | field _ ih => exact entries_field_congr ih ..
  | item _ ih =>
      rw [entries, entries, entriesItems_eq_sum, entriesItems_eq_sum]
      simp [ih]

@[simp] theorem entries_canonicalBy (order : List String) (v : Value) :
    entries (canonicalBy order v) = entries v :=
  entries_eq_of_equivalent (equivalent_canonicalBy order v)

/-- A field that the first mapping does not have makes no difference. -/
theorem sameFields_remove {fs gs : Fields} {k : String} (hk : k ∉ Ordered.keys fs)
    (h : sameFields fs gs) : sameFields fs (Ordered.remove k gs) := by
  induction fs with
  | nil => rfl
  | cons e fs ih =>
      obtain ⟨j, v⟩ := e
      rw [Ordered.keys_cons, List.mem_cons, not_or] at hk
      rw [sameFields, Bool.and_eq_true] at h ⊢
      rw [Ordered.find?_remove_of_ne hk.1]
      exact ⟨h.1, ih hk.2 h.2⟩

mutual

/-- The same data have the same number of entries. -/
theorem entries_eq_of_same : (v : Value) → {w : Value} → v.WellKeyed → v.same w →
    entries v = entries w
  | .mapping fs, w, hv, h => by
      cases w with
      | mapping gs =>
          rw [same, Bool.and_eq_true, beq_iff_eq] at h
          rw [wellKeyed_mapping] at hv
          rw [entries, entries]
          exact entriesFields_eq_of_same fs hv.1 hv.2 h.1 h.2
      | _ => cases h
  | .sequence vs, w, hv, h => by
      cases w with
      | sequence ws =>
          rw [entries, entries]
          exact entriesItems_eq_of_same vs (wellKeyed_sequence.mp hv) h
      | _ => cases h
  | .null, w, _, h | .bool _, w, _, h | .number _, w, _, h | .string _, w, _, h => by
      cases w <;> first | rfl | cases h

theorem entriesItems_eq_of_same : (vs : List Value) → {ws : List Value} →
    (∀ v ∈ vs, v.WellKeyed) → sameItems vs ws → entriesItems vs = entriesItems ws
  | [], ws, _, h => by
      cases ws with
      | nil => rfl
      | cons w ws => cases h
  | v :: vs, ws, hv, h => by
      cases ws with
      | nil => cases h
      | cons w ws =>
          rw [List.forall_mem_cons] at hv
          rw [sameItems, Bool.and_eq_true] at h
          rw [entriesItems, entriesItems, entries_eq_of_same v hv.1 h.1,
            entriesItems_eq_of_same vs hv.2 h.2]

theorem entriesFields_eq_of_same : (fs : Fields) → {gs : Fields} → (Ordered.keys fs).Nodup →
    (∀ e ∈ fs, e.2.WellKeyed) → fs.length = gs.length → sameFields fs gs →
    entriesFields fs = entriesFields gs
  | [], gs, _, _, hlength, _ => by rw [List.length_eq_zero_iff.mp hlength.symm]
  | (k, v) :: fs, gs, hkeys, hv, hlength, h => by
      rw [Ordered.keys_cons, List.nodup_cons] at hkeys
      rw [List.forall_mem_cons] at hv
      rw [sameFields, Bool.and_eq_true] at h
      obtain ⟨hsame, hrest⟩ := h
      cases hk : Ordered.find? k gs with
      | none =>
          rw [hk] at hsame
          cases hsame
      | some w =>
          rw [hk] at hsame
          -- The other fields are the same as those that are left without this one.
          have hperm := Ordered.perm_cons_remove hk
          have hlength' : fs.length = (Ordered.remove k gs).length :=
            Nat.succ.inj (hlength.trans hperm.length_eq)
          have hfields := entriesFields_eq_of_same fs hkeys.2 hv.2 hlength'
            (sameFields_remove hkeys.1 hrest)
          rw [entriesFields_eq_of_perm hperm, entriesFields, entriesFields, hfields,
            entries_eq_of_same v hv.1 hsame]

end

mutual

/-- Leaving out entries leaves a tree as it is, or with fewer of them. -/
theorem Pruned.eq_or_entries_lt : {v w : Value} → Pruned v w → v = w ∨ entries v < entries w
  | _, _, .same _ => .inl rfl
  | _, _, .sequence h => by
      rw [entries, entries]
      exact h.eq_or_entries_lt.imp_left (congrArg _)
  | _, _, .mapping h => by
      rw [entries, entries]
      exact h.eq_or_entries_lt.imp_left (congrArg _)

theorem PrunedItems.eq_or_entries_lt : {vs ws : List Value} → PrunedItems vs ws →
    vs = ws ∨ entriesItems vs < entriesItems ws
  | _, _, .nil => .inl rfl
  | _, _, .cons h hs => by
      rw [entriesItems, entriesItems]
      rcases h.eq_or_entries_lt with rfl | hlt <;> rcases hs.eq_or_entries_lt with rfl | hlts
      · exact .inl rfl
      all_goals exact .inr (by omega)

theorem PrunedFields.eq_or_entries_lt : {fs gs : Fields} → PrunedFields fs gs →
    fs = gs ∨ entriesFields fs < entriesFields gs
  | _, _, .nil => .inl rfl
  | _, _, .keep h hs => by
      rw [entriesFields, entriesFields]
      rcases h.eq_or_entries_lt with rfl | hlt <;> rcases hs.eq_or_entries_lt with rfl | hlts
      · exact .inl rfl
      all_goals exact .inr (by omega)
  | _, (_, _) :: _, .drop hs => by
      rw [entriesFields]
      rcases hs.eq_or_entries_lt with rfl | hlts
      all_goals exact .inr (by omega)

end

end Rollout.Value
