import Rollout.Builder
import Rollout.Plan.Change
import Rollout.Proofs.Except
import Rollout.Proofs.Graph.Sorting
/-!
Documents in the order of application, and deletes in the opposite one. Dependencies point to
earlier places.
-/

namespace Rollout

theorem lt_length_of_lastIndex? {keys : List Key} {k : Key} {i : Nat}
    (h : lastIndex? keys k = some i) : i < keys.length := by
  obtain ⟨⟨j, l⟩, hlast, rfl⟩ := Option.map_eq_some_iff.mp h
  have hmem := (List.mem_filter.mp (List.mem_of_getLast? hlast)).1
  exact (List.getElem?_eq_some_iff.mp (List.mem_zipIdx_iff_getElem?.mp hmem)).1

theorem Document.lt_length_of_mem_dependencies {keys : List Key} {d : Document} {i : Nat}
    (h : i ∈ d.dependencies keys) : i < keys.length := by
  rcases List.mem_append.mp h with h | h
  · obtain ⟨k, -, hk⟩ := List.mem_filterMap.mp h
    exact lt_length_of_lastIndex? hk
  · obtain ⟨candidates, -, hk⟩ := List.mem_filterMap.mp h
    obtain ⟨k, -, hk⟩ := List.exists_of_findSome?_eq_some hk
    exact lt_length_of_lastIndex? hk

theorem size_documentGraph (docs : List Document) : (documentGraph docs).size = docs.length :=
  List.length_map _

theorem wellFormed_documentGraph (docs : List Document) : (documentGraph docs).WellFormed := by
  refine Graph.wellFormed_ofEdges _ fun e he => ?_
  obtain ⟨⟨d, i⟩, -, he⟩ := List.mem_flatMap.mp he
  obtain ⟨j, hj, rfl⟩ := List.mem_map.mp he
  have hlt := Document.lt_length_of_mem_dependencies hj
  rw [List.length_map] at hlt ⊢
  exact hlt

theorem sorts_of_applyOrder {docs : List Document} {order : List Nat}
    (h : applyOrder docs = .ok order) : (documentGraph docs).Sorts order := by
  rw [applyOrder, mapError_eq_ok] at h
  exact Graph.sorts_of_sort (wellFormed_documentGraph docs) h

/-- The items of a list, each at its place. -/
theorem filterMap_range_getElem? {α : Type} (l : List α) :
    (List.range l.length).filterMap (l[·]?) = l := by
  induction l with
  | nil => rfl
  | cons a l ih =>
      rw [List.length_cons, List.range_succ_eq_map, List.filterMap_cons, List.filterMap_map]
      exact congrArg (a :: ·) ih

theorem perm_filterMap_getElem? {α : Type} {l : List α} {order : List Nat}
    (h : order.Perm (List.range l.length)) : (order.filterMap (l[·]?)).Perm l :=
  (h.filterMap _).trans (.of_eq (filterMap_range_getElem? l))

theorem getElem?_filterMap_of_isSome {α β : Type} {f : α → Option β} {l : List α}
    (h : ∀ a ∈ l, (f a).isSome) (i : Nat) : (l.filterMap f)[i]? = l[i]?.bind f := by
  induction l generalizing i with
  | nil => rfl
  | cons a l ih =>
      rw [List.forall_mem_cons] at h
      obtain ⟨b, hb⟩ := Option.isSome_iff_exists.mp h.1
      rw [List.filterMap_cons_some hb]
      cases i with
      | zero => exact hb.symm
      | succ i => exact ih h.2 i

/-- The item at a place of an order of all items. -/
theorem getElem?_placed {α : Type} {l : List α} {order : List Nat}
    (h : order.Perm (List.range l.length)) {i : Nat} {a : α} :
    (order.filterMap (l[·]?))[i]? = some a ↔ ∃ x, order[i]? = some x ∧ l[x]? = some a := by
  have hsome : ∀ x ∈ order, (l[x]?).isSome := by
    intro x hx
    rw [List.getElem?_eq_getElem (List.mem_range.mp (h.mem_iff.mp hx))]
    rfl
  rw [getElem?_filterMap_of_isSome hsome, Option.bind_eq_some_iff]

theorem getElem?_idxOf_iff {order : List Nat} (hnodup : order.Nodup) {y j : Nat} (hy : y ∈ order) :
    order.idxOf y = j ↔ order[j]? = some y := by
  constructor
  · rintro rfl
    exact List.getElem?_eq_some_iff.mpr ⟨List.idxOf_lt_length_of_mem hy, List.getElem_idxOf _⟩
  · intro h
    obtain ⟨hj, rfl⟩ := List.getElem?_eq_some_iff.mp h
    exact hnodup.idxOf_getElem j hj

/-- Places of distinct items in an order are distinct. -/
theorem pairwise_places {order items : List Nat} (hitems : items.Nodup)
    (h : ∀ y ∈ items, y ∈ order) :
    ((items.map order.idxOf).mergeSort fun a b => a ≤ b).Pairwise (· < ·) := by
  have hnodup : (items.map order.idxOf).Nodup :=
    hitems.map_on fun y hy z _ hyz => (List.idxOf_inj (h y hy)).mp hyz
  have hsorted : ((items.map order.idxOf).mergeSort fun a b => a ≤ b).Pairwise
      fun a b => decide (a ≤ b) = true :=
    List.pairwise_mergeSort (fun a b c hab hbc => by
      rw [decide_eq_true_iff] at hab hbc ⊢
      exact Nat.le_trans hab hbc) (fun a b => by
      rw [Bool.or_eq_true, decide_eq_true_iff, decide_eq_true_iff]
      exact Nat.le_total a b) _
  refine hsorted.imp₂ (fun a b hle hne => ?_) ((List.mergeSort_perm ..).nodup_iff.mpr hnodup)
  exact Nat.lt_of_le_of_ne (of_decide_eq_true hle) hne

/-- The places of what comes before each item of an order. -/
def placesBefore (before : Nat → List Nat) (order : List Nat) : List (List Nat) :=
  order.map fun i => ((before i).map order.idxOf).mergeSort fun a b => a ≤ b

theorem mem_placesBefore {before : Nat → List Nat} {order : List Nat} (hnodup : order.Nodup)
    (hmem : ∀ x ∈ order, ∀ y ∈ before x, y ∈ order) {i x : Nat} (hx : order[i]? = some x) {j : Nat} :
    j ∈ (placesBefore before order)[i]?.getD [] ↔ ∃ y ∈ before x, order[j]? = some y := by
  rw [placesBefore, List.getElem?_map, hx, Option.map_some, Option.getD_some,
    (List.mergeSort_perm ..).mem_iff, List.mem_map]
  exact exists_congr fun y => and_congr_right fun hy =>
    getElem?_idxOf_iff hnodup (hmem x (List.mem_of_getElem? hx) y hy)

theorem pairwise_placesBefore {before : Nat → List Nat} {order : List Nat}
    (hnodup : ∀ x, (before x).Nodup) (hmem : ∀ x ∈ order, ∀ y ∈ before x, y ∈ order) (i : Nat) :
    ((placesBefore before order)[i]?.getD []).Pairwise (· < ·) := by
  rw [placesBefore, List.getElem?_map]
  cases hx : order[i]? with
  | none => exact .nil
  | some x => exact pairwise_places (hnodup x) (hmem x (List.mem_of_getElem? hx))

theorem lt_of_mem_placesBefore {before : Nat → List Nat} {order : List Nat} (hnodup : order.Nodup)
    (hbefore : ∀ i ∈ order, ∀ j ∈ before i, order.idxOf j < order.idxOf i) {k d : Nat}
    (hd : d ∈ (placesBefore before order)[k]?.getD []) : d < k := by
  rw [placesBefore, List.getElem?_map] at hd
  cases hk : order[k]? with
  | none =>
      rw [hk] at hd
      cases hd
  | some i =>
      obtain ⟨hlt, hi⟩ := List.getElem?_eq_some_iff.mp hk
      rw [hk, Option.map_some, Option.getD_some, (List.mergeSort_perm ..).mem_iff] at hd
      obtain ⟨j, hj, rfl⟩ := List.mem_map.mp hd
      have hearlier := hbefore i (hi ▸ List.getElem_mem hlt) j hj
      rwa [← hi, hnodup.idxOf_getElem] at hearlier

/-- What comes earlier in an order comes later in the opposite one. -/
theorem idxOf_reverse_lt {order : List Nat} (hnodup : order.Nodup) {i j : Nat} (hi : i ∈ order)
    (hj : j ∈ order) (h : order.idxOf i < order.idxOf j) :
    order.reverse.idxOf j < order.reverse.idxOf i := by
  induction order with
  | nil => cases hi
  | cons k order ih =>
      obtain ⟨hk, hnodup⟩ := List.nodup_cons.mp hnodup
      have hjk : j ≠ k := by
        rintro rfl
        rw [List.idxOf_cons_self] at h
        cases h
      have hrest := (List.mem_cons.mp hj).resolve_left hjk
      rw [List.reverse_cons, List.idxOf_append_of_mem (List.mem_reverse.mpr hrest)]
      rcases List.mem_cons.mp hi with rfl | hi
      · rw [List.idxOf_append_of_notMem (fun hm => hk (List.mem_reverse.mp hm))]
        exact Nat.lt_of_lt_of_le (List.idxOf_lt_length_of_mem (List.mem_reverse.mpr hrest))
          (Nat.le_add_right ..)
      · have hik : k ≠ i := fun he => hk (he ▸ hi)
        rw [List.idxOf_append_of_mem (List.mem_reverse.mpr hi)]
        rw [List.idxOf_cons_ne _ hik, List.idxOf_cons_ne _ hjk.symm] at h
        exact ih hnodup hi hrest (Nat.lt_of_succ_lt_succ h)

/-- The documents of a build are those it was made of, in another order. -/
theorem perm_of_ofDocuments {docs : List Document} {b : Build}
    (h : Build.ofDocuments docs = .ok b) : b.documents.Perm docs := by
  rw [Build.ofDocuments, bind_eq_ok] at h
  obtain ⟨order, horder, hb⟩ := h
  cases hb
  exact perm_filterMap_getElem? (size_documentGraph docs ▸ (sorts_of_applyOrder horder).perm)

/-- The dependencies of a document of a build come before it. -/
theorem lt_of_mem_dependencies {docs : List Document} {b : Build}
    (h : Build.ofDocuments docs = .ok b) {k d : Nat} (hd : d ∈ b.dependencies[k]?.getD []) :
    d < k := by
  rw [Build.ofDocuments, bind_eq_ok] at h
  obtain ⟨order, horder, hb⟩ := h
  cases hb
  have hsorts := sorts_of_applyOrder horder
  refine lt_of_mem_placesBefore (hsorts.perm.nodup_iff.mpr List.nodup_range) ?_ hd
  exact fun i hi j hj => hsorts.after i (List.mem_range.mp (hsorts.perm.mem_iff.mp hi)) j hj

/-- Deletes are of the objects they are planned for, and those that come before one are earlier. -/
theorem deletes_of_planDeletes {live : List Document} {deletes : List Change}
    {before : List (List Nat)} (h : planDeletes live = .ok (deletes, before)) :
    (deletes.map Change.subject).Perm live ∧
      ∀ k : Nat, ∀ d ∈ before[k]?.getD [], d < k := by
  rw [planDeletes, bind_eq_ok] at h
  obtain ⟨order, horder, hdeletes⟩ := h
  cases hdeletes
  have hsorts := sorts_of_applyOrder (mapError_eq_ok.mp horder)
  have hnodup := hsorts.perm.nodup_iff.mpr List.nodup_range
  have hperm : order.reverse.Perm (List.range live.length) :=
    (List.reverse_perm order).trans (size_documentGraph live ▸ hsorts.perm)
  constructor
  · rw [List.map_map, show Change.subject ∘ Change.delete = id from rfl, List.map_id]
    exact perm_filterMap_getElem? hperm
  · refine fun k d hd => lt_of_mem_placesBefore (List.nodup_reverse.mpr hnodup) ?_ hd
    intro i hi j hj
    obtain ⟨hlt, hneeds⟩ := Graph.mem_dependents.mp hj
    have hmem (l : Nat) (hl : l < (documentGraph live).size) : l ∈ order :=
      hsorts.perm.mem_iff.mpr (List.mem_range.mpr hl)
    exact idxOf_reverse_lt hnodup (List.mem_reverse.mp hi) (hmem j hlt)
      (hsorts.after j hlt i hneeds)

theorem eq_delete_of_planDeletes {live : List Document} {deletes : List Change}
    {before : List (List Nat)} (h : planDeletes live = .ok (deletes, before)) {c : Change}
    (hc : c ∈ deletes) : c = .delete c.subject := by
  rw [planDeletes, bind_eq_ok] at h
  obtain ⟨order, -, hdeletes⟩ := h
  cases hdeletes
  obtain ⟨l, -, rfl⟩ := List.mem_map.mp hc
  rfl

end Rollout
