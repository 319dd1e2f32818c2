import Rollout.Proofs.Document.References
import Rollout.Proofs.DocumentSet.Collected
/-!
Deletes in the opposite of the order of application. What would have to be applied after an object
is deleted before it.
-/

namespace Rollout

/-- Deletes of objects in an order, with the places of those that depend on each of them. -/
structure Reverses (live : List Document) (order : List Nat) (deletes : List Change)
    (before : List (List Nat)) : Prop where
  perm : order.Perm (List.range live.length)
  changes : deletes = (order.filterMap (live[·]?)).map .delete
  length : before.length = deletes.length
  ascending : ∀ i : Nat, (before[i]?.getD []).Pairwise (· < ·)
  below : ∀ j : Nat, ∀ i ∈ before[j]?.getD [], i < j
  image : ∀ j y : Nat, order[j]? = some y → ∀ i, i ∈ before[j]?.getD [] ↔
    ∃ x ∈ (documentGraph live).dependents y, order[i]? = some x

variable {live : List Document} {order : List Nat} {deletes : List Change}
  {before : List (List Nat)}

/-- The order of deletion is the reverse of the order of application. -/
theorem exists_applyOrder_of_planDeletes (h : planDeletes live = .ok (deletes, before)) :
    ∃ order, applyOrder live = .ok order ∧ Reverses live order.reverse deletes before := by
  have hbelow := (deletes_of_planDeletes h).2
  rw [planDeletes, bind_eq_ok] at h
  obtain ⟨order, horder, hdeletes⟩ := h
  cases hdeletes
  have hsize := size_documentGraph live
  have hperm : order.reverse.Perm (List.range live.length) :=
    (List.reverse_perm order).trans (hsize ▸ (sorts_of_applyOrder (mapError_eq_ok.mp horder)).perm)
  have hmem : ∀ y ∈ order.reverse, ∀ x ∈ (documentGraph live).dependents y, x ∈ order.reverse := by
    intro y _ x hx
    rw [hperm.mem_iff, List.mem_range, ← hsize]
    exact (Graph.mem_dependents.mp hx).1
  refine ⟨order, mapError_eq_ok.mp horder, hperm, rfl, ?_, ?_, hbelow, fun j y hy i => ?_⟩
  · rw [List.length_map, List.length_map, (perm_filterMap_getElem? hperm).length_eq,
      hperm.length_eq, List.length_range]
  · exact pairwise_placesBefore (fun y => List.nodup_range.filter _) hmem
  · exact mem_placesBefore (hperm.nodup_iff.mpr List.nodup_range) hmem hy

theorem exists_reverses_of_planDeletes (h : planDeletes live = .ok (deletes, before)) :
    ∃ order, Reverses live order deletes before := by
  obtain ⟨order, -, hreverses⟩ := exists_applyOrder_of_planDeletes h
  exact ⟨_, hreverses⟩

namespace Document

/-- One document lives in the namespace that another one is. -/
def Hosts (d e : Document) : Prop := d.kind = "Namespace" ∧ e.ns? = some d.name

/-- The annotation of one document means another one, of those with the given identities. -/
def Awaits (keys : List Key) (d e : Document) : Prop :=
  e.key ∈ d.annotatedReferences.filterMap (·.find? (· ∈ keys))

variable {keys : List Key} {d e : Document}

/-- What is to come first is referred to, or is meant by the annotation. -/
theorem needs_iff (he : e.key ∈ keys) (hne : e.key ≠ d.key) :
    d.Needs keys e ↔ e.key ∈ d.references ∨ d.Awaits keys e := by
  rw [Needs, and_iff_left hne, targets, List.mem_append, List.mem_filter, decide_eq_true_iff,
    and_iff_left he, Awaits]

theorem Hosts.key_mem_references (h : e.Hosts d) : e.key ∈ d.references ↔ e.ns? = none := by
  rw [mem_references_iff_of_namespace h.1]
  constructor
  · rintro ⟨ns, -, hk⟩
    exact congrArg Key.ns hk
  · intro hns
    refine ⟨e.name, h.2, ?_⟩
    rw [key, h.1, hns]

/-- A type is referred to by the mark that a build leaves, and by nothing in the tree. -/
theorem Defines.key_mem_references (h : e.Defines d) : e.key ∈ d.references ↔
    e.ns? = none ∧ ∃ c, d.markers.requires = some c ∧ c.name = e.name := by
  obtain ⟨t, ht, -⟩ := h
  have hkind := (of_crd? ht).1
  rw [isCrd, Bool.and_eq_true, beq_iff_eq] at hkind
  rw [mem_references_iff_of_definition hkind.1]
  constructor
  · rintro ⟨c, hc, hk⟩
    exact ⟨congrArg Key.ns hk, c, hc, (congrArg Key.name hk).symm⟩
  · rintro ⟨hns, c, hc, hname⟩
    refine ⟨c, hc, ?_⟩
    rw [key, hkind.1, hns, hname]

end Document

namespace Reverses

variable {i j n m : Nat} {x y : Document} (h : Reverses live order deletes before)

include h

theorem getElem?_deletes :
    deletes[i]? = some (.delete x) ↔ ∃ n, order[i]? = some n ∧ live[n]? = some x := by
  rw [h.changes, List.getElem?_map, ← getElem?_placed h.perm]
  cases (order.filterMap (live[·]?))[i]? with
  | none => exact ⟨nofun, nofun⟩
  | some l => simp

/-- Every object has its place. -/
theorem exists_place (hx : x ∈ live) : ∃ i : Nat, deletes[i]? = some (.delete x) := by
  rw [← (perm_filterMap_getElem? h.perm).mem_iff] at hx
  obtain ⟨i, hi⟩ := List.mem_iff_getElem?.mp hx
  refine ⟨i, ?_⟩
  rw [h.changes, List.getElem?_map, hi, Option.map_some]

/-- What comes before a delete depends directly on what it deletes. -/
theorem mem_before_iff_needs (hi : order[i]? = some n) (hj : order[j]? = some m) :
    j ∈ before[i]?.getD [] ↔ n ∈ (documentGraph live).needs m := by
  rw [h.image i n hi]
  constructor
  · rintro ⟨m', hm', hj'⟩
    obtain rfl := Option.some.inj (hj.symm.trans hj')
    exact (Graph.mem_dependents.mp hm').2
  · intro hneeds
    have hlt : m < (documentGraph live).size := by
      rw [size_documentGraph]
      exact List.mem_range.mp (h.perm.mem_iff.mp (List.mem_of_getElem? hj))
    exact ⟨m, Graph.mem_dependents.mpr ⟨hlt, hneeds⟩, hj⟩

/-- An object is deleted before another one exactly if it would be applied after it. -/
theorem mem_before_iff (hdistinct : Distinct live) (hi : deletes[i]? = some (.delete x))
    (hj : deletes[j]? = some (.delete y)) :
    i ∈ before[j]?.getD [] ↔ x.Needs (live.map Document.key) y := by
  obtain ⟨n, hn, hx⟩ := h.getElem?_deletes.mp hi
  obtain ⟨m, hm, hy⟩ := h.getElem?_deletes.mp hj
  rw [h.mem_before_iff_needs hm hn]
  exact mem_needs_documentGraph hdistinct hx hy

end Reverses

end Rollout
