import Rollout.Proofs.Graph.Cycles
import Rollout.Proofs.Plan.Reversed
/-!
Deletes are the faithful reverse of applying. They can be planned unless an object depends on
itself through others, and each comes after the deletes of exactly the objects that depend directly
on its own.
-/

namespace Rollout

open Relation

variable {live : List Document}

theorem exists_planDeletes_iff :
    (∃ r, planDeletes live = .ok r) ↔ ∃ order, (documentGraph live).sort = .ok order := by
  constructor
  · rintro ⟨r, h⟩
    obtain ⟨order, horder, -⟩ := bind_eq_ok.mp h
    exact ⟨order, mapError_eq_ok.mp (mapError_eq_ok.mp horder)⟩
  · rintro ⟨order, horder⟩
    exact ⟨_, bind_eq_ok.mpr ⟨order, mapError_eq_ok.mpr (mapError_eq_ok.mpr horder), rfl⟩⟩

/-- Deletes cannot be planned exactly if the graph of the objects has a cycle. -/
theorem exists_error_planDeletes_iff :
    (∃ e, planDeletes live = .error e) ↔ ∃ n, TransGen (documentGraph live).Needs n n := by
  have hsort := exists_planDeletes_iff.trans
    (Graph.exists_sort_iff_forall_not_needs (wellFormed_documentGraph live))
  rw [← not_iff_not, not_exists, not_exists, ← hsort]
  constructor
  · intro h
    cases hr : planDeletes live with
    | error e => exact absurd hr (h e)
    | ok r => exact ⟨r, rfl⟩
  · rintro ⟨r, hr⟩ e he
    cases hr.symm.trans he

/-- What is left out of a list for want of a value is nothing, if all have one. -/
theorem forall₂_filterMap {α β : Type} {f : α → Option β} {l : List α}
    (h : ∀ a ∈ l, (f a).isSome) : List.Forall₂ (fun b a => f a = some b) (l.filterMap f) l := by
  induction l with
  | nil => exact .nil
  | cons a l ih =>
      rw [List.forall_mem_cons] at h
      obtain ⟨b, hb⟩ := Option.isSome_iff_exists.mp h.1
      rw [List.filterMap_cons_some hb]
      exact .cons hb (ih h.2)

namespace Reverses

variable {order : List Nat} {deletes : List Change} {before : List (List Nat)}
  (h : Reverses live order deletes before)

include h

/-- One delete for each place of the order. -/
theorem forall₂_deletes :
    List.Forall₂ (fun c n => ∃ x, live[n]? = some x ∧ c = .delete x) deletes order := by
  have hsome : ∀ n ∈ order, (live[n]?).isSome := by
    intro n hn
    have hlt := List.mem_range.mp (h.perm.mem_iff.mp hn)
    rw [List.getElem?_eq_getElem hlt, Option.isSome_some]
  rw [h.changes, List.forall₂_map_left_iff]
  refine (forall₂_filterMap hsome).imp fun x n hx => ?_
  exact ⟨x, hx, rfl⟩

theorem perm_subjects : (deletes.map Change.subject).Perm live := by
  rw [h.changes, List.map_map]
  exact (List.map_id _).symm ▸ perm_filterMap_getElem? h.perm

end Reverses

/-- Deletes of objects are planned exactly if the graph of these has no cycle. They are then one for
each object, in the reverse of the order of application. What comes before a delete is ascending and
earlier than it, and is what depends directly on the object: in the graph, and so by what the
documents refer to. -/
theorem planDeletes_reverses (hdistinct : Distinct live) :
    ((∃ e, planDeletes live = .error e) ↔ ∃ n, TransGen (documentGraph live).Needs n n) ∧
    ∀ deletes before, planDeletes live = .ok (deletes, before) →
      ∃ order, applyOrder live = .ok order ∧
        List.Forall₂ (fun c n => ∃ x, live[n]? = some x ∧ c = .delete x) deletes order.reverse ∧
        (deletes.map Change.subject).Perm live ∧ before.length = deletes.length ∧
        ∀ i : Nat, (before[i]?.getD []).Pairwise (· < ·) ∧ (∀ j ∈ before[i]?.getD [], j < i) ∧
          (∀ j n m : Nat, order.reverse[i]? = some n → order.reverse[j]? = some m →
            (j ∈ before[i]?.getD [] ↔ (documentGraph live).Needs m n)) ∧
          ∀ (j : Nat) x y, deletes[i]? = some (.delete x) → deletes[j]? = some (.delete y) →
            (j ∈ before[i]?.getD [] ↔ y.Needs (live.map Document.key) x) := by
  refine ⟨exists_error_planDeletes_iff, ?_⟩
  intro deletes before hplan
  obtain ⟨order, horder, h⟩ := exists_applyOrder_of_planDeletes hplan
  refine ⟨order, horder, h.forall₂_deletes, h.perm_subjects, h.length, fun i => ?_⟩
  refine ⟨h.ascending i, h.below i, ?_, ?_⟩
  · intro j n m hn hm
    exact h.mem_before_iff_needs hn hm
  · intro j x y hx hy
    exact h.mem_before_iff hdistinct hy hx

theorem placesBefore_of_ascending {before : Nat → List Nat} {order : List Nat}
    (h : ∀ i ∈ order, ((before i).map order.idxOf).Pairwise (· < ·)) :
    placesBefore before order = order.map fun i => (before i).map order.idxOf := by
  refine List.map_congr_left fun i hi => List.mergeSort_of_pairwise ((h i hi).imp fun hlt => ?_)
  exact decide_eq_true (Nat.le_of_lt hlt)

/-- A namespace, an account in it, and a pod that runs as this account. -/
def tenants : List Document :=
  [{ root := .mapping [("apiVersion", .string "v1"), ("kind", .string "Pod"),
      ("metadata", .mapping [("name", .string "web"), ("namespace", .string "shop")]),
      ("spec", .mapping [("serviceAccountName", .string "runner")])]
     wellKeyed := by simp [Ordered.keys] },
    DocumentSet.synthesized "shop",
    (Document.new "v1" "ServiceAccount" "runner").setNs (some "shop")]

def tenantDeletes : List Change :=
  [0, 2, 1].filterMap fun n => tenants[n]?.map .delete

/-- The pod is deleted first, then the account, and the namespace after both. -/
theorem planDeletes_tenants :
    Distinct tenants ∧ planDeletes tenants = .ok (tenantDeletes, [[], [0], [0, 1]]) ∧
      ¬ (∃ n, TransGen (documentGraph tenants).Needs n n) ∧
      ∃ order, applyOrder tenants = .ok order ∧
        List.Forall₂ (fun c n => ∃ x, tenants[n]? = some x ∧ c = .delete x) tenantDeletes
          order.reverse := by
  have hdistinct : Distinct tenants := by decide +kernel
  have hplan : planDeletes tenants = .ok (tenantDeletes, [[], [0], [0, 1]]) := by
    have horder : applyOrder tenants = .ok [1, 2, 0] := by decide +kernel
    have hbefore : placesBefore (documentGraph tenants).dependents [0, 2, 1] =
        [[], [0], [0, 1]] := by
      rw [placesBefore_of_ascending (by decide +kernel)]
      decide +kernel
    rw [planDeletes, horder]
    exact congrArg (fun before => Except.ok (tenantDeletes, before)) hbefore
  obtain ⟨hfails, hreverses⟩ := planDeletes_reverses hdistinct
  obtain ⟨order, horder, hdeletes, -⟩ := hreverses _ _ hplan
  refine ⟨hdistinct, hplan, ?_, order, horder, hdeletes⟩
  rintro hcycle
  obtain ⟨e, he⟩ := hfails.mpr hcycle
  cases hplan.symm.trans he

end Rollout
