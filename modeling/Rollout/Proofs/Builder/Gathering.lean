import Rollout.Builder
import Rollout.Proofs.Except
/-!
What the loop over the components gives: the documents of a run that knows of no records, and the
records of the runs that made them.
-/

namespace Rollout.Builder

variable {b : Builder} {c : Component} {cs : List Component} {s t : DocumentSet}

theorem runAll_cons_error (cs : List Component) {e : BuildError}
    (h : b.runComponent s c = .error e) : b.runAll (c :: cs) s = (.error e, [⟨c, s⟩]) := by
  rw [runAll, h]

theorem runAll_cons_ok (cs : List Component) (h : b.runComponent s c = .ok t) :
    b.runAll (c :: cs) s = ((b.runAll cs t).1, ⟨c, s⟩ :: (b.runAll cs t).2) := by
  rw [runAll, h]

theorem fst_runAll (cs : List Component) (s : DocumentSet) :
    (b.runAll cs s).1 = cs.foldlM b.runComponent s := by
  induction cs generalizing s with
  | nil => rfl
  | cons c cs ih =>
      cases hc : b.runComponent s c with
      | error e =>
          rw [runAll_cons_error cs hc, List.foldlM_cons, hc]
          rfl
      | ok t =>
          rw [runAll_cons_ok cs hc, List.foldlM_cons, hc]
          exact ih t

theorem gather_eq (b : Builder) :
    b.gather = (do
      let order ← Component.order b.dependencies
      let s ← b.directDocuments
      (order.filterMap (b.components[·]?)).foldlM b.runComponent s) := by
  rw [gather, runComponents]
  cases Component.order b.dependencies with
  | error e => rfl
  | ok order =>
      cases b.directDocuments with
      | error e => rfl
      | ok s => exact fst_runAll _ s

/-- The records are of the components in their order, up to one that fails. -/
theorem components_runAll (cs : List Component) (s : DocumentSet) :
    (b.runAll cs s).2.map Execution.component <+: cs := by
  induction cs generalizing s with
  | nil => exact List.prefix_rfl
  | cons c cs ih =>
      cases hc : b.runComponent s c with
      | error e =>
          rw [runAll_cons_error cs hc]
          exact ⟨cs, rfl⟩
      | ok t =>
          rw [runAll_cons_ok cs hc]
          exact (List.prefix_cons_inj c).mpr (ih t)

theorem components_runAll_of_succeeds
    (h : ∀ x ∈ (b.runAll cs s).2, ∃ t, b.runComponent x.found x.component = .ok t) :
    (b.runAll cs s).2.map Execution.component = cs := by
  induction cs generalizing s with
  | nil => rfl
  | cons c cs ih =>
      cases hc : b.runComponent s c with
      | error e =>
          rw [runAll_cons_error cs hc, List.forall_mem_singleton] at h
          obtain ⟨t, ht⟩ := h
          cases hc.symm.trans ht
      | ok t =>
          rw [runAll_cons_ok cs hc, List.forall_mem_cons] at h
          rw [runAll_cons_ok cs hc]
          exact congrArg (c :: ·) (ih h.2)

/-- The components that were run make the result by themselves. -/
theorem foldlM_runAll (cs : List Component) (s : DocumentSet) :
    ((b.runAll cs s).2.map Execution.component).foldlM b.runComponent s = (b.runAll cs s).1 := by
  induction cs generalizing s with
  | nil => rfl
  | cons c cs ih =>
      cases hc : b.runComponent s c with
      | error e =>
          rw [runAll_cons_error cs hc, List.map_singleton, List.foldlM_cons, hc]
          rfl
      | ok t =>
          rw [runAll_cons_ok cs hc, List.map_cons, List.foldlM_cons, hc]
          exact ih t

/-- What is found is what the components before have left. -/
theorem found_runAll {pre post : List Execution} {x : Execution}
    (h : (b.runAll cs s).2 = pre ++ x :: post) :
    (pre.map Execution.component).foldlM b.runComponent s = .ok x.found := by
  induction cs generalizing s pre with
  | nil => cases pre <;> cases h
  | cons c cs ih =>
      obtain ⟨xs, hxs⟩ : ∃ xs, (b.runAll (c :: cs) s).2 = ⟨c, s⟩ :: xs := by
        cases hc : b.runComponent s c with
        | error e => exact ⟨[], by rw [runAll_cons_error cs hc]⟩
        | ok t => exact ⟨_, by rw [runAll_cons_ok cs hc]⟩
      cases pre with
      | nil =>
          rw [hxs] at h
          cases h
          rfl
      | cons y pre =>
          cases hc : b.runComponent s c with
          | error e =>
              rw [runAll_cons_error cs hc] at h
              cases pre <;> cases h
          | ok t =>
              rw [runAll_cons_ok cs hc] at h
              obtain ⟨rfl, hrest⟩ := List.cons.inj h
              rw [List.map_cons, List.foldlM_cons, hc]
              exact ih hrest

/-- A run that fails ends with the component that did. -/
theorem exists_failed_of_runAll {e : BuildError} (h : (b.runAll cs s).1 = .error e) :
    ∃ x ∈ (b.runAll cs s).2, b.runComponent x.found x.component = .error e := by
  induction cs generalizing s with
  | nil => cases h
  | cons c cs ih =>
      cases hc : b.runComponent s c with
      | error e' =>
          rw [runAll_cons_error cs hc] at h ⊢
          cases h
          exact ⟨_, List.mem_singleton_self _, hc⟩
      | ok t =>
          rw [runAll_cons_ok cs hc] at h ⊢
          obtain ⟨x, hx, hfailed⟩ := ih h
          exact ⟨x, List.mem_cons_of_mem _ hx, hfailed⟩

end Rollout.Builder
