import Mathlib.Logic.Equiv.Basic
import Rollout.Proofs.Graph.Cycles
/-!
Which order sorting gives: of all orders in which each node comes after those that it must come
after, the one that takes nodes of low priority as early as can be. How the nodes are numbered
matters only between equal priorities.
-/

namespace Rollout.Graph

open Relation

/-- All nodes in an order, each after those that the edges put before it. -/
structure Arranges (size : Nat) (edges : List (Nat × Nat)) (order : List Nat) : Prop where
  perm : order.Perm (List.range size)
  after : ∀ i j, Awaits edges i j → order.idxOf j < order.idxOf i

variable {P : Type} {priorities priorities' : List P} {edges edges' : List (Nat × Nat)}
  {order : List Nat} {i j : Nat}

/-- Nothing comes before what it awaits. -/
theorem Arranges.pairwise {size : Nat} (h : Arranges size edges order) :
    order.Pairwise fun i j => ¬ Awaits edges i j := by
  have hnodup := h.perm.nodup_iff.mpr List.nodup_range
  refine List.pairwise_iff_getElem.mpr fun a b ha hb hab hawaits => ?_
  have hlt := h.after _ _ hawaits
  rw [hnodup.idxOf_getElem a ha, hnodup.idxOf_getElem b hb] at hlt
  exact Nat.lt_asymm hab hlt

section Order

variable [Ord P]

/-- Nodes are compared by their priorities, and of equal priorities by their numbers. -/
def Sooner (priorities : List P) (i j : Nat) : Prop :=
  ∃ p q, priorities[i]? = some p ∧ priorities[j]? = some q ∧
    (compare p q = .lt ∨ compare p q = .eq ∧ i < j)

/-- The priorities of the nodes in the order that sorting gives. -/
def sortedPriorities (priorities : List P) (edges : List (Nat × Nat)) : Option (List P) :=
  (ofEdges priorities edges).sort.toOption.map fun order => order.filterMap (priorities[·]?)

theorem sooner_of_precedes (hi : i < priorities.length) (hj : j < priorities.length)
    (h : (ofEdges priorities edges).precedes i j) : Sooner priorities i j := by
  have hp := List.getElem?_eq_getElem hi
  have hq := List.getElem?_eq_getElem hj
  exact ⟨_, _, hp, hq, (precedes_iff hp hq).mp h⟩

theorem not_sooner_of_sooner [Std.OrientedOrd P] (h : Sooner priorities i j) :
    ¬ Sooner priorities j i := by
  obtain ⟨p, q, hp, hq, hpq⟩ := h
  rintro ⟨q', p', hq', hp', hqp⟩
  obtain rfl := Option.some.inj (hp.symm.trans hp')
  obtain rfl := Option.some.inj (hq.symm.trans hq')
  rw [show compare q p = (compare p q).swap from Std.OrientedCmp.eq_swap] at hqp
  rcases hpq with hlt | ⟨heq, hij⟩
  · rw [hlt] at hqp
    rcases hqp with hgt | ⟨heq, -⟩
    · cases hgt
    · cases heq
  · rw [heq] at hqp
    rcases hqp with hgt | ⟨-, hji⟩
    · cases hgt
    · exact Nat.lt_asymm hij hji

/-- A counter that is lowered was not zero. -/
theorem exists_waiting_of_first {g : Graph P} (hg : g.WellFormed) (steps : Nat) {node : Nat}
    (hnode : g.first (g.run steps g.start).ready = some node) (hi : i ∈ g.dependents node) :
    ∃ n, (g.run steps g.start).waiting[i]? = some (n + 1) := by
  have hsound := (sound_start hg).run hg steps
  obtain ⟨hlt, hneeds⟩ := mem_dependents.mp hi
  have hopen := ((hsound.ready node).mp (mem_of_first hnode)).2.1
  have hpos : 0 < (g.needs i).countP (· ∉ (g.run steps g.start).placed) :=
    List.countP_pos_iff.mpr ⟨node, hneeds, decide_eq_true hopen⟩
  exact ⟨_, by rw [hsound.waiting i hlt, Nat.sub_add_cancel hpos]⟩

section Sorted

variable (hedges : ∀ e ∈ edges, e.1 < priorities.length ∧ e.2 < priorities.length)

include hedges

theorem exists_sort_iff_acyclic :
    (∃ order, (ofEdges priorities edges).sort = .ok order) ↔ ∀ i, ¬ OnCycle edges i := by
  rw [exists_sort_iff_forall_not_needs (wellFormed_ofEdges priorities fun e he => (hedges e he).2),
    needs_ofEdges_eq fun e he => (hedges e he).1]
  rfl

variable (h : (ofEdges priorities edges).sort = .ok order)

include h

theorem arranges_of_sort : Arranges priorities.length edges order := by
  have hsorts := sorts_of_sort (wellFormed_ofEdges priorities fun e he => (hedges e he).2) h
  refine ⟨hsorts.perm, fun i j hij => ?_⟩
  rw [← needs_ofEdges_eq fun e he => (hedges e he).1] at hij
  exact hsorts.after i (mem_needs_ofEdges.mp hij).1 j hij

theorem greedy_sooner_of_sort [Std.TransOrd P] :
    Greedy (Awaits edges) (Sooner priorities) order := by
  have hgreedy := greedy_of_sort
    (wellFormed_ofEdges priorities fun e he => (hedges e he).2) h
  have hlt : ∀ i ∈ order, i < priorities.length := fun i hi =>
    List.mem_range.mp ((arranges_of_sort hedges h).perm.mem_iff.mp hi)
  have hneeds := needs_ofEdges_eq fun e he => (hedges e he).1
  rw [← List.filterMap_some (l := order)]
  refine hgreedy.filterMap (fun _ _ => rfl) ?_ ?_
  · rintro i - j - _ ⟨⟩ _ ⟨⟩
    exact iff_of_eq (congrFun₂ hneeds i j).symm
  · rintro i hi j hj _ ⟨⟩ _ ⟨⟩ hij
    exact sooner_of_precedes (hlt i hi) (hlt j hj) hij

end Sorted

end Order

/-- The same nodes and edges, with other numbers. -/
structure Renumbers (σ : Equiv.Perm Nat) (priorities priorities' : List P)
    (edges edges' : List (Nat × Nat)) : Prop where
  length : priorities'.length = priorities.length
  priority : ∀ i, priorities'[σ i]? = priorities[i]?
  edge : ∀ i j, (σ i, σ j) ∈ edges' ↔ (i, j) ∈ edges

namespace Renumbers

variable {σ : Equiv.Perm Nat} (h : Renumbers σ priorities priorities' edges edges')

include h

theorem symm : Renumbers σ.symm priorities' priorities edges' edges where
  length := h.length.symm
  priority i := by rw [← h.priority, Equiv.apply_symm_apply]
  edge i j := by rw [← h.edge, Equiv.apply_symm_apply, Equiv.apply_symm_apply]

theorem lt_iff : σ i < priorities'.length ↔ i < priorities.length := by
  rw [← not_iff_not, Nat.not_lt, Nat.not_lt, ← List.getElem?_eq_none_iff,
    ← List.getElem?_eq_none_iff, h.priority]

theorem lt_of_mem (hedges : ∀ e ∈ edges, e.1 < priorities.length ∧ e.2 < priorities.length) :
    ∀ e ∈ edges', e.1 < priorities'.length ∧ e.2 < priorities'.length := by
  intro e he
  have hback := hedges _ ((h.symm.edge e.1 e.2).mpr he)
  exact ⟨h.symm.lt_iff.mp hback.1, h.symm.lt_iff.mp hback.2⟩

theorem awaits_iff : Awaits edges' (σ i) (σ j) ↔ Awaits edges i j := by
  rw [Awaits, Awaits, h.edge, σ.injective.ne_iff]

theorem acyclic (hacyclic : ∀ i, ¬ OnCycle edges i) (i : Nat) : ¬ OnCycle edges' i := by
  intro hcycle
  refine hacyclic (σ.symm i) (TransGen.lift σ.symm ?_ i i hcycle)
  intro a b hab
  exact h.symm.awaits_iff.mpr hab

/-- The new numbers of all nodes are again the numbers of all nodes. -/
theorem perm_map (hperm : order.Perm (List.range priorities.length)) :
    (order.map σ).Perm (List.range priorities'.length) := by
  have hnodup := (hperm.nodup_iff.mpr List.nodup_range).map σ.injective
  refine (List.perm_ext_iff_of_nodup hnodup List.nodup_range).mpr fun k => ?_
  rw [List.mem_map, List.mem_range]
  constructor
  · rintro ⟨i, hi, rfl⟩
    exact h.lt_iff.mpr (List.mem_range.mp (hperm.mem_iff.mp hi))
  · intro hk
    refine ⟨σ.symm k, ?_, σ.apply_symm_apply k⟩
    exact hperm.mem_iff.mpr (List.mem_range.mpr (h.symm.lt_iff.mpr hk))

variable [Ord P] [Std.TransOrd P]

omit [Std.TransOrd P] in
/-- Where priorities differ, numbers do not count. -/
theorem sooner_map (hdistinct : priorities.Pairwise fun p q => compare p q ≠ .eq)
    (hij : Sooner priorities i j) : Sooner priorities' (σ i) (σ j) := by
  obtain ⟨p, q, hp, hq, hlt | ⟨heq, hlt⟩⟩ := hij
  · exact ⟨p, q, (h.priority i).trans hp, (h.priority j).trans hq, .inl hlt⟩
  · obtain ⟨hi, rfl⟩ := List.getElem?_eq_some_iff.mp hp
    obtain ⟨hj, rfl⟩ := List.getElem?_eq_some_iff.mp hq
    exact absurd heq (List.pairwise_iff_getElem.mp hdistinct i j hi hj hlt)

/-- The order of renumbered nodes is the order of the nodes, renumbered. -/
theorem sort_eq (hedges : ∀ e ∈ edges, e.1 < priorities.length ∧ e.2 < priorities.length)
    (hdistinct : priorities.Pairwise fun p q => compare p q ≠ .eq)
    (hsort : (ofEdges priorities edges).sort = .ok order) :
    (ofEdges priorities' edges').sort = .ok (order.map σ) := by
  have hedges' := h.lt_of_mem hedges
  have hacyclic := (exists_sort_iff_acyclic hedges).mp ⟨order, hsort⟩
  obtain ⟨order', hsort'⟩ := (exists_sort_iff_acyclic hedges').mpr (h.acyclic hacyclic)
  have hgreedy : Greedy (Awaits edges') (Sooner priorities') (order.map σ) := by
    rw [← List.filterMap_eq_map]
    refine (greedy_sooner_of_sort hedges hsort).filterMap (fun _ _ => rfl) ?_ ?_
    · rintro i - j - _ ⟨⟩ _ ⟨⟩
      exact h.awaits_iff
    · rintro i - j - _ ⟨⟩ _ ⟨⟩ hij
      exact h.sooner_map hdistinct hij
  have hperm := (arranges_of_sort hedges' hsort').perm
  have heq : order.map σ = order' :=
    Greedy.eq_of_perm (fun i hi => hi.2 rfl) (fun _ _ => not_sooner_of_sooner) hgreedy
      (greedy_sooner_of_sort hedges' hsort')
      ((h.perm_map (arranges_of_sort hedges hsort).perm).trans hperm.symm)
  rw [heq, hsort']

theorem sortedPriorities_eq
    (hedges : ∀ e ∈ edges, e.1 < priorities.length ∧ e.2 < priorities.length)
    (hdistinct : priorities.Pairwise fun p q => compare p q ≠ .eq) :
    sortedPriorities priorities' edges' = sortedPriorities priorities edges := by
  rw [sortedPriorities, sortedPriorities]
  cases hsort : (ofEdges priorities edges).sort with
  | ok order =>
      rw [h.sort_eq hedges hdistinct hsort]
      simp only [Except.toOption, Option.map_some, List.filterMap_map, Function.comp_def, h.priority]
  | error members =>
      cases hsort' : (ofEdges priorities' edges').sort with
      | error members' => rfl
      | ok order' =>
          have hacyclic := (exists_sort_iff_acyclic (h.lt_of_mem hedges)).mp ⟨order', hsort'⟩
          obtain ⟨order, horder⟩ := (exists_sort_iff_acyclic hedges).mpr (h.symm.acyclic hacyclic)
          cases hsort.symm.trans horder

end Renumbers

/-- Sorting succeeds exactly if there is no cycle, and gives the least of all orders in which each
node comes after those that it must come after. The counters of what nodes wait for never fall
below zero, and between distinct priorities the numbers of the nodes do not count. -/
theorem sort_least [Ord P] [Std.TransOrd P]
    (hedges : ∀ e ∈ edges, e.1 < priorities.length ∧ e.2 < priorities.length) :
    ((∃ order, (ofEdges priorities edges).sort = .ok order) ↔ ∀ i, ¬ OnCycle edges i) ∧
      (∀ order, (ofEdges priorities edges).sort = .ok order →
        Arranges priorities.length edges order ∧
          ∀ other, Arranges priorities.length edges other →
            other = order ∨ List.Lex (Sooner priorities) order other) ∧
      (∀ steps node, let g := ofEdges priorities edges
        g.first (g.run steps g.start).ready = some node →
          ∀ i ∈ g.dependents node, ∃ n, (g.run steps g.start).waiting[i]? = some (n + 1)) ∧
      ((priorities.Pairwise fun p q => compare p q ≠ .eq) → ∀ σ priorities' edges',
        Renumbers σ priorities priorities' edges edges' →
          sortedPriorities priorities' edges' = sortedPriorities priorities edges) := by
  refine ⟨exists_sort_iff_acyclic hedges, fun order horder => ?_, fun steps node => ?_, ?_⟩
  · have harranges := arranges_of_sort hedges horder
    refine ⟨harranges, fun other hother => ?_⟩
    exact (greedy_sooner_of_sort hedges horder).eq_or_lex (fun i hi => hi.2 rfl) hother.pairwise
      (hother.perm.trans harranges.perm.symm)
  · intro g hnode i hi
    have hg := wellFormed_ofEdges priorities fun e he => (hedges e he).2
    exact exists_waiting_of_first hg steps hnode hi
  · intro hdistinct σ priorities' edges' h
    exact h.sortedPriorities_eq hedges hdistinct

theorem renumbers_swap :
    Renumbers (Equiv.swap 0 1) [3, 1, 2] [1, 3, 2] [(1, 0)] [(0, 1)] where
  length := rfl
  priority i := by
    match i with
    | 0 | 1 | 2 => rfl
    | i + 3 => rw [Equiv.swap_apply_of_ne_of_ne (by omega) (by omega)]; rfl
  edge i j := by
    simp [Equiv.swap_apply_eq_iff]

/-- The node of priority 1 waits for the one of priority 3, so the one of priority 2 comes first. -/
theorem sort_least_of_three :
    (∀ e ∈ [(1, 0)], e.1 < 3 ∧ e.2 < 3) ∧
      (ofEdges [3, 1, 2] [(1, 0)]).sort = .ok [2, 0, 1] ∧ Arranges 3 [(1, 0)] [2, 0, 1] ∧
      (∀ other, Arranges 3 [(1, 0)] other →
        other = [2, 0, 1] ∨ List.Lex (Sooner [3, 1, 2]) [2, 0, 1] other) ∧
      sortedPriorities [1, 3, 2] [(0, 1)] = sortedPriorities [3, 1, 2] [(1, 0)] := by
  have hsort : (ofEdges [3, 1, 2] [(1, 0)]).sort = .ok [2, 0, 1] := by decide
  have hedges : ∀ e ∈ [(1, 0)], e.1 < [3, 1, 2].length ∧ e.2 < [3, 1, 2].length := by decide
  have hdistinct : [3, 1, 2].Pairwise fun p q => compare p q ≠ .eq := by decide
  obtain ⟨-, hleast, -, hnumbers⟩ := sort_least hedges
  obtain ⟨harranges, hothers⟩ := hleast _ hsort
  exact ⟨hedges, hsort, harranges, hothers, hnumbers hdistinct _ _ _ renumbers_swap⟩

end Rollout.Graph
