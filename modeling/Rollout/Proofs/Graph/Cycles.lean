import Rollout.Proofs.Graph.Acyclic
import Rollout.Proofs.Graph.Greedy
/-!
Graphs that cannot be sorted. The nodes that are then named are those on cycles, and those on the
way from one cycle to another.
-/

namespace Rollout.Graph

open Relation

/-- One node must come after another one. An edge from a node to itself says nothing. -/
def Awaits (edges : List (Nat × Nat)) (i j : Nat) : Prop := (i, j) ∈ edges ∧ j ≠ i

/-- The node must come after itself, through others. -/
def OnCycle (edges : List (Nat × Nat)) (i : Nat) : Prop := TransGen (Awaits edges) i i

/-- The node is on the way from one cycle to another one, which does not lead back. -/
def BetweenCycles (edges : List (Nat × Nat)) (i : Nat) : Prop :=
  ∃ c d, OnCycle edges c ∧ OnCycle edges d ∧ TransGen (Awaits edges) c i ∧
    TransGen (Awaits edges) i d ∧ ¬ TransGen (Awaits edges) d c

variable {P : Type} {g : Graph P} {i j : Nat}

def Needs (g : Graph P) (i j : Nat) : Prop := j ∈ g.needs i

/-- The graph needs what its edges say. -/
theorem needs_ofEdges_eq {priorities : List P} {edges : List (Nat × Nat)}
    (h : ∀ e ∈ edges, e.1 < priorities.length) :
    (ofEdges priorities edges).Needs = Awaits edges := by
  funext i j
  rw [Needs, Awaits, mem_needs_ofEdges, eq_iff_iff, and_iff_right_iff_imp]
  exact fun hij => h _ hij.1

/-- A cycle needs the node, and the node needs a cycle. -/
def Caught (g : Graph P) (i : Nat) : Prop :=
  (∃ c, TransGen g.Needs c i ∧ TransGen g.Needs c c) ∧
    ∃ d, TransGen g.Needs i d ∧ TransGen g.Needs d d

theorem WellFormed.lt_of_needs (hg : g.WellFormed) (h : g.Needs i j) : i < g.size := by
  by_contra hi
  have hnone : g.dependencies[i]? = none := by
    rw [List.getElem?_eq_none_iff, hg.length]
    exact Nat.le_of_not_lt hi
  rw [Needs, needs, hnone] at h
  cases h

theorem Caught.lt (hg : g.WellFormed) (h : g.Caught i) : i < g.size := by
  obtain ⟨-, d, hid, -⟩ := h
  obtain ⟨j, hij, -⟩ := TransGen.head'_iff.mp hid
  exact hg.lt_of_needs hij

/-- A node that is caught has a dependent that is caught too. -/
theorem Caught.exists_dependent (hg : g.WellFormed) (h : g.Caught i) :
    ∃ d ∈ g.dependents i, g.Caught d := by
  obtain ⟨⟨c, hci, hcycle⟩, d, hid, hcycle'⟩ := h
  obtain ⟨j, hcj, hji⟩ := TransGen.tail'_iff.mp hci
  refine ⟨j, mem_dependents.mpr ⟨hg.lt_of_needs hji, hji⟩, ⟨c, ?_, hcycle⟩, d, ?_, hcycle'⟩
  · -- The last step may begin at the cycle itself, so the cycle is run once before.
    exact TransGen.trans_left hcycle hcj
  · exact TransGen.head hji hid

section Peel

variable {fuel : Nat} {left : List Nat}

theorem peel_sublist (fuel : Nat) (left : List Nat) : (g.peel fuel left).Sublist left := by
  induction fuel generalizing left with
  | zero => exact .refl left
  | succ fuel ih =>
      simp only [peel]
      split
      · exact .refl left
      · exact (ih _).trans List.filter_sublist

/-- Nodes of which each has a dependent among them are never dropped. -/
theorem mem_peel {s : Nat → Prop} (hs : ∀ i, s i → ∃ d ∈ g.dependents i, s d)
    (hleft : ∀ i, s i → i ∈ left) (hi : s i) : i ∈ g.peel fuel left := by
  induction fuel generalizing left with
  | zero => exact hleft i hi
  | succ fuel ih =>
      simp only [peel]
      split
      · exact hleft i hi
      · refine ih fun j hj => List.mem_filter.mpr ⟨hleft j hj, ?_⟩
        obtain ⟨d, hd, hsd⟩ := hs j hj
        exact List.any_eq_true.mpr ⟨d, hd, List.contains_iff_mem.mpr (hleft d hsd)⟩

/-- With fuel for each node, something that is left depends on each node that is left. -/
theorem exists_dependent_of_mem_peel (hfuel : left.length ≤ fuel) (hi : i ∈ g.peel fuel left) :
    ∃ d ∈ g.peel fuel left, d ∈ g.dependents i := by
  induction fuel generalizing left with
  | zero =>
      rw [List.length_eq_zero_iff.mp (Nat.le_zero.mp hfuel)] at hi
      cases hi
  | succ fuel ih =>
      simp only [peel] at hi ⊢
      split at hi
      · next hlength =>
          rw [if_pos hlength]
          have hall := List.length_filter_eq_length_iff.mp hlength i hi
          obtain ⟨d, hd, hleft⟩ := List.any_eq_true.mp hall
          exact ⟨d, List.contains_iff_mem.mp hleft, hd⟩
      · next hlength =>
          rw [if_neg hlength]
          have hle := List.length_filter_le (fun i => (g.dependents i).any left.contains) left
          exact ih (by omega) hi

/-- So each node that is left is reached from a cycle. -/
theorem exists_cycle_of_mem_peel (hfuel : left.length ≤ fuel) (hi : i ∈ g.peel fuel left) :
    ∃ c, TransGen g.Needs c i ∧ TransGen g.Needs c c := by
  have hstep : ∀ j, j ∈ g.peel fuel left → ∃ d, d ∈ g.peel fuel left ∧ g.Needs d j := by
    intro j hj
    obtain ⟨d, hd, hdj⟩ := exists_dependent_of_mem_peel hfuel hj
    exact ⟨d, hd, (mem_dependents.mp hdj).2⟩
  -- The walk to the cycle goes against the edges.
  obtain ⟨c, hic, hcycle⟩ :=
    exists_reached_cycle (r := Function.swap g.Needs) (fun j hj => hj) hstep hi
  exact ⟨c, transGen_swap.mp hic, transGen_swap.mp hcycle⟩

end Peel

/-- What a placed node needs through others is placed before it. -/
theorem Layered.idxOf_lt_of_transGen {placed : List Nat} (h : g.Layered placed)
    (hnodup : placed.Nodup) (hi : i ∈ placed) (hij : TransGen g.Needs i j) :
    j ∈ placed ∧ placed.reverse.idxOf j < placed.reverse.idxOf i := by
  induction hij with
  | single hj => exact ⟨h.mem_of_needs hi hj, h.idxOf_lt hnodup hi hj⟩
  | tail _ hk ih =>
      obtain ⟨hj, hlt⟩ := ih
      exact ⟨h.mem_of_needs hj hk, Nat.lt_trans (h.idxOf_lt hnodup hj hk) hlt⟩

/-- No node is ready any more, and the given ones are left. -/
structure Stuck (g : Graph P) (s : Placing) (left : List Nat) : Prop where
  sound : s.Sound g
  ready : s.ready = []
  ascending : left.Pairwise (· < ·)
  length_le : left.length ≤ g.size
  mem_iff : ∀ i, i ∈ left ↔ i < g.size ∧ i ∉ s.placed

/-- A node that waits for none but placed ones is placed, when no node is ready any more. -/
theorem Placing.Sound.mem_placed_of_ready_eq_nil {s : Placing} (h : s.Sound g)
    (hready : s.ready = []) (hi : i < g.size) (hall : ∀ j ∈ g.needs i, j ∈ s.placed) :
    i ∈ s.placed := by
  by_contra hopen
  have hmem := (h.ready i).mpr ⟨hi, hopen, hall⟩
  rw [hready] at hmem
  cases hmem

/-- The counters tell then which nodes are left. -/
theorem Placing.Sound.stuck {s : Placing} (h : s.Sound g) (hready : s.ready = []) :
    g.Stuck s ((List.range g.size).filter fun i => s.waiting[i]?.getD 0 ≠ 0) where
  sound := h
  ready := hready
  ascending := List.pairwise_lt_range.sublist List.filter_sublist
  length_le := (List.length_filter_le _ _).trans_eq List.length_range
  mem_iff i := by
    rw [List.mem_filter, List.mem_range, decide_eq_true_iff]
    refine and_congr_right fun hi => not_congr ?_
    rw [h.waiting i hi, Option.getD_some, countP_not_mem_eq_zero]
    constructor
    · exact h.mem_placed_of_ready_eq_nil hready hi
    · intro hplaced j hj
      exact h.layered.mem_of_needs hplaced hj

namespace Stuck

variable {s : Placing} {left : List Nat} (h : g.Stuck s left)

include h

/-- A node from which a cycle is reached is left. -/
theorem mem_of_caught (hg : g.WellFormed) (hi : g.Caught i) : i ∈ left := by
  refine (h.mem_iff i).mpr ⟨hi.lt hg, fun hplaced => ?_⟩
  obtain ⟨-, d, hid, hcycle⟩ := hi
  have hd := (h.sound.layered.idxOf_lt_of_transGen h.sound.nodup hplaced hid).1
  exact Nat.lt_irrefl _ (h.sound.layered.idxOf_lt_of_transGen h.sound.nodup hd hcycle).2

/-- Each node that is left needs one that is left, so a cycle is reached from it. -/
theorem exists_cycle (hg : g.WellFormed) (hi : i ∈ left) :
    ∃ d, TransGen g.Needs i d ∧ TransGen g.Needs d d := by
  refine exists_reached_cycle (fun j hj => hj) (fun j hj => ?_) hi
  obtain ⟨hlt, hopen⟩ := (h.mem_iff j).mp hj
  by_contra hnone
  refine hopen (h.sound.mem_placed_of_ready_eq_nil h.ready hlt fun k hk => ?_)
  by_contra hk'
  exact hnone ⟨k, (h.mem_iff k).mpr ⟨hg.lt j k hk, hk'⟩, hk⟩

/-- What is left after peeling are the nodes that are caught. -/
theorem mem_peel_iff (hg : g.WellFormed) : i ∈ g.peel g.size left ↔ g.Caught i := by
  constructor
  · intro hi
    refine ⟨exists_cycle_of_mem_peel h.length_le hi, ?_⟩
    exact h.exists_cycle hg ((peel_sublist _ _).subset hi)
  · intro hi
    exact mem_peel (fun j hj => hj.exists_dependent hg) (fun j hj => h.mem_of_caught hg hj) hi

end Stuck

variable [Ord P] {members : List Nat}

/-- Sorting fails when it is stuck, and names what is left after peeling. -/
theorem exists_stuck_of_sort (hg : g.WellFormed) (h : g.sort = .error members) :
    ∃ s left, g.Stuck s left ∧ members = g.peel g.size left := by
  rw [sort] at h
  split at h
  · cases h
  · next hlength =>
      have hready := (ready_or_length_run g.size g.start).resolve_right fun hall =>
        hlength (hall.trans (Nat.zero_add _))
      exact ⟨_, _, ((sound_start hg).run hg g.size).stuck hready, (Except.error.inj h).symm⟩

/-- Nodes can be sorted exactly if none must come after itself. -/
theorem exists_sort_iff_forall_not_needs (hg : g.WellFormed) :
    (∃ order, g.sort = .ok order) ↔ ∀ i, ¬ TransGen g.Needs i i := by
  have hmem : ∀ i j, g.Needs i j → i ∈ List.range g.size := fun i j hij =>
    List.mem_range.mpr (hg.lt_of_needs hij)
  rw [exists_sort_iff hg]
  refine Iff.trans (exists_congr fun rank => ?_) (exists_rank_iff_acyclic hmem)
  constructor
  · intro hrank i j hij
    exact hrank i (hg.lt_of_needs hij) j hij
  · intro hrank i _ j hj
    exact hrank i j hj

/-- Where sorting fails, there is a cycle. -/
theorem exists_cycle_of_sort (hg : g.WellFormed) (h : g.sort = .error members) :
    ∃ c, TransGen g.Needs c c := by
  by_contra hnone
  obtain ⟨order, horder⟩ := (exists_sort_iff_forall_not_needs hg).mpr (not_exists.mp hnone)
  cases h.symm.trans horder

/-- Where sorting fails, it names the nodes on cycles and those on the way from one cycle to
another. No other node is named, whether it needs a cycle or a cycle needs it. -/
theorem members_of_sort {priorities : List P} {edges : List (Nat × Nat)}
    (hedges : ∀ e ∈ edges, e.1 < priorities.length ∧ e.2 < priorities.length)
    (h : (ofEdges priorities edges).sort = .error members) :
    members.Pairwise (· < ·) ∧ members ≠ [] ∧
      (∀ i, i ∈ members ↔ OnCycle edges i ∨ BetweenCycles edges i) ∧
      ∀ i, ¬ OnCycle edges i → ((∀ c, OnCycle edges c → ¬ TransGen (Awaits edges) c i) ∨
        ∀ d, OnCycle edges d → ¬ TransGen (Awaits edges) i d) → i ∉ members := by
  have hg := wellFormed_ofEdges priorities fun e he => (hedges e he).2
  have hneeds := needs_ofEdges_eq fun e he => (hedges e he).1
  obtain ⟨s, left, hstuck, rfl⟩ := exists_stuck_of_sort hg h
  have hmem {i : Nat} := hstuck.mem_peel_iff hg (i := i)
  simp only [Caught, hneeds] at hmem
  refine ⟨hstuck.ascending.sublist (peel_sublist _ _), ?_, fun i => ?_, fun i hi hapart => ?_⟩
  · obtain ⟨c, hcycle⟩ := exists_cycle_of_sort hg h
    rw [hneeds] at hcycle
    exact List.ne_nil_of_mem (hmem.mpr ⟨⟨c, hcycle, hcycle⟩, c, hcycle, hcycle⟩)
  · rw [hmem]
    constructor
    · rintro ⟨⟨c, hci, hc⟩, d, hid, hd⟩
      by_cases hi : OnCycle edges i
      · exact .inl hi
      · exact .inr ⟨c, d, hc, hd, hci, hid, fun hdc => hi (hid.trans (hdc.trans hci))⟩
    · rintro (hi | ⟨c, d, hc, hd, hci, hid, -⟩)
      · exact ⟨⟨i, hi, hi⟩, i, hi, hi⟩
      · exact ⟨⟨c, hci, hc⟩, d, hid, hd⟩
  · rw [hmem]
    rintro ⟨⟨c, hci, hc⟩, d, hid, hd⟩
    rcases hapart with hapart | hapart
    · exact hapart c hc hci
    · exact hapart d hd hid

/-- Two cycles with a node between them, one behind both and one before both. -/
def linkedCycles : List (Nat × Nat) :=
  [(0, 1), (1, 0), (2, 0), (3, 2), (3, 4), (4, 3), (5, 4), (0, 6), (6, 6)]

theorem members_linkedCycles :
    (∀ e ∈ linkedCycles, e.1 < 7 ∧ e.2 < 7) ∧
      (ofEdges [3, 1, 4, 1, 5, 9, 2] linkedCycles).sort = .error [0, 1, 2, 3, 4] ∧
      ∀ i, i ∈ [0, 1, 2, 3, 4] ↔ OnCycle linkedCycles i ∨ BetweenCycles linkedCycles i := by
  have hsort : (ofEdges [3, 1, 4, 1, 5, 9, 2] linkedCycles).sort = .error [0, 1, 2, 3, 4] := by
    decide
  exact ⟨by decide, hsort, (members_of_sort (by decide) hsort).2.2.1⟩

end Rollout.Graph
