import Mathlib.Data.List.Nodup
import Mathlib.Data.List.Perm.Subperm
import Mathlib.Tactic.ByContra
import Rollout.Graph
/-!
Orders of graphs. The order that sorting gives has every node once, each after those that it
must come after.
-/

namespace Rollout.Graph

theorem mem_insertIndex {i j : Nat} {js : List Nat} :
    i ∈ insertIndex j js ↔ i = j ∨ i ∈ js := by
  induction js with
  | nil => exact List.mem_cons
  | cons k js ih =>
      rw [insertIndex]
      split
      · exact List.mem_cons
      · split
        · next hjk => simp [hjk]
        · rw [List.mem_cons, ih, List.mem_cons]
          exact or_left_comm

theorem pairwise_insertIndex {j : Nat} {js : List Nat} (h : js.Pairwise (· < ·)) :
    (insertIndex j js).Pairwise (· < ·) := by
  induction js with
  | nil => exact List.pairwise_singleton _ j
  | cons k js ih =>
      obtain ⟨hk, hjs⟩ := List.pairwise_cons.mp h
      rw [insertIndex]
      split
      · next hlt =>
          refine List.pairwise_cons.mpr ⟨fun i hi => ?_, h⟩
          rcases List.mem_cons.mp hi with rfl | hi
          · exact hlt
          · exact Nat.lt_trans hlt (hk i hi)
      · split
        · exact h
        · refine List.pairwise_cons.mpr ⟨fun i hi => ?_, ih hjs⟩
          rcases mem_insertIndex.mp hi with rfl | hi
          · omega
          · exact hk i hi

theorem foldl_insertIndex (es : List (Nat × Nat)) {js : List Nat} (h : js.Pairwise (· < ·)) :
    (es.foldl (fun ds e => insertIndex e.2 ds) js).Pairwise (· < ·) ∧
      ∀ i, i ∈ es.foldl (fun ds e => insertIndex e.2 ds) js ↔ i ∈ js ∨ ∃ e ∈ es, e.2 = i := by
  induction es generalizing js with
  | nil => exact ⟨h, fun i => by simp⟩
  | cons e es ih =>
      obtain ⟨hpairwise, hmem⟩ := ih (pairwise_insertIndex (j := e.2) h)
      refine ⟨hpairwise, fun i => ?_⟩
      rw [List.foldl_cons, hmem, mem_insertIndex, List.exists_mem_cons_iff, or_assoc, or_left_comm]
      simp [eq_comm]

theorem mem_dependenciesOf {edges : List (Nat × Nat)} {i j : Nat} :
    j ∈ dependenciesOf edges i ↔ (i, j) ∈ edges ∧ j ≠ i := by
  rw [dependenciesOf, (foldl_insertIndex _ List.Pairwise.nil).2]
  constructor
  · rintro (hj | ⟨⟨k, l⟩, he, rfl⟩)
    · cases hj
    · obtain ⟨hedge, hkl⟩ := List.mem_filter.mp he
      obtain ⟨hk, hne⟩ := of_decide_eq_true hkl
      exact ⟨hk ▸ hedge, hne⟩
  · rintro ⟨he, hne⟩
    exact .inr ⟨_, List.mem_filter.mpr ⟨he, decide_eq_true ⟨rfl, hne⟩⟩, rfl⟩

theorem nodup_dependenciesOf (edges : List (Nat × Nat)) (i : Nat) :
    (dependenciesOf edges i).Nodup :=
  (foldl_insertIndex _ List.Pairwise.nil).1.imp Nat.ne_of_lt

variable {P : Type}

/-- Every node has its dependencies, which are nodes too, and none is given twice. -/
structure WellFormed (g : Graph P) : Prop where
  length : g.dependencies.length = g.size
  nodup : ∀ i, (g.needs i).Nodup
  lt : ∀ i, ∀ j ∈ g.needs i, j < g.size

theorem needs_ofEdges (priorities : List P) (edges : List (Nat × Nat)) (i : Nat) :
    (ofEdges priorities edges).needs i =
      if i < priorities.length then dependenciesOf edges i else [] := by
  rw [needs, ofEdges, List.getElem?_map]
  split
  · next hi => rw [List.getElem?_range hi, Option.map_some, Option.getD_some]
  · next hi =>
      rw [List.getElem?_eq_none (by rw [List.length_range]; omega)]
      rfl

theorem mem_needs_ofEdges {priorities : List P} {edges : List (Nat × Nat)} {i j : Nat} :
    j ∈ (ofEdges priorities edges).needs i ↔
      i < priorities.length ∧ (i, j) ∈ edges ∧ j ≠ i := by
  rw [needs_ofEdges]
  split
  · next hi => rw [mem_dependenciesOf, and_iff_right hi]
  · next hi => simp [hi]

theorem wellFormed_ofEdges (priorities : List P) {edges : List (Nat × Nat)}
    (h : ∀ e ∈ edges, e.2 < priorities.length) : (ofEdges priorities edges).WellFormed where
  length := by simp [ofEdges, size]
  nodup i := by
    rw [needs_ofEdges]
    split
    · exact nodup_dependenciesOf edges i
    · exact List.nodup_nil
  lt i j hj := h _ (mem_needs_ofEdges.mp hj).2.1

theorem mem_dependents {g : Graph P} {i j : Nat} :
    i ∈ g.dependents j ↔ i < g.size ∧ j ∈ g.needs i := by
  rw [dependents, List.mem_filter, List.mem_range, List.contains_iff_mem]

/-- An order of all nodes, each after those that it must come after. -/
structure Sorts (g : Graph P) (order : List Nat) : Prop where
  perm : order.Perm (List.range g.size)
  after : ∀ i < g.size, ∀ j ∈ g.needs i, order.idxOf j < order.idxOf i

/-- What a node must come after stands before it. -/
theorem Sorts.mem_of_needs {g : Graph P} {pre post : List Nat} {i j : Nat}
    (h : g.Sorts (pre ++ i :: post)) (hj : j ∈ g.needs i) : j ∈ pre := by
  have hi : i < g.size := by
    rw [← List.mem_range, ← h.perm.mem_iff]
    exact List.mem_append_right _ List.mem_cons_self
  have hnodup : (pre ++ i :: post).Nodup := h.perm.nodup_iff.mpr List.nodup_range
  have hlt := h.after i hi j hj
  by_contra hpre
  have hnot : i ∉ pre := fun hmem =>
    (List.nodup_append.mp hnodup).2.2 i hmem i List.mem_cons_self rfl
  rw [List.idxOf_append_of_notMem hpre, List.idxOf_append_of_notMem hnot,
    List.idxOf_cons_self] at hlt
  omega

/-- Nodes placed last first, each after those that it must come after. -/
def Layered (g : Graph P) : List Nat → Prop
  | [] => True
  | i :: placed => (∀ j ∈ g.needs i, j ∈ placed) ∧ g.Layered placed

variable {g : Graph P} {i j : Nat} {placed : List Nat}

theorem Layered.mem_of_needs (h : g.Layered placed) (hi : i ∈ placed) (hj : j ∈ g.needs i) :
    j ∈ placed := by
  induction placed with
  | nil => cases hi
  | cons k placed ih =>
      rcases List.mem_cons.mp hi with rfl | hi
      · exact List.mem_cons_of_mem _ (h.1 j hj)
      · exact List.mem_cons_of_mem _ (ih h.2 hi)

theorem Layered.idxOf_lt (h : g.Layered placed) (hnodup : placed.Nodup) (hi : i ∈ placed)
    (hj : j ∈ g.needs i) : placed.reverse.idxOf j < placed.reverse.idxOf i := by
  induction placed with
  | nil => cases hi
  | cons k placed ih =>
      obtain ⟨hk, hnodup⟩ := List.nodup_cons.mp hnodup
      rw [List.reverse_cons]
      rcases List.mem_cons.mp hi with rfl | hi
      · have hj := List.mem_reverse.mpr (h.1 j hj)
        rw [List.idxOf_append_of_mem hj,
          List.idxOf_append_of_notMem (fun hm => hk (List.mem_reverse.mp hm))]
        exact Nat.lt_of_lt_of_le (List.idxOf_lt_length_of_mem hj) (Nat.le_add_right ..)
      · have hjm := List.mem_reverse.mpr (h.2.mem_of_needs hi hj)
        rw [List.idxOf_append_of_mem hjm, List.idxOf_append_of_mem (List.mem_reverse.mpr hi)]
        exact ih h.2 hnodup hi

/-- What holds while nodes are placed. -/
structure Placing.Sound (g : Graph P) (s : Placing) : Prop where
  nodup : s.placed.Nodup
  lt : ∀ i ∈ s.placed, i < g.size
  layered : g.Layered s.placed
  waiting : ∀ i < g.size, s.waiting[i]? = some ((g.needs i).countP (· ∉ s.placed))
  readyNodup : s.ready.Nodup
  ready : ∀ i, i ∈ s.ready ↔ i < g.size ∧ i ∉ s.placed ∧ ∀ j ∈ g.needs i, j ∈ s.placed

theorem countP_not_mem_eq_zero {l : List Nat} :
    l.countP (· ∉ placed) = 0 ↔ ∀ j ∈ l, j ∈ placed := by
  rw [List.countP_eq_zero]
  refine forall₂_congr fun j _ => ?_
  rw [decide_eq_true_iff, Decidable.not_not]

/-- Placing a node leaves one less to wait for, where it is waited for. -/
theorem countP_not_mem_cons {l : List Nat} (hl : l.Nodup) (hi : i ∉ placed) :
    l.countP (· ∉ placed) = l.countP (· ∉ i :: placed) + if i ∈ l then 1 else 0 := by
  induction l with
  | nil => rfl
  | cons k l ih =>
      obtain ⟨hk, hl⟩ := List.nodup_cons.mp hl
      rw [List.countP_cons, List.countP_cons, ih hl]
      by_cases hik : k = i
      · subst hik
        simp [hk, hi]
      · have hplaced : decide (k ∉ i :: placed) = decide (k ∉ placed) := by simp [hik]
        have hmem : i ∈ k :: l ↔ i ∈ l := by simp [Ne.symm hik]
        rw [hplaced, if_congr hmem rfl rfl]
        omega

theorem placed_place [Ord P] (g : Graph P) (s : Placing) (node : Nat) :
    (g.place s node).placed = node :: s.placed := rfl

theorem getElem?_waiting_place [Ord P] (g : Graph P) (s : Placing) (node i : Nat) :
    (g.place s node).waiting[i]? =
      s.waiting[i]?.map fun n => if i ∈ g.dependents node then n - 1 else n := by
  rw [place, List.getElem?_map, List.getElem?_zipIdx]
  cases s.waiting[i]? with
  | none => rfl
  | some n => simp

namespace Placing.Sound

variable {s : Placing} {node : Nat} (h : s.Sound g) (hnode : node ∈ s.ready)

include h hnode

/-- A node that must come after one that is ready waits. -/
theorem not_mem_ready_of_needs (hi : node ∈ g.needs i) : i ∉ s.ready ∧ i ∉ s.placed := by
  obtain ⟨-, hplaced, -⟩ := (h.ready node).mp hnode
  constructor
  · intro hready
    exact hplaced (((h.ready i).mp hready).2.2 node hi)
  · intro hdone
    exact hplaced (h.layered.mem_of_needs hdone hi)

theorem ne_of_needs (hi : node ∈ g.needs i) : i ≠ node := by
  rintro rfl
  exact (h.not_mem_ready_of_needs hnode hi).1 hnode

variable [Ord P]

theorem waiting_place (hg : g.WellFormed) (hi : i < g.size) :
    (g.place s node).waiting[i]? = some ((g.needs i).countP (· ∉ node :: s.placed)) := by
  obtain ⟨-, hplaced, -⟩ := (h.ready node).mp hnode
  -- The node is not among those that are placed, so it counts at most once.
  have hcount := countP_not_mem_cons (hg.nodup i) hplaced
  rw [getElem?_waiting_place, h.waiting i hi, Option.map_some, hcount]
  by_cases hneeds : node ∈ g.needs i
  · rw [if_pos hneeds, if_pos (mem_dependents.mpr ⟨hi, hneeds⟩), Nat.add_sub_cancel]
  · rw [if_neg hneeds, if_neg fun hm => hneeds (mem_dependents.mp hm).2, Nat.add_zero]

theorem mem_ready_place (hg : g.WellFormed) :
    i ∈ (g.place s node).ready ↔
      i ∈ s.ready ∧ i ≠ node ∨
        i < g.size ∧ node ∈ g.needs i ∧ ∀ j ∈ g.needs i, j ∈ node :: s.placed := by
  have hready : (g.place s node).ready = s.ready.erase node ++
    (g.dependents node).filter fun i => (g.place s node).waiting[i]?.getD 0 = 0 := rfl
  rw [hready, List.mem_append, h.readyNodup.mem_erase_iff, and_comm, List.mem_filter,
    mem_dependents, and_assoc]
  refine or_congr_right (and_congr_right fun hi => and_congr_right fun _ => ?_)
  rw [h.waiting_place hnode hg hi, Option.getD_some, decide_eq_true_iff, countP_not_mem_eq_zero]

/-- Placing a node that is ready keeps all that holds. -/
theorem place (hg : g.WellFormed) : (g.place s node).Sound g := by
  obtain ⟨hlt, hplaced, hneeds⟩ := (h.ready node).mp hnode
  refine ⟨List.nodup_cons.mpr ⟨hplaced, h.nodup⟩, ?_, ⟨hneeds, h.layered⟩,
    fun i hi => h.waiting_place hnode hg hi, ?_, ?_⟩
  · intro i hi
    rcases List.mem_cons.mp hi with rfl | hi
    · exact hlt
    · exact h.lt i hi
  · refine List.nodup_append.mpr ⟨h.readyNodup.erase node, ?_, ?_⟩
    · exact (List.nodup_range.filter _).filter _
    · rintro i hi j hj rfl
      have hneeds := (mem_dependents.mp (List.mem_filter.mp hj).1).2
      exact (h.not_mem_ready_of_needs hnode hneeds).1 (List.mem_of_mem_erase hi)
  · intro i
    rw [h.mem_ready_place hnode hg, placed_place]
    constructor
    · rintro (⟨hi, hne⟩ | ⟨hi, hwaits, hall⟩)
      · obtain ⟨hlt, hopen, hdone⟩ := (h.ready i).mp hi
        refine ⟨hlt, ?_, fun j hj => List.mem_cons_of_mem _ (hdone j hj)⟩
        rw [List.mem_cons, not_or]
        exact ⟨hne, hopen⟩
      · refine ⟨hi, ?_, hall⟩
        rw [List.mem_cons, not_or]
        exact ⟨h.ne_of_needs hnode hwaits, (h.not_mem_ready_of_needs hnode hwaits).2⟩
    · rintro ⟨hi, hopen, hall⟩
      rw [List.mem_cons, not_or] at hopen
      by_cases hwaits : node ∈ g.needs i
      · exact .inr ⟨hi, hwaits, hall⟩
      · refine .inl ⟨(h.ready i).mpr ⟨hi, hopen.2, fun j hj => ?_⟩, hopen.1⟩
        refine (List.mem_cons.mp (hall j hj)).resolve_left ?_
        rintro rfl
        exact hwaits hj

end Placing.Sound

theorem waiting_start (hg : g.WellFormed) (hi : i < g.size) :
    g.start.waiting[i]? = some ((g.needs i).countP (· ∉ [])) := by
  have hdependencies : i < g.dependencies.length := hg.length.symm ▸ hi
  rw [start, List.getElem?_map, needs, List.getElem?_eq_getElem hdependencies]
  simp

theorem sound_start (hg : g.WellFormed) : g.start.Sound g where
  nodup := List.nodup_nil
  lt := nofun
  layered := trivial
  waiting i hi := waiting_start hg hi
  readyNodup := List.nodup_range.filter _
  ready i := by
    have hready : g.start.ready =
      (List.range g.size).filter fun i => g.start.waiting[i]?.getD 0 = 0 := rfl
    rw [hready, List.mem_filter, List.mem_range]
    refine and_congr_right fun hi => ?_
    rw [waiting_start hg hi, Option.getD_some, decide_eq_true_iff, countP_not_mem_eq_zero]
    exact (and_iff_right List.not_mem_nil).symm

variable [Ord P]

theorem mem_of_first {is : List Nat} (h : g.first is = some i) : i ∈ is := by
  induction is with
  | nil => cases h
  | cons k is ih =>
      rw [first] at h
      split at h
      · cases h
        exact List.mem_cons_self
      · next j hj =>
          split at h
          · exact List.mem_cons_of_mem _ (ih (hj.trans h))
          · cases h
            exact List.mem_cons_self

/-- What holds at first holds when no more nodes are ready. -/
theorem Placing.Sound.run (hg : g.WellFormed) {s : Placing} (h : s.Sound g) (fuel : Nat) :
    (g.run fuel s).Sound g := by
  induction fuel generalizing s with
  | zero => exact h
  | succ fuel ih =>
      rw [Graph.run]
      split
      · exact h
      · next node hnode => exact ih (h.place (mem_of_first hnode) hg)

/-- Sorting gives an order of all nodes, each after those that it must come after. -/
theorem sorts_of_sort (hg : g.WellFormed) {order : List Nat} (h : g.sort = .ok order) :
    g.Sorts order := by
  have hsound := (sound_start hg).run hg g.size
  rw [sort] at h
  split at h
  · next hlength =>
      cases h
      have hsubset : (g.run g.size g.start).placed ⊆ List.range g.size :=
        fun i hi => List.mem_range.mpr (hsound.lt i hi)
      have hperm : (g.run g.size g.start).placed.Perm (List.range g.size) := by
        refine (List.subperm_of_subset hsound.nodup hsubset).perm_of_length_le ?_
        exact Nat.le_of_eq (List.length_range.trans hlength.symm)
      refine ⟨(List.reverse_perm _).trans hperm, fun i hi j hj => ?_⟩
      exact hsound.layered.idxOf_lt hsound.nodup (hperm.mem_iff.mpr (List.mem_range.mpr hi)) hj
  · cases h

end Rollout.Graph
