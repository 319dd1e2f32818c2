import Mathlib.Order.Basic
import Rollout.Proofs.Graph.Sorting
/-!
There is one order in which the least of the nodes that are ready always comes next, and sorting
gives it. So an order depends on the nodes, their priorities and what they need, and not on how
the nodes are numbered.
-/

namespace Rollout

section Greedy

variable {α β : Type} {needs : α → α → Prop} {lt : α → α → Prop}

/-- Each item needs nothing that comes later, and is less than the later ones that could have come
in its place. -/
def Greedy (needs lt : α → α → Prop) : List α → Prop
  | [] => True
  | a :: rest => (∀ b ∈ rest, ¬ needs a b) ∧
      (∀ b ∈ rest, (∀ c ∈ a :: rest, ¬ needs b c) → lt a b) ∧ Greedy needs lt rest

/-- Items have one greedy order. -/
theorem Greedy.eq_of_perm (hneeds : ∀ a, ¬ needs a a) (hlt : ∀ a b, lt a b → ¬ lt b a)
    {as bs : List α} (ha : Greedy needs lt as) (hb : Greedy needs lt bs) (h : as.Perm bs) :
    as = bs := by
  induction as generalizing bs with
  | nil => exact h.nil_eq
  | cons a as ih =>
      cases bs with
      | nil => exact h.eq_nil
      | cons b bs =>
          by_cases hab : a = b
          · subst hab
            rw [ih ha.2.2 hb.2.2 h.cons_inv]
          · exfalso
            -- Each of the two could have come in place of the other.
            have hready {a : α} {as : List α} (ha : Greedy needs lt (a :: as)) :
                ∀ c ∈ a :: as, ¬ needs a c :=
              List.forall_mem_cons.mpr ⟨hneeds a, ha.1⟩
            have hmem : b ∈ as :=
              (List.mem_cons.mp (h.mem_iff.mpr List.mem_cons_self)).resolve_left (Ne.symm hab)
            have hmem' : a ∈ bs :=
              (List.mem_cons.mp (h.mem_iff.mp List.mem_cons_self)).resolve_left hab
            refine hlt a b (ha.2.1 b hmem fun c hc => hready hb c (h.mem_iff.mp hc)) ?_
            exact hb.2.1 a hmem' fun c hc => hready ha c (h.mem_iff.mpr hc)

/-- A greedy order is the least of the orders in which no item needs a later one. -/
theorem Greedy.eq_or_lex (hneeds : ∀ a, ¬ needs a a) {as bs : List α} (ha : Greedy needs lt as)
    (hb : bs.Pairwise fun b c => ¬ needs b c) (h : bs.Perm as) :
    bs = as ∨ List.Lex lt as bs := by
  induction as generalizing bs with
  | nil => exact .inl h.eq_nil
  | cons a as ih =>
      cases bs with
      | nil => exact .inl h.nil_eq
      | cons b bs =>
          obtain ⟨hfirst, hb⟩ := List.pairwise_cons.mp hb
          by_cases hab : b = a
          · subst hab
            rcases ih ha.2.2 hb h.cons_inv with heq | hlex
            · exact .inl (congrArg _ heq)
            · exact .inr (.cons hlex)
          · -- What comes first in the other order was ready, and was not taken.
            have hmem := (List.mem_cons.mp (h.mem_iff.mp List.mem_cons_self)).resolve_left hab
            refine .inr (.rel (ha.2.1 b hmem fun c hc => ?_))
            rcases List.mem_cons.mp (h.mem_iff.mpr hc) with rfl | hc
            · exact hneeds c
            · exact hfirst c hc

/-- A greedy order of numbers is one of what is numbered. -/
theorem Greedy.filterMap {needs' lt' : β → β → Prop} {f : α → Option β} {as : List α}
    (hf : ∀ a ∈ as, (f a).isSome)
    (hneeds : ∀ a ∈ as, ∀ b ∈ as, ∀ x ∈ f a, ∀ y ∈ f b, needs' x y ↔ needs a b)
    (hlt : ∀ a ∈ as, ∀ b ∈ as, ∀ x ∈ f a, ∀ y ∈ f b, lt a b → lt' x y)
    (h : Greedy needs lt as) : Greedy needs' lt' (as.filterMap f) := by
  induction as with
  | nil => trivial
  | cons a as ih =>
      obtain ⟨x, hx⟩ := Option.isSome_iff_exists.mp (hf a List.mem_cons_self)
      have hrest := ih (fun b hb => hf b (List.mem_cons_of_mem a hb))
        (fun b hb c hc => hneeds b (List.mem_cons_of_mem a hb) c (List.mem_cons_of_mem a hc))
        (fun b hb c hc => hlt b (List.mem_cons_of_mem a hb) c (List.mem_cons_of_mem a hc)) h.2.2
      rw [List.filterMap_cons_some hx]
      refine ⟨fun y hy hxy => ?_, fun y hy hready => ?_, hrest⟩
      · obtain ⟨b, hb, hby⟩ := List.mem_filterMap.mp hy
        have hab := hneeds a List.mem_cons_self b (List.mem_cons_of_mem a hb) x hx y hby
        exact h.1 b hb (hab.mp hxy)
      · obtain ⟨b, hb, hby⟩ := List.mem_filterMap.mp hy
        refine hlt a List.mem_cons_self b (List.mem_cons_of_mem a hb) x hx y hby
          (h.2.1 b hb fun c hc hbc => ?_)
        obtain ⟨z, hz⟩ := Option.isSome_iff_exists.mp (hf c hc)
        refine hready z ?_ ((hneeds b (List.mem_cons_of_mem a hb) c hc y hby z hz).mpr hbc)
        rw [← List.filterMap_cons_some hx]
        exact List.mem_filterMap.mpr ⟨c, hc, hz⟩

end Greedy

namespace Graph

variable {P : Type} [Ord P] [Std.TransOrd P] {g : Graph P} {i j k : Nat}

omit [Ord P] [Std.TransOrd P] in
theorem exists_priority (hi : i < g.size) : ∃ p, g.priorities[i]? = some p :=
  ⟨_, List.getElem?_eq_getElem hi⟩

omit [Std.TransOrd P] in
theorem precedes_iff {p q : P} (hi : g.priorities[i]? = some p) (hj : g.priorities[j]? = some q) :
    g.precedes i j = true ↔ compare p q = .lt ∨ compare p q = .eq ∧ i < j := by
  rw [precedes, hi, hj]
  dsimp only
  cases compare p q <;> simp

theorem precedes_trans (hi : i < g.size) (hj : j < g.size) (hk : k < g.size)
    (hij : g.precedes i j) (hjk : g.precedes j k) : g.precedes i k := by
  obtain ⟨p, hp⟩ := exists_priority hi
  obtain ⟨q, hq⟩ := exists_priority hj
  obtain ⟨r, hr⟩ := exists_priority hk
  rw [precedes_iff hp hq] at hij
  rw [precedes_iff hq hr] at hjk
  rw [precedes_iff hp hr]
  rcases hij with hij | ⟨hij, hlt⟩ <;> rcases hjk with hjk | ⟨hjk, hlt'⟩
  · exact .inl (Std.TransCmp.lt_trans hij hjk)
  · exact .inl (Std.TransCmp.lt_of_lt_of_eq hij hjk)
  · exact .inl (Std.TransCmp.lt_of_eq_of_lt hij hjk)
  · exact .inr ⟨Std.TransCmp.eq_trans hij hjk, Nat.lt_trans hlt hlt'⟩

theorem precedes_or_precedes (hi : i < g.size) (hj : j < g.size) (h : i ≠ j) :
    g.precedes i j ∨ g.precedes j i := by
  obtain ⟨p, hp⟩ := exists_priority hi
  obtain ⟨q, hq⟩ := exists_priority hj
  have hswap : compare q p = (compare p q).swap := Std.OrientedCmp.eq_swap
  rw [precedes_iff hp hq, precedes_iff hq hp, hswap]
  cases compare p q
  · exact .inl (.inl rfl)
  · rcases Nat.lt_or_gt_of_ne h with hlt | hlt
    · exact .inl (.inr ⟨rfl, hlt⟩)
    · exact .inr (.inr ⟨rfl, hlt⟩)
  · exact .inr (.inl rfl)

omit [Std.TransOrd P] in
theorem first_eq_none_iff {is : List Nat} : g.first is = none ↔ is = [] := by
  cases is with
  | nil => exact ⟨fun _ => rfl, fun _ => rfl⟩
  | cons i is =>
      rw [first]
      split
      · simp
      · split <;> simp

/-- The first of some nodes precedes all others of them. -/
theorem precedes_of_first {is : List Nat} (his : ∀ j ∈ is, j < g.size) (h : g.first is = some i) :
    ∀ j ∈ is, j ≠ i → g.precedes i j := by
  induction is generalizing i with
  | nil => cases h
  | cons k is ih =>
      obtain ⟨hk, his⟩ := List.forall_mem_cons.mp his
      rw [first] at h
      split at h
      · next hnone =>
          cases h
          rw [first_eq_none_iff.mp hnone]
          intro j hj hne
          exact absurd (List.mem_singleton.mp hj) hne
      · next m hm =>
          have hfirst := ih his hm
          have hmem := his m (mem_of_first hm)
          split at h
          · next hmk =>
              cases h
              intro j hj hne
              rcases List.mem_cons.mp hj with rfl | hj
              · exact hmk
              · exact hfirst j hj hne
          · next hmk =>
              cases h
              intro j hj hne
              have hj := (List.mem_cons.mp hj).resolve_left hne
              by_cases hjm : j = m
              · subst hjm
                exact (precedes_or_precedes hk hmem (Ne.symm hne)).resolve_right hmk
              · have hmj := hfirst j hj hjm
                by_cases hkm : k = m
                · exact hkm ▸ hmj
                · have hkm := (precedes_or_precedes hk hmem hkm).resolve_right hmk
                  exact precedes_trans hk hmem (his j hj) hkm hmj

omit [Std.TransOrd P] in
/-- Nodes placed last first, each preceding all others that were ready. -/
def Chosen (g : Graph P) : List Nat → Prop
  | [] => True
  | i :: placed => (∀ j < g.size, j ∉ placed → (∀ k ∈ g.needs j, k ∈ placed) → j ≠ i →
      g.precedes i j) ∧ g.Chosen placed

theorem chosen_place {s : Placing} (h : s.Sound g) (hs : g.Chosen s.placed) {node : Nat}
    (hnode : g.first s.ready = some node) : g.Chosen (g.place s node).placed := by
  refine ⟨fun j hj hopen hneeds hne => ?_, hs⟩
  have hready : ∀ j ∈ s.ready, j < g.size := fun j hj => ((h.ready j).mp hj).1
  exact precedes_of_first hready hnode j ((h.ready j).mpr ⟨hj, hopen, hneeds⟩) hne

theorem chosen_run (hg : g.WellFormed) {s : Placing} (h : s.Sound g) (hs : g.Chosen s.placed)
    (fuel : Nat) : g.Chosen (g.run fuel s).placed := by
  induction fuel generalizing s with
  | zero => exact hs
  | succ fuel ih =>
      rw [Graph.run]
      split
      · exact hs
      · next node hnode => exact ih (h.place (mem_of_first hnode) hg) (chosen_place h hs hnode)

omit [Std.TransOrd P] in
/-- Chosen nodes in the order in which they were placed, followed by a greedy order. -/
theorem greedy_reverse_append (hg : g.WellFormed) {placed rest : List Nat}
    (hperm : (placed.reverse ++ rest).Perm (List.range g.size)) (hlayered : g.Layered placed)
    (hchosen : g.Chosen placed)
    (hrest : Greedy (fun i j => j ∈ g.needs i) (fun i j => g.precedes i j) rest) :
    Greedy (fun i j => j ∈ g.needs i) (fun i j => g.precedes i j) (placed.reverse ++ rest) := by
  induction placed generalizing rest with
  | nil => exact hrest
  | cons i placed ih =>
      rw [List.reverse_cons, List.append_assoc, List.singleton_append] at hperm ⊢
      have hnodup := hperm.nodup_iff.mpr List.nodup_range
      have hopen {j : Nat} (hj : j ∈ i :: rest) : j ∉ placed := by
        intro hplaced
        exact List.disjoint_of_nodup_append hnodup (List.mem_reverse.mpr hplaced) hj
      refine ih hperm hlayered.2 hchosen.2 ⟨fun j hj hneeds => ?_, fun j hj hready => ?_, hrest⟩
      · exact hopen (List.mem_cons_of_mem i hj) (hlayered.1 j hneeds)
      · have hmem := hperm.mem_iff.mp (List.mem_append_right _ (List.mem_cons_of_mem i hj))
        refine hchosen.1 j (List.mem_range.mp hmem) (hopen (List.mem_cons_of_mem i hj)) ?_ ?_
        · intro k hk
          have hall := hperm.mem_iff.mpr (List.mem_range.mpr (hg.lt j k hk))
          rcases List.mem_append.mp hall with hplaced | hlater
          · exact List.mem_reverse.mp hplaced
          · exact absurd hk (hready k hlater)
        · rintro rfl
          have hnodup := (List.nodup_append.mp hnodup).2.1
          exact (List.nodup_cons.mp hnodup).1 hj

/-- Sorting gives the greedy order. -/
theorem greedy_of_sort (hg : g.WellFormed) {order : List Nat} (h : g.sort = .ok order) :
    Greedy (fun i j => j ∈ g.needs i) (fun i j => g.precedes i j) order := by
  have hperm := (sorts_of_sort hg h).perm
  have hsound := (sound_start hg).run hg g.size
  have hchosen := chosen_run hg (sound_start hg) trivial g.size
  rw [sort] at h
  split at h
  · cases h
    rw [← List.append_nil (List.reverse _)] at hperm ⊢
    exact greedy_reverse_append hg hperm hsound.layered hchosen trivial
  · cases h

omit [Std.TransOrd P] in
/-- Nodes are placed until none is ready. -/
theorem ready_or_length_run (fuel : Nat) (s : Placing) :
    (g.run fuel s).ready = [] ∨ (g.run fuel s).placed.length = s.placed.length + fuel := by
  induction fuel generalizing s with
  | zero => exact .inr rfl
  | succ fuel ih =>
      rw [Graph.run]
      split
      · next hnone => exact .inl (first_eq_none_iff.mp hnone)
      · next node hnode =>
          refine (ih (g.place s node)).imp_right fun hlength => ?_
          rw [hlength, placed_place, List.length_cons]
          omega

omit [Ord P] [Std.TransOrd P] in
/-- Where what a node needs has a lower rank, some node is ready as long as one is left. -/
theorem mem_placed_of_rank {s : Placing} (h : s.Sound g) (hready : s.ready = [])
    (hg : g.WellFormed) {rank : Nat → Nat}
    (hrank : ∀ i < g.size, ∀ j ∈ g.needs i, rank j < rank i) (hi : i < g.size) :
    i ∈ s.placed := by
  induction hn : rank i using Nat.strongRecOn generalizing i with
  | _ n ih =>
      subst hn
      by_contra hopen
      have hmem := (h.ready i).mpr ⟨hi, hopen, fun j hj => ih _ (hrank i hi j hj) (hg.lt i j hj) rfl⟩
      rw [hready] at hmem
      cases hmem

omit [Std.TransOrd P] in
/-- Nodes can be sorted exactly if what each needs can be given a lower rank. -/
theorem exists_sort_iff (hg : g.WellFormed) :
    (∃ order, g.sort = .ok order) ↔
      ∃ rank : Nat → Nat, ∀ i < g.size, ∀ j ∈ g.needs i, rank j < rank i := by
  constructor
  · rintro ⟨order, horder⟩
    exact ⟨order.idxOf, (sorts_of_sort hg horder).after⟩
  · rintro ⟨rank, hrank⟩
    have hsound := (sound_start hg).run hg g.size
    have hlength : (g.run g.size g.start).placed.length = g.size := by
      rcases ready_or_length_run (g := g) g.size g.start with hready | hlength
      · have hall : List.range g.size ⊆ (g.run g.size g.start).placed := fun i hi =>
          mem_placed_of_rank hsound hready hg hrank (List.mem_range.mp hi)
        have hsubset : (g.run g.size g.start).placed ⊆ List.range g.size :=
          fun i hi => List.mem_range.mpr (hsound.lt i hi)
        have hle := (List.subperm_of_subset List.nodup_range hall).length_le
        have hge := (List.subperm_of_subset hsound.nodup hsubset).length_le
        rw [List.length_range] at hle hge
        exact Nat.le_antisymm hge hle
      · exact hlength.trans (Nat.zero_add _)
    exact ⟨_, if_pos hlength⟩

omit [Ord P] [Std.TransOrd P] in
/-- Ranks of the nodes are ranks of what the nodes stand for. -/
theorem exists_rank_iff {α κ : Type} [DecidableEq κ] {items : List α} {label : α → κ}
    (hnodup : (items.map label).Nodup) (hsize : g.size = items.length) (hg : g.WellFormed)
    {needs : α → α → Prop} (hneeds : ∀ i j a b, items[i]? = some a → items[j]? = some b →
      (j ∈ g.needs i ↔ needs a b)) :
    (∃ rank : Nat → Nat, ∀ i < g.size, ∀ j ∈ g.needs i, rank j < rank i) ↔
      ∃ rank : κ → Nat, ∀ a ∈ items, ∀ b ∈ items, needs a b → rank (label b) < rank (label a) := by
  constructor
  · rintro ⟨rank, hrank⟩
    refine ⟨fun k => rank ((items.map label).idxOf k), fun a ha b hb hab => ?_⟩
    obtain ⟨i, hi, rfl⟩ := List.getElem_of_mem ha
    obtain ⟨j, hj, rfl⟩ := List.getElem_of_mem hb
    have hidx {k : Nat} (hk : k < items.length) :
        (items.map label).idxOf (label items[k]) = k := by
      have hk' : k < (items.map label).length := by rwa [List.length_map]
      have hget := hnodup.idxOf_getElem k hk'
      rwa [List.getElem_map] at hget
    dsimp only
    rw [hidx hi, hidx hj]
    exact hrank i (hsize ▸ hi) j ((hneeds i j _ _ (List.getElem?_eq_getElem hi)
      (List.getElem?_eq_getElem hj)).mpr hab)
  · rintro ⟨rank, hrank⟩
    refine ⟨fun i => (items[i]?.map fun a => rank (label a)).getD 0, fun i hi j hj => ?_⟩
    have hjlt := hg.lt i j hj
    rw [hsize] at hi hjlt
    have hitem := List.getElem?_eq_getElem hi
    have hitem' := List.getElem?_eq_getElem hjlt
    simp only [hitem, hitem', Option.map_some, Option.getD_some]
    exact hrank _ (List.getElem_mem hi) _ (List.getElem_mem hjlt)
      ((hneeds i j _ _ hitem hitem').mp hj)

end Graph

end Rollout
