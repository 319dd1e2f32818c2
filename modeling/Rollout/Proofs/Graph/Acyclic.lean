import Mathlib.Data.List.Basic
import Mathlib.Logic.Relation
/-!
Ranks and cycles. A relation on finitely many items has a rank that each of its steps lowers
exactly if no item is reached from itself. Steps that never leave a finite set come to a cycle.
-/

namespace Rollout

open Relation

variable {α : Type} {r : α → α → Prop}

theorem lt_of_transGen {rank : α → Nat} (h : ∀ a b, r a b → rank b < rank a) {a b : α}
    (hab : TransGen r a b) : rank b < rank a := by
  induction hab with
  | single hab => exact h _ _ hab
  | tail _ hbc ih => exact Nat.lt_trans (h _ _ hbc) ih

/-- A filter that drops one of the items that another one keeps is shorter. -/
theorem length_filter_lt {p q : α → Bool} {l : List α} (hpq : ∀ a, p a → q a) {a : α}
    (ha : a ∈ l) (hq : q a) (hp : ¬ p a) : (l.filter p).length < (l.filter q).length := by
  have hfilter : l.filter p = (l.filter q).filter p := by
    rw [List.filter_filter]
    refine List.filter_congr fun b _ => ?_
    cases hb : p b with
    | false => rfl
    | true => rw [hpq b hb, Bool.true_and]
  rw [hfilter, List.length_filter_lt_length_iff_exists]
  exact ⟨a, List.mem_filter.mpr ⟨ha, hq⟩, hp⟩

/-- The rank of an item is the number of items that are reached from it. -/
theorem exists_rank_iff_acyclic {l : List α} (hmem : ∀ a b, r a b → a ∈ l) :
    (∃ rank : α → Nat, ∀ a b, r a b → rank b < rank a) ↔ ∀ a, ¬ TransGen r a a := by
  constructor
  · rintro ⟨rank, hrank⟩ a hcycle
    exact Nat.lt_irrefl _ (lt_of_transGen hrank hcycle)
  · intro hacyclic
    classical
    refine ⟨fun a => (l.filter fun c => ReflTransGen r a c).length, fun a b hab => ?_⟩
    refine length_filter_lt (fun c hc => ?_) (hmem a b hab) ?_ fun hback => ?_
    · exact decide_eq_true (.head hab (of_decide_eq_true hc))
    · exact decide_eq_true .refl
    · exact hacyclic a (TransGen.head' hab (of_decide_eq_true hback))

section Trapped

variable {s : α → Prop}

/-- A finite set that can be left from none of its items has a cycle. -/
theorem exists_cycle_of_trapped {l : List α} (hmem : ∀ a, s a → a ∈ l)
    (hstep : ∀ a, s a → ∃ b, s b ∧ r a b) {a : α} (ha : s a) : ∃ c, s c ∧ TransGen r c c := by
  by_contra hnone
  have hacyclic : ∀ c, ¬ TransGen (fun a b => s a ∧ r a b) c c := by
    intro c hcycle
    obtain ⟨b, ⟨hc, -⟩, -⟩ := TransGen.head'_iff.mp hcycle
    exact hnone ⟨c, hc, TransGen.mono (fun _ _ h => h.2) c c hcycle⟩
  -- Without a cycle there is a rank, which would sink without end.
  obtain ⟨rank, hrank⟩ := (exists_rank_iff_acyclic fun a _ h => hmem a h.1).mpr hacyclic
  induction hn : rank a using Nat.strongRecOn generalizing a with
  | _ n ih =>
      subst hn
      obtain ⟨b, hb, hab⟩ := hstep a ha
      exact ih (rank b) (hrank a b ⟨ha, hab⟩) hb rfl

/-- From each item of such a set some cycle is reached. -/
theorem exists_reached_cycle {l : List α} (hmem : ∀ a, s a → a ∈ l)
    (hstep : ∀ a, s a → ∃ b, s b ∧ r a b) {a : α} (ha : s a) :
    ∃ c, TransGen r a c ∧ TransGen r c c := by
  have hreached : ∀ b, s b ∧ ReflTransGen r a b → ∃ c, (s c ∧ ReflTransGen r a c) ∧ r b c := by
    rintro b ⟨hb, hab⟩
    obtain ⟨c, hc, hbc⟩ := hstep b hb
    exact ⟨c, ⟨hc, hab.tail hbc⟩, hbc⟩
  obtain ⟨c, ⟨-, hac⟩, hcycle⟩ :=
    exists_cycle_of_trapped (fun b hb => hmem b hb.1) hreached ⟨ha, .refl⟩
  exact ⟨c, TransGen.trans_right hac hcycle, hcycle⟩

end Trapped

end Rollout
