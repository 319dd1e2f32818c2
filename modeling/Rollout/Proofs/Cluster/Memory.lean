import Mathlib.Logic.Function.Basic
import Rollout.Cluster.Memory
/-!
Calls to a cluster in memory. Each reads and changes its own object only.
-/

namespace Rollout.MemoryCluster

/-- What a call answers and what it makes of its object, where changes of some are refused. -/
def effect (refused : List (Key × String)) (m : Mutation) (object : Option Document) :
    Except ClusterError Unit × Option Document :=
  match Ordered.find? m.key refused with
  | some message => (.error (internalError message), object)
  | none => match m, object with
    | .create d, none => (.ok (), some d)
    | .create d, some live => (.error (alreadyExists d.key), some live)
    | .update d, none => (.error (notFound d.key), none)
    | .update d, some live => match merged live d with
      | .ok merged => (.ok (), some merged)
      | .error f => (.error (.build (.invalidDocument f)), some live)
    | .delete _, _ => (.ok (), none)

variable (c : MemoryCluster)

theorem find?_put_eq (k : Key) (d : Document) :
    (fun j => Ordered.find? j (Ordered.put k d c.objects)) =
      Function.update c.find? k (some d) := by
  funext j
  rw [Ordered.find?_put]
  by_cases hj : k = j
  · rw [if_pos hj, hj, Function.update_self]
  · rw [if_neg hj, Function.update_of_ne (Ne.symm hj)]
    rfl

theorem find?_remove_eq (hkeys : (Ordered.keys c.objects).Nodup) (k : Key) :
    (fun j => Ordered.find? j (Ordered.remove k c.objects)) = Function.update c.find? k none := by
  funext j
  by_cases hj : k = j
  · rw [hj, Ordered.find?_remove_self hkeys, Function.update_self]
  · rw [Ordered.find?_remove_of_ne hj, Function.update_of_ne (Ne.symm hj)]
    rfl

/-- What a mutation makes of the objects, told for its own object. -/
theorem change_cases (hkeys : (Ordered.keys c.objects).Nodup) (m : Mutation)
    (hm : Ordered.find? m.key c.refused = none) :
    (∃ objects, change c.objects m = .ok objects ∧ (Ordered.keys objects).Nodup ∧
      (effect c.refused m (c.find? m.key)).1 = .ok () ∧
      (fun j => Ordered.find? j objects) =
        Function.update c.find? m.key (effect c.refused m (c.find? m.key)).2) ∨
    ∃ e, change c.objects m = .error e ∧
      effect c.refused m (c.find? m.key) = (.error e, c.find? m.key) := by
  simp only [effect, hm]
  cases m with
  | create d =>
      have hfind : Ordered.find? d.key c.objects = c.find? d.key := rfl
      rw [change, Ordered.has, hfind]
      dsimp only [Mutation.key]
      cases h : c.find? d.key with
      | none => exact .inl ⟨_, rfl, Ordered.keys_nodup_put hkeys, rfl, c.find?_put_eq d.key d⟩
      | some live => exact .inr ⟨_, rfl, rfl⟩
  | update d =>
      have hfind : Ordered.find? d.key c.objects = c.find? d.key := rfl
      rw [change, hfind]
      dsimp only [Mutation.key]
      cases h : c.find? d.key with
      | none => exact .inr ⟨_, rfl, rfl⟩
      | some live =>
          dsimp only
          cases hmerged : merged live d with
          | ok merged =>
              exact .inl ⟨_, rfl, Ordered.keys_nodup_put hkeys, rfl, c.find?_put_eq d.key merged⟩
          | error f => exact .inr ⟨_, rfl, rfl⟩
  | delete r =>
      have hremoved := Ordered.keys_nodup_of_sublist (Ordered.remove_sublist r.key c.objects) hkeys
      exact .inl ⟨_, rfl, hremoved, rfl, c.find?_remove_eq hkeys r.key⟩

/-- The end of a call has its effect. -/
theorem finish_eq (hkeys : (Ordered.keys c.objects).Nodup) (m : Mutation) :
    (c.finish m).1 = (effect c.refused m (c.find? m.key)).1 ∧
      (c.finish m).2.find? =
        Function.update c.find? m.key (effect c.refused m (c.find? m.key)).2 ∧
      (Ordered.keys (c.finish m).2.objects).Nodup ∧ (c.finish m).2.refused = c.refused := by
  rw [finish]
  dsimp only
  cases hm : Ordered.find? m.key c.refused with
  | some message =>
      have heffect : effect c.refused m (c.find? m.key) =
          (.error (internalError message), c.find? m.key) := by
        simp only [effect, hm]
      rw [heffect]
      exact ⟨rfl, (Function.update_eq_self ..).symm, hkeys, rfl⟩
  | none =>
      dsimp only
      rcases c.change_cases hkeys m hm with
        ⟨objects, hobjects, hnodup, hok, hfind⟩ | ⟨e, he, heffect⟩
      · rw [hobjects]
        exact ⟨hok.symm, hfind, hnodup, rfl⟩
      · rw [he, heffect]
        exact ⟨rfl, (Function.update_eq_self ..).symm, hkeys, rfl⟩

end Rollout.MemoryCluster
