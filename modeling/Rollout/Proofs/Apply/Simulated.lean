import Rollout.Apply.Simulation
import Rollout.Proofs.Apply.Following
import Rollout.Proofs.Cluster.Memory
/-!
The simulated server is fair: it ends one of the calls in flight, or shows that applying was
cancelled. Where all kinds are served and applying is not cancelled, calls are local, and so they
are where they end in an order of their own.
-/

namespace Rollout

/-- What calls do to a cluster in memory where changes of some objects are refused. -/
def MemoryCluster.effects (refused : List (Key × String)) : Effects where
  place := Mutation.key
  act := effect refused

namespace Simulation

variable {s t u : Simulation} {calls : List (Nat × Mutation)} {seen : Bool} {i : Nat} {m : Mutation}
  {e : Event}

/-- Nothing is written, and the faults are as they were. -/
structure Unmoved (s t : Simulation) : Prop where
  objects : t.cluster.objects = s.cluster.objects
  journal : t.cluster.journal = s.cluster.journal
  refused : t.cluster.refused = s.cluster.refused
  unserved : t.unserved = s.unserved
  unreadable : t.unreadable = s.unreadable
  listFault : t.listFault = s.listFault

theorem Unmoved.trans (h : Unmoved s t) (h' : Unmoved t u) : Unmoved s u where
  objects := h'.objects.trans h.objects
  journal := h'.journal.trans h.journal
  refused := h'.refused.trans h.refused
  unserved := h'.unserved.trans h.unserved
  unreadable := h'.unreadable.trans h.unreadable
  listFault := h'.listFault.trans h.listFault

theorem Unmoved.refl (s : Simulation) : Unmoved s s := ⟨rfl, rfl, rfl, rfl, rfl, rfl⟩

/-- What stays as it is while no call ends. -/
structure Kept (s t : Simulation) : Prop extends Unmoved s t where
  cancelAt : t.cancelAt = s.cancelAt
  cancelWith : t.cancelWith = s.cancelWith
  cancelled : s.cancelled = true → t.cancelled = true
  calm : s.cancelWith = none → t.cancelled = s.cancelled

theorem Kept.trans (h : Kept s t) (h' : Kept t u) : Kept s u where
  toUnmoved := h.toUnmoved.trans h'.toUnmoved
  cancelAt := h'.cancelAt.trans h.cancelAt
  cancelWith := h'.cancelWith.trans h.cancelWith
  cancelled := fun hs => h'.cancelled (h.cancelled hs)
  calm := fun hs => (h'.calm (h.cancelWith.trans hs)).trans (h.calm hs)

theorem Kept.refl (s : Simulation) : Kept s s := ⟨.refl s, rfl, rfl, id, fun _ => rfl⟩

theorem kept_enter (s : Simulation) : Kept s s.enter where
  toUnmoved := { Unmoved.refl s with }
  cancelAt := rfl
  cancelWith := rfl
  cancelled := fun h => by rw [enter, h, Bool.true_or]
  calm := fun h => by
    rw [enter, h]
    exact Bool.or_false _

/-- The end of a call: refused before it reaches the cluster, or as the cluster has it. -/
inductive Ends (u : Simulation) (i : Nat) (m : Mutation) : Event → Simulation → Prop where
  | refused {error : ClusterError} : u.refusal? m = some error →
      Ends u i m (.ended i (.error error)) u
  | finished : Ends u i m (u.finish i m).1 (u.finish i m).2

theorem Ends.eq_ended (h : Ends u i m e t) : ∃ result, e = .ended i result := by
  cases h with
  | refused => exact ⟨_, rfl⟩
  | finished => exact ⟨_, rfl⟩

theorem Ends.cancelled (h : Ends u i m e t) : t.cancelled = u.cancelled := by
  cases h <;> rfl

theorem begin_some (h : s.begin i m = (some e, t)) : ∃ u, Kept s u ∧ Ends u i m e t := by
  rw [Simulation.begin] at h
  dsimp only at h
  split at h
  · next error herror =>
      cases h
      exact ⟨s.enter, kept_enter s, .refused herror⟩
  · have hbegun : Kept s { s.enter with cluster := s.enter.cluster.begin m } :=
      { kept_enter s with }
    split at h
    · cases h
      exact ⟨_, hbegun, .finished⟩
    · cases h
      exact ⟨_, hbegun, .finished⟩
    · cases h

theorem begin_none (h : s.begin i m = (none, t)) :
    Kept s t ∧ ∃ due, t.pending = s.pending ++ [(i, due)] := by
  rw [Simulation.begin] at h
  dsimp only at h
  split at h
  · cases h
  · split at h
    · cases h
    · cases h
    · cases h
      exact ⟨{ kept_enter s with }, _, rfl⟩

/-- A call that ends is one of those in flight. -/
theorem advance_some (h : s.advance calls = (some e, t)) :
    ∃ i m u, (i, m) ∈ calls ∧ Kept s u ∧ Ends u i m e t := by
  induction calls generalizing s with
  | nil => cases h
  | cons c calls ih =>
      obtain ⟨i, m⟩ := c
      rw [advance] at h
      split at h
      · split at h
        · cases h
          exact ⟨i, m, s, List.mem_cons_self, .refl s, .finished⟩
        · obtain ⟨j, k, u, hm, hu, hends⟩ := ih h
          exact ⟨j, k, u, List.mem_cons_of_mem _ hm, hu, hends⟩
      · split at h
        · next hbegin =>
            cases h
            obtain ⟨u, hu, hends⟩ := begin_some hbegin
            exact ⟨i, m, u, List.mem_cons_self, hu, hends⟩
        · next hbegin =>
            obtain ⟨j, k, u, hm, hu, hends⟩ := ih h
            exact ⟨j, k, u, List.mem_cons_of_mem _ hm, (begin_none hbegin).1.trans hu, hends⟩

/-- If no call ends, all calls have begun. -/
theorem advance_none (h : s.advance calls = (none, t)) :
    Kept s t ∧ (∀ j, (Ordered.find? j s.pending).isSome → (Ordered.find? j t.pending).isSome) ∧
      ∀ c ∈ calls, (Ordered.find? c.1 t.pending).isSome := by
  induction calls generalizing s with
  | nil =>
      cases h
      exact ⟨.refl _, fun _ hj => hj, nofun⟩
  | cons c calls ih =>
      obtain ⟨i, m⟩ := c
      rw [advance] at h
      rw [List.forall_mem_cons]
      split at h
      · next due hdue =>
          split at h
          · cases h
          · obtain ⟨hkept, hgrows, hall⟩ := ih h
            exact ⟨hkept, hgrows, hgrows i (Option.isSome_of_eq_some hdue), hall⟩
      · split at h
        · cases h
        · next u hbegin =>
            obtain ⟨hu, due, hpending⟩ := begin_none hbegin
            obtain ⟨hkept, hgrows, hall⟩ := ih h
            refine ⟨hu.trans hkept, fun j hj => hgrows j ?_, hgrows i ?_, hall⟩
            · rw [hpending, Ordered.find?_append, Option.isSome_or, hj, Bool.true_or]
            · rw [hpending, Ordered.find?_append, Option.isSome_or]
              simp [Ordered.find?]

/-- If all calls have begun and one of them is due, a call ends. -/
theorem exists_advance (hall : ∀ c ∈ calls, (Ordered.find? c.1 s.pending).isSome)
    (hdue : ∃ c ∈ calls, ∃ due ≤ s.now, Ordered.find? c.1 s.pending = some due) :
    ∃ e t, s.advance calls = (some e, t) := by
  induction calls with
  | nil =>
      obtain ⟨c, hc, -⟩ := hdue
      cases hc
  | cons c calls ih =>
      obtain ⟨i, m⟩ := c
      rw [List.forall_mem_cons] at hall
      obtain ⟨due, hi⟩ := Option.isSome_iff_exists.mp hall.1
      rw [advance, hi]
      dsimp only
      split
      · exact ⟨_, _, rfl⟩
      · next hlate =>
          refine ih hall.2 ?_
          obtain ⟨c, hc, next, hnext, hpending⟩ := hdue
          rcases List.mem_cons.mp hc with rfl | hc
          · rw [hi] at hpending
            cases hpending
            exact absurd hnext hlate
          · exact ⟨c, hc, next, hnext, hpending⟩

/-- Time passes until applying is cancelled or the next call is due. -/
theorem pass_cases (s : Simulation) (calls : List (Nat × Mutation)) (seen : Bool) :
    (Unmoved s (s.pass calls seen) ∧ (s.pass calls seen).cancelled = true ∧ seen = false ∧
        s.cancelAt ≠ none) ∨
      (Kept s (s.pass calls seen) ∧ (s.pass calls seen).cancelled = s.cancelled ∧
        (s.pass calls seen).pending = s.pending ∧
        ∀ due, s.nextEnd calls = some due → (s.pass calls seen).now = due) := by
  rw [pass]
  split
  · next hnone =>
      refine .inr ⟨.refl s, rfl, rfl, fun due hdue => ?_⟩
      rw [hnone] at hdue
      cases hdue
  · next due hdue =>
      split
      · next moment hmoment =>
          split
          · next hcancel =>
              refine .inl ⟨{ Unmoved.refl s with }, rfl, by simpa using hcancel.2.1, ?_⟩
              rw [hmoment]
              exact Option.some_ne_none moment
          · exact .inr ⟨{ Kept.refl s with }, rfl, rfl,
              fun _ h => Option.some.inj (hdue.symm.trans h)⟩
      · exact .inr ⟨{ Kept.refl s with }, rfl, rfl,
          fun _ h => Option.some.inj (hdue.symm.trans h)⟩

theorem exists_nextEnd (hcalls : calls ≠ [])
    (hall : ∀ c ∈ calls, (Ordered.find? c.1 s.pending).isSome) :
    ∃ c ∈ calls, ∃ due, s.nextEnd calls = some due ∧ Ordered.find? c.1 s.pending = some due := by
  obtain ⟨c, rest, rfl⟩ := List.exists_cons_of_ne_nil hcalls
  obtain ⟨first, hfirst⟩ := Option.isSome_iff_exists.mp (hall c List.mem_cons_self)
  cases hmin : s.nextEnd (c :: rest) with
  | none =>
      rw [nextEnd, List.min?_eq_none_iff, List.filterMap_cons, hfirst] at hmin
      cases hmin
  | some due =>
      obtain ⟨d, hd, hdue⟩ := List.mem_filterMap.mp (List.min?_mem hmin)
      exact ⟨d, hd, due, rfl, hdue⟩

/-- While calls are in flight one of them ends, or applying is cancelled. -/
theorem await_cases (s : Simulation) (seen : Bool) (hcalls : calls ≠ []) :
    (∃ i m u, (i, m) ∈ calls ∧ Kept s u ∧ Ends u i m (s.await calls seen).1
      (s.await calls seen).2) ∨
      (Unmoved s (s.await calls seen).2 ∧ seen = false ∧ (s.await calls seen).1 = .cancelled ∧
        (s.await calls seen).2.cancelled = true ∧
        (s.cancelled = true ∨ s.cancelAt ≠ none ∨ s.cancelWith ≠ none)) := by
  rw [await]
  split
  · next hcancelled =>
      exact .inr ⟨.refl s, by simpa using hcancelled.2, rfl, hcancelled.1, .inl hcancelled.1⟩
  · next hgoing =>
      split
      · next e t hadvance => exact .inl (advance_some hadvance)
      · next u hadvance =>
          obtain ⟨hkept, -, hall⟩ := advance_none hadvance
          -- A call that begins can be the one that applying is cancelled with.
          by_cases hcancelled : u.cancelled = true ∧ (!seen) = true
          · dsimp only
            rw [if_pos hcancelled, if_pos hcancelled]
            refine .inr ⟨hkept.toUnmoved, by simpa using hcancelled.2, rfl, hcancelled.1, ?_⟩
            by_contra hnot
            rw [not_or, not_or, Decidable.not_not, Decidable.not_not] at hnot
            exact hgoing ⟨(hkept.calm hnot.2.2).symm.trans hcancelled.1, hcancelled.2⟩
          · dsimp only
            rw [if_neg hcancelled]
            rcases u.pass_cases calls seen with ⟨hsame, hc, hseen, hat⟩ | ⟨hpass, hsame, hpending, hnow⟩
            · rw [if_pos ⟨hc, by rw [hseen]; rfl⟩]
              refine .inr ⟨hkept.toUnmoved.trans hsame, hseen, rfl, hc, .inr (.inl ?_)⟩
              exact hkept.cancelAt ▸ hat
            · obtain ⟨c, hc, due, hnext, hdue⟩ := exists_nextEnd hcalls hall
              obtain ⟨e, t, hagain⟩ : ∃ e t, (u.pass calls seen).advance calls = (some e, t) := by
                refine exists_advance (fun c hc => hpending ▸ hall c hc) ⟨c, hc, due, ?_, ?_⟩
                · exact (hnow due hnext).ge
                · rw [hpending, hdue]
              rw [if_neg (hsame ▸ hcancelled), hagain]
              obtain ⟨i, m, v, hm, hv, hends⟩ := advance_some hagain
              exact .inl ⟨i, m, v, hm, (hkept.trans hpass).trans hv, hends⟩

theorem cancelled_await (seen : Bool) (hcalls : calls ≠ []) (h : s.cancelled = true) :
    (s.await calls seen).2.cancelled = true := by
  rcases s.await_cases seen hcalls with ⟨i, m, u, -, hu, hends⟩ | ⟨-, -, -, hc, -⟩
  · rw [hends.cancelled]
    exact hu.cancelled h
  · exact hc

/-- The simulated server is fair. -/
theorem server_fair : server.Fair fun _ => True where
  await s calls seen _ hcalls := by
    refine ⟨trivial, ?_⟩
    rcases s.await_cases seen hcalls with ⟨i, m, u, hm, -, hends⟩ | ⟨-, hseen, he, hc, -⟩
    · obtain ⟨result, he⟩ := hends.eq_ended
      exact .inl ⟨i, m, result, hm, he⟩
    · exact .inr ⟨hseen, he, hc⟩
  await_stays s calls seen _ hcalls h := cancelled_await seen hcalls h
  ask _ _ := trivial
  ask_stays _ _ h := h

/-- All kinds are served, and applying is never cancelled. -/
structure Undisturbed (refused : List (Key × String)) (s : Simulation) : Prop where
  keys : (Ordered.keys s.cluster.objects).Nodup
  refused : s.cluster.refused = refused
  unserved : s.unserved = []
  cancelAt : s.cancelAt = none
  cancelWith : s.cancelWith = none
  cancelled : s.cancelled = false

theorem Undisturbed.refusal? {refused : List (Key × String)} (h : s.Undisturbed refused)
    (hkept : Kept s u) (m : Mutation) : u.refusal? m = none := by
  have hserves (kind : String) : u.serves kind = true := by
    rw [serves, hkept.unserved, h.unserved]
    rfl
  cases m with
  | create d | update d => rw [Simulation.refusal?, hserves, if_pos rfl]
  | delete r => rfl

theorem Undisturbed.ends {refused : List (Key × String)} (h : s.Undisturbed refused)
    (hkept : Kept s u) (hends : Ends u i m e t) :
    t.Undisturbed refused ∧
      e = .ended i ((MemoryCluster.effects refused).answer s.cluster.find? m) ∧
      t.cluster.find? = (MemoryCluster.effects refused).after s.cluster.find? m := by
  cases hends with
  | refused herror =>
      rw [h.refusal? hkept] at herror
      cases herror
  | finished =>
      have hfind : u.cluster.find? = s.cluster.find? := by
        funext k
        rw [MemoryCluster.find?, MemoryCluster.find?, hkept.objects]
      have hrefused : u.cluster.refused = refused := hkept.refused.trans h.refused
      obtain ⟨hanswer, hobjects, hkeys, hsame⟩ := u.cluster.finish_eq (hkept.objects ▸ h.keys) m
      rw [hrefused, hfind] at hanswer hobjects
      refine ⟨⟨hkeys, hsame.trans hrefused, hkept.unserved.trans h.unserved,
        hkept.cancelAt.trans h.cancelAt, hkept.cancelWith.trans h.cancelWith,
        (hkept.calm h.cancelWith).trans h.cancelled⟩, ?_, hobjects⟩
      exact congrArg (Event.ended i) hanswer

/-- The simulated server changes only the object of the call that ends. -/
theorem server_local (refused : List (Key × String)) :
    server.Local (Undisturbed refused) (fun s => s.cluster.find?)
      (MemoryCluster.effects refused) where
  await s calls seen hs hcalls := by
    rcases s.await_cases seen hcalls with ⟨i, m, u, hm, hu, hends⟩ | ⟨-, -, -, -, hcancel⟩
    · obtain ⟨hvalid, he, hobjects⟩ := hs.ends hu hends
      exact ⟨hvalid, i, m, hm, he, hobjects⟩
    · rw [hs.cancelled, hs.cancelAt, hs.cancelWith] at hcancel
      rcases hcancel with h | h | h
      · cases h
      · exact absurd rfl h
      · exact absurd rfl h
  ask s hs := ⟨hs.cancelled, hs, rfl⟩

end Simulation

namespace MemoryCluster

/-- A cluster in memory as it is applied to. Of the calls in flight the one that is picked is the
next to end. -/
def server (next : List (Nat × Mutation) → Option (Nat × Mutation)) : Server MemoryCluster where
  get c r :=
    let (d, c) := c.get r
    (.ok d, c)
  list c selector :=
    let (ds, c) := c.list selector
    (.ok ds, c)
  await c calls _ :=
    match next calls with
    | some (i, m) =>
      let (result, c) := c.call m
      (.ended i result, c)
    | none => (.cancelled, c)
  isCancelled c := (false, c)

/-- Whichever call is picked, it changes its own object only. -/
theorem server_local {next : List (Nat × Mutation) → Option (Nat × Mutation)}
    {refused : List (Key × String)}
    (hnext : ∀ calls, calls ≠ [] → ∃ e ∈ calls, next calls = some e) :
    (server next).Local (fun c => (Ordered.keys c.objects).Nodup ∧ c.refused = refused) find?
      (effects refused) where
  await c calls seen := by
    rintro ⟨hkeys, rfl⟩ hcalls
    obtain ⟨⟨i, m⟩, hm, hpicked⟩ := hnext calls hcalls
    obtain ⟨hanswer, hobjects, hnodup, hrefused⟩ := (c.begin m).finish_eq hkeys m
    simp only [server, hpicked]
    exact ⟨⟨hnodup, hrefused⟩, i, m, hm, congrArg (Event.ended i) hanswer, hobjects⟩
  ask c hc := ⟨rfl, hc, rfl⟩

end MemoryCluster

end Rollout
