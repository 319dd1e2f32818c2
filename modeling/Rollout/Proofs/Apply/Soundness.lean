import Mathlib.Data.List.Find
import Mathlib.Tactic.ByContra
import Rollout.Proofs.Apply.Trace
/-!
What holds of a run after every act that is allowed: calls in flight wait for an outcome and
come after all they need, and outcomes are what the rules give.
-/

namespace Rollout

namespace Run

variable {r : Run} {i j : Nat} {o : Outcome}

theorem outcome?_settle :
    (r.perform (.settle j o)).outcome? i =
      if i = j ∧ j < r.outcomes.length then some o else r.outcome? i := by
  simp only [outcome?, perform, List.getElem?_set]
  split
  · next h =>
      subst h
      split
      · next hj => simp [hj]
      · next hj => simp [hj]
  · next h => simp [Ne.symm h]

theorem length_outcomes_perform (a : Act) :
    (r.perform a).outcomes.length = r.outcomes.length := by
  cases a with
  | settle j o => exact List.length_set
  | _ => rfl

theorem lt_length_of_outcome? (h : r.outcome? i = some o) : i < r.outcomes.length := by
  by_contra hi
  rw [outcome?, List.getElem?_eq_none (Nat.le_of_not_lt hi)] at h
  cases h

theorem isLaunched_eq_false :
    r.isLaunched i = false ↔ r.outcome? i = none ∧ ∀ m, (i, m) ∉ r.inFlight := by
  rw [isLaunched, Bool.or_eq_false_iff, List.any_eq_false, Option.isSome_eq_false_iff,
    Option.isNone_iff_eq_none]
  refine and_congr_right fun _ => ⟨fun h m hm => h (i, m) hm (by simp), ?_⟩
  rintro h ⟨j, m⟩ hm
  simp only [decide_eq_true_eq]
  rintro rfl
  exact h m hm

end Run

namespace Work

/-- An outcome that the rules give a change. -/
inductive Justified (w : Work) (history : List Event) (r : Run) (i : Nat) : Outcome → Prop where
  | skip {d : Nat} : w.Settled r.outcome? i → w.failedNeed? r i = some d →
      Justified w history r i (.skipped (w.dependencyText d))
  | pass {c : Change} : w.Applied r.outcome? i → w.changes[i]? = some c → c.mutation? = none →
      Justified w history r i (settled c)
  | ended {c : Change} {m : Mutation} {result : Except ClusterError Unit} : w.Applied r.outcome? i →
      w.changes[i]? = some c → c.mutation? = some m → .ended i result ∈ history →
      Justified w history r i (w.ended i result)

/-- What holds of a run at all times. -/
structure Sound (w : Work) (history : List Event) (r : Run) : Prop where
  length : r.outcomes.length = w.changes.length
  waiting : ∀ i m, (i, m) ∈ r.inFlight → r.outcome? i = none
  called : ∀ i m, (i, m) ∈ r.inFlight →
    w.Applied r.outcome? i ∧ ∃ c, w.changes[i]? = some c ∧ c.mutation? = some m
  nodup : (r.inFlight.map Prod.fst).Nodup
  bounded : r.inFlight.length ≤ w.limit
  justified : ∀ i o, r.outcome? i = some o → w.Justified history r i o

variable {w : Work} {history : List Event} {r : Run} {a : Act} {i : Nat} {o : Outcome}

theorem outcome?_start (cancelled : Bool) (i : Nat) : (w.start cancelled).outcome? i = none := by
  rw [start, Run.outcome?]
  cases h : (List.replicate w.changes.length (none : Option Outcome))[i]? with
  | none => rfl
  | some o =>
      rw [List.eq_of_mem_replicate (List.mem_of_getElem? h)]
      rfl

theorem sound_start (cancelled : Bool) : w.Sound history (w.start cancelled) where
  length := List.length_replicate
  waiting := nofun
  called := nofun
  nodup := List.nodup_nil
  bounded := Nat.zero_le _
  justified i o h := by
    rw [outcome?_start] at h
    cases h

namespace Sound

variable (h : w.Sound history r)

include h

/-- Only a change without an outcome gets one. -/
theorem outcome?_eq_none_of_settle (ha : w.Allowed history r (.settle i o)) :
    r.outcome? i = none := by
  cases ha with
  | skip hfresh | pass hfresh => exact (Run.isLaunched_eq_false.mp hfresh).1
  | ended hm => exact h.waiting i _ hm

theorem lt_length_of_settle (ha : w.Allowed history r (.settle i o)) :
    i < w.changes.length := by
  cases ha with
  | skip _ hi => exact hi
  | pass _ hc => exact (List.getElem?_eq_some_iff.mp hc).1
  | ended hm =>
      obtain ⟨-, c, hc, -⟩ := h.called i _ hm
      exact (List.getElem?_eq_some_iff.mp hc).1

/-- An outcome stays. -/
theorem outcome?_perform (ha : w.Allowed history r a) (ho : r.outcome? i = some o) :
    (r.perform a).outcome? i = some o := by
  cases a with
  | settle j x =>
      rw [Run.outcome?_settle, if_neg]
      · exact ho
      · rintro ⟨rfl, -⟩
        rw [h.outcome?_eq_none_of_settle ha] at ho
        cases ho
  | _ => exact ho

theorem outcome?_eq_of_isSome (ha : w.Allowed history r a) (ho : (r.outcome? i).isSome) :
    (r.perform a).outcome? i = r.outcome? i := by
  obtain ⟨x, hx⟩ := Option.isSome_iff_exists.mp ho
  rw [hx, h.outcome?_perform ha hx]

theorem applied_perform (ha : w.Allowed history r a) (hi : w.Applied r.outcome? i) :
    w.Applied (r.perform a).outcome? i := by
  intro d hd
  obtain ⟨x, hx, hsuccess⟩ := hi d hd
  exact ⟨x, h.outcome?_perform ha hx, hsuccess⟩

theorem settled_perform (ha : w.Allowed history r a) (hi : w.Settled r.outcome? i) :
    w.Settled (r.perform a).outcome? i := by
  intro d hd
  rw [h.outcome?_eq_of_isSome ha (hi d hd)]
  exact hi d hd

theorem failedNeed?_perform (ha : w.Allowed history r a) (hi : w.Settled r.outcome? i) :
    w.failedNeed? (r.perform a) i = w.failedNeed? r i := by
  rw [failedNeed?, failedNeed?]
  refine List.find?_congr fun d hd => ?_
  rw [h.outcome?_eq_of_isSome ha (hi d hd)]

theorem justified_perform (ha : w.Allowed history r a) (hi : w.Justified history r i o) :
    w.Justified history (r.perform a) i o := by
  cases hi with
  | skip hs hd =>
      exact .skip (h.settled_perform ha hs) ((h.failedNeed?_perform ha hs).trans hd)
  | pass happlied hc hm => exact .pass (h.applied_perform ha happlied) hc hm
  | ended happlied hc hm he => exact .ended (h.applied_perform ha happlied) hc hm he

/-- The outcome that is given is justified. -/
theorem justified_of_settle (ha : w.Allowed history r (.settle i o)) :
    w.Justified history r i o := by
  cases ha with
  | skip _ _ hs hd => exact .skip hs hd
  | pass _ hc hm happlied => exact .pass happlied hc hm
  | ended hm he =>
      obtain ⟨happlied, c, hc, hmutation⟩ := h.called i _ hm
      exact .ended happlied hc hmutation he

theorem perform_call {m : Mutation} (ha : w.Allowed history r (.call i m)) :
    w.Sound history (r.perform (.call i m)) := by
  -- These need that the act is allowed, which the case split takes apart.
  have hjustified := fun i o ho => h.justified_perform ha (h.justified i o ho)
  have hcalled := fun j k hm => And.imp_left (h.applied_perform ha) (h.called j k hm)
  have happlied := h.applied_perform ha (i := i)
  cases ha with
  | call _ hroom hfresh hc hm hi =>
      obtain ⟨hnone, hnew⟩ := Run.isLaunched_eq_false.mp hfresh
      refine ⟨h.length, ?_, ?_, ?_, ?_, hjustified⟩
      · intro j k hk
        rcases List.mem_append.mp hk with hk | hk
        · exact h.waiting j k hk
        · cases List.mem_singleton.mp hk
          exact hnone
      · intro j k hk
        rcases List.mem_append.mp hk with hk | hk
        · exact hcalled j k hk
        · cases List.mem_singleton.mp hk
          exact ⟨happlied hi, _, hc, hm⟩
      · change ((r.inFlight ++ [(i, m)]).map Prod.fst).Nodup
        rw [List.map_append, List.map_singleton]
        refine List.nodup_append.mpr ⟨h.nodup, by simp, ?_⟩
        rintro a ha b hb rfl
        obtain ⟨⟨j, k⟩, hk, rfl⟩ := List.mem_map.mp ha
        obtain rfl := List.mem_singleton.mp hb
        exact hnew k hk
      · change (r.inFlight ++ [(i, m)]).length ≤ w.limit
        rw [List.length_append]
        exact hroom

theorem perform_settle (ha : w.Allowed history r (.settle i o)) :
    w.Sound history (r.perform (.settle i o)) := by
  refine ⟨?_, ?_, ?_, ?_, ?_, ?_⟩
  · rw [Run.length_outcomes_perform, h.length]
  · intro j k hk
    obtain ⟨hk, hj⟩ := List.mem_filter.mp hk
    rw [Run.outcome?_settle, if_neg (fun he => of_decide_eq_true hj he.1)]
    exact h.waiting j k hk
  · intro j k hk
    obtain ⟨happlied, hc⟩ := h.called j k (List.mem_filter.mp hk).1
    exact ⟨h.applied_perform ha happlied, hc⟩
  · exact h.nodup.sublist (List.filter_sublist.map Prod.fst)
  · exact (List.length_filter_le ..).trans h.bounded
  · intro j x hx
    rw [Run.outcome?_settle] at hx
    split at hx
    · next hj =>
        cases hx
        rw [hj.1]
        exact h.justified_perform ha (h.justified_of_settle ha)
    · exact h.justified_perform ha (h.justified j x hx)

/-- A success is that of the planned action. -/
theorem eq_ofAction {c : Change} (hc : w.changes[i]? = some c) (ho : r.outcome? i = some o)
    (hsuccess : o.isSuccess = true) : o = .ofAction c.action := by
  cases h.justified i o ho with
  | skip => cases hsuccess
  | pass _ hc' _ =>
      cases hc.symm.trans hc'
      cases c with
      | unreadable d error => cases hsuccess
      | _ => rfl
  | @ended c' m result _ _ _ _ =>
      rcases result with error | ⟨⟩
      · cases hsuccess
      · rw [ended, hc]
        rfl

/-- What is allowed keeps a run sound. -/
theorem perform (ha : w.Allowed history r a) : w.Sound history (r.perform a) := by
  cases a with
  | call i m => exact h.perform_call ha
  | settle i o => exact h.perform_settle ha
  | cancel =>
      have hjustified := fun i o ho => h.justified_perform ha (h.justified i o ho)
      exact ⟨h.length, h.waiting, h.called, h.nodup, h.bounded, hjustified⟩

/-- A launched change stays launched. -/
theorem isLaunched_perform (ha : w.Allowed history r a) (hi : r.isLaunched i = true) :
    (r.perform a).isLaunched i = true := by
  by_contra hne
  rw [Bool.not_eq_true, Run.isLaunched_eq_false] at hne
  rw [← Bool.not_eq_false, Run.isLaunched_eq_false] at hi
  refine hi ⟨?_, fun m hm => ?_⟩
  · cases ho : r.outcome? i with
    | none => rfl
    | some o =>
        rw [h.outcome?_perform ha ho] at hne
        cases hne.1
  · cases a with
    | call j k => exact hne.2 m (List.mem_append_left _ hm)
    | settle j o =>
        by_cases hj : i = j
        · subst hj
          have hlt := h.lt_length_of_settle ha
          rw [Run.outcome?_settle, if_pos ⟨rfl, h.length.symm ▸ hlt⟩] at hne
          cases hne.1
        · exact hne.2 m (List.mem_filter.mpr ⟨hm, decide_eq_true hj⟩)
    | cancel => exact hne.2 m hm

end Sound

variable {acts : List Act}

/-- A legal list of acts keeps a run sound. -/
theorem Legal.sound (hl : w.Legal history r acts) (h : w.Sound history r) :
    w.Sound history (r.after acts) := by
  induction acts generalizing r with
  | nil => exact h
  | cons a acts ih => exact ih hl.2 (h.perform hl.1)

theorem Legal.outcome? (hl : w.Legal history r acts) (h : w.Sound history r)
    (ho : r.outcome? i = some o) : (r.after acts).outcome? i = some o := by
  induction acts generalizing r with
  | nil => exact ho
  | cons a acts ih => exact ih hl.2 (h.perform hl.1) (h.outcome?_perform hl.1 ho)

theorem Legal.isLaunched (hl : w.Legal history r acts) (h : w.Sound history r)
    (hi : r.isLaunched i = true) : (r.after acts).isLaunched i = true := by
  induction acts generalizing r with
  | nil => exact hi
  | cons a acts ih => exact ih hl.2 (h.perform hl.1) (h.isLaunched_perform hl.1 hi)

theorem Legal.applied (hl : w.Legal history r acts) (h : w.Sound history r)
    (hi : w.Applied r.outcome? i) : w.Applied (r.after acts).outcome? i := by
  induction acts generalizing r with
  | nil => exact hi
  | cons a acts ih => exact ih hl.2 (h.perform hl.1) (h.applied_perform hl.1 hi)

/-- A change that is launched is called no more. -/
theorem Legal.not_called (hl : w.Legal history r acts) (h : w.Sound history r)
    (hi : r.isLaunched i = true) : i ∉ acts.filterMap Act.called? := by
  induction acts generalizing r with
  | nil => exact List.not_mem_nil
  | cons a acts ih =>
      have hrest := ih hl.2 (h.perform hl.1) (h.isLaunched_perform hl.1 hi)
      cases a with
      | call j m =>
          cases hl.1 with
          | call _ _ hfresh =>
              rintro hm
              rcases List.mem_cons.mp hm with rfl | hm
              · rw [hi] at hfresh
                cases hfresh
              · exact hrest hm
      | _ => exact hrest

/-- No change is called twice. -/
theorem Legal.nodup_called (hl : w.Legal history r acts) (h : w.Sound history r) :
    (acts.filterMap Act.called?).Nodup := by
  induction acts generalizing r with
  | nil => exact List.nodup_nil
  | cons a acts ih =>
      have hrest := ih hl.2 (h.perform hl.1)
      cases a with
      | call j m =>
          refine List.nodup_cons.mpr ⟨?_, hrest⟩
          refine hl.2.not_called (h.perform hl.1) ?_
          rw [← Bool.not_eq_false, Run.isLaunched_eq_false]
          exact fun hn => hn.2 m (List.mem_append_right _ List.mem_cons_self)
      | _ => exact hrest

/-- What a call needs is there after it, and the change stays launched. -/
theorem Legal.of_call_mem {m : Mutation} (hl : w.Legal history r acts) (h : w.Sound history r)
    (hm : .call i m ∈ acts) :
    w.Applied (r.after acts).outcome? i ∧ (r.after acts).isLaunched i = true ∧
      ∃ c, w.changes[i]? = some c ∧ c.mutation? = some m := by
  obtain ⟨pre, post, rfl⟩ := List.append_of_mem hm
  obtain ⟨hpre, ha, hpost⟩ := hl.split
  have hsound := hpre.sound h
  have hafter : r.after (pre ++ .call i m :: post) =
      ((r.after pre).perform (.call i m)).after post := List.foldl_append
  rw [hafter]
  have happlied := hsound.applied_perform ha (i := i)
  have hnext := hsound.perform ha
  cases ha with
  | call _ _ _ hc hmutation hi =>
      refine ⟨hpost.applied hnext (happlied hi), hpost.isLaunched hnext ?_, _, hc, hmutation⟩
      rw [← Bool.not_eq_false, Run.isLaunched_eq_false]
      exact fun hn => hn.2 m (List.mem_append_right _ List.mem_cons_self)

/-- A call that is not in flight any more gave the change the outcome of its end. -/
theorem Legal.ended_of_call_mem {m : Mutation} (hl : w.Legal history r acts)
    (h : w.Sound history r) (hm : .call i m ∈ acts) (hempty : (r.after acts).inFlight = []) :
    ∃ result, .ended i result ∈ history ∧
      (r.after acts).outcome? i = some (w.ended i result) := by
  obtain ⟨happlied, hlaunched, c, hc, hmutation⟩ := hl.of_call_mem h hm
  obtain ⟨o, ho⟩ : ∃ o, (r.after acts).outcome? i = some o := by
    simpa [Run.isLaunched, hempty, Option.isSome_iff_exists] using hlaunched
  -- What the call needed is still there at the end, so the change was not skipped after it.
  cases (hl.sound h).justified i o ho with
  | skip _ hd =>
      rw [failedNeed?_eq_none happlied] at hd
      cases hd
  | pass _ hc' hm' =>
      cases hc.symm.trans hc'
      rw [hmutation] at hm'
      cases hm'
  | ended _ _ _ he => exact ⟨_, he, ho⟩

/-- A run is cancelled only where it began so or cancelling was seen. -/
theorem Legal.cancelled (hl : w.Legal history r acts) (hc : (r.after acts).cancelled = true) :
    r.cancelled = true ∨ .cancelled ∈ history := by
  induction acts generalizing r with
  | nil => exact .inl hc
  | cons a acts ih =>
      rcases ih hl.2 hc with h | h
      · cases hl.1 with
        | cancel he => exact .inr he
        | _ => exact .inl h
      · exact .inr h

end Work

end Rollout
