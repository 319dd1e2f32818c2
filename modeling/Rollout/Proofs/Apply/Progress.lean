import Rollout.Proofs.Apply.Soundness
/-!
Runs get on: while a run is not cancelled, a look at all changes launches a call or leaves
nothing open, and every event that counts leaves less to do.
-/

namespace Rollout

namespace Work

variable {w : Work} {r : Run} {i : Nat}

/-- Every change comes after those that are before it in the list. -/
def Backward (w : Work) : Prop := ∀ i < w.changes.length, ∀ d ∈ w.needs i, d < i

instance (w : Work) : Decidable w.Backward :=
  inferInstanceAs (Decidable (∀ i < w.changes.length, ∀ d ∈ w.needs i, d < i))

/-- A look at a change leaves the run as it is or does one act. -/
theorem consider_cases (w : Work) (r : Run) (e : Change × Nat) :
    w.act? r e = none ∧ w.consider r e = r ∨
      ∃ a, w.act? r e = some a ∧ w.consider r e = r.perform a := by
  rw [consider]
  cases h : w.act? r e with
  | none => exact .inl ⟨rfl, rfl⟩
  | some a => exact .inr ⟨a, rfl, rfl⟩

theorem isSome_outcome?_perform (a : Act) (h : (r.outcome? i).isSome) :
    ((r.perform a).outcome? i).isSome := by
  cases a with
  | settle j o =>
      rw [Run.outcome?_settle]
      split
      · rfl
      · exact h
  | _ => exact h

theorem isSome_outcome?_after (acts : List Act) (h : (r.outcome? i).isSome) :
    ((r.after acts).outcome? i).isSome := by
  induction acts generalizing r with
  | nil => exact h
  | cons a acts ih => exact ih (isSome_outcome?_perform a h)

theorem isSome_outcome?_consider (e : Change × Nat) (h : (r.outcome? i).isSome) :
    ((w.consider r e).outcome? i).isSome := by
  rcases w.consider_cases r e with ⟨-, hr⟩ | ⟨a, -, hr⟩
  · rwa [hr]
  · rw [hr]
    exact isSome_outcome?_perform a h

theorem length_outcomes_consider (e : Change × Nat) :
    (w.consider r e).outcomes.length = r.outcomes.length := by
  rcases w.consider_cases r e with ⟨-, hr⟩ | ⟨a, -, hr⟩
  · rw [hr]
  · rw [hr, Run.length_outcomes_perform]

/-- Looking at a change takes no call out of flight. -/
theorem inFlight_eq_nil_of_consider {e : Change × Nat}
    (h : (w.consider r e).inFlight = []) : r.inFlight = [] := by
  rcases w.consider_cases r e with ⟨-, hr⟩ | ⟨a, ha, hr⟩
  · rwa [hr] at h
  · rw [hr] at h
    obtain ⟨hfresh, ⟨m, rfl⟩ | ⟨o, rfl⟩⟩ := act?_cases ha
    · exact absurd h (List.append_ne_nil_of_right_ne_nil _ (List.cons_ne_nil _ _))
    · have hsame : r.inFlight.filter (·.1 ≠ e.2) = r.inFlight := by
        refine List.filter_eq_self.mpr fun ⟨j, m⟩ hm => decide_eq_true ?_
        rintro rfl
        exact (Run.isLaunched_eq_false.mp hfresh).2 m hm
      exact hsame ▸ h

/-- A change that is looked at when nothing it needs is open is launched. -/
theorem isSome_outcome?_of_consider {c : Change} (hi : i < r.outcomes.length) (hlimit : 0 < w.limit)
    (hneeds : w.Settled r.outcome? i) (h : (w.consider r (c, i)).inFlight = []) :
    ((w.consider r (c, i)).outcome? i).isSome := by
  have hempty := inFlight_eq_nil_of_consider h
  cases ho : (r.outcome? i).isSome with
  | true => exact isSome_outcome?_consider _ ho
  | false =>
      have hopen : ¬ (r.isLaunched i = true ∨ w.limit ≤ r.inFlight.length) := by
        rw [hempty, Run.isLaunched, ho, hempty]
        simpa using Nat.ne_of_gt hlimit
      have hready : ((w.needs i).any fun d => (r.outcome? d).isNone) = false := by
        rw [List.any_eq_false]
        intro d hd
        simpa [Option.isSome_iff_ne_none] using hneeds d hd
      obtain ⟨a, ha⟩ : ∃ a, w.act? r (c, i) = some a := by
        rw [act?, if_neg hopen, verdict?, if_neg (by rw [hready]; exact Bool.false_ne_true)]
        split
        · exact ⟨_, rfl⟩
        · split <;> exact ⟨_, rfl⟩
      rw [consider, ha] at h ⊢
      obtain ⟨-, ⟨m, rfl⟩ | ⟨o, rfl⟩⟩ := act?_cases ha
      · exact absurd h (List.append_ne_nil_of_right_ne_nil _ (List.cons_ne_nil _ _))
      · exact Option.isSome_of_eq_some (Run.outcome?_settle.trans (if_pos ⟨rfl, hi⟩))

/-- If no call is in flight after looking at changes in their order, all have outcomes. -/
theorem isSome_outcome?_of_foldl {cs : List Change} {k : Nat} (hw : w.Backward)
    (hlimit : 0 < w.limit) (hlen : r.outcomes.length = w.changes.length)
    (hcs : k + cs.length = w.changes.length)
    (hdone : r.inFlight = [] → ∀ i < k, (r.outcome? i).isSome)
    (h : ((cs.zipIdx k).foldl w.consider r).inFlight = []) :
    ∀ i < w.changes.length, (((cs.zipIdx k).foldl w.consider r).outcome? i).isSome := by
  -- On the changes not looked at; `hdone` is what is kept of those that were.
  induction cs generalizing k r with
  | nil => exact fun i hi => hdone h i (by rw [← hcs] at hi; exact hi)
  | cons c cs ih =>
      rw [List.length_cons] at hcs
      refine ih ((length_outcomes_consider _).trans hlen) (by omega) ?_ h
      intro hempty i hi
      have hbefore := hdone (inFlight_eq_nil_of_consider hempty)
      rcases Nat.lt_or_eq_of_le (Nat.le_of_lt_succ hi) with hlt | rfl
      · exact isSome_outcome?_consider _ (hbefore i hlt)
      · have hi : i < w.changes.length := by omega
        exact isSome_outcome?_of_consider (hlen ▸ hi) hlimit
          (fun d hd => hbefore d (hw i hi d hd)) hempty

/-- A run that is not cancelled ends with an outcome for every change. -/
theorem isSome_outcome?_of_launch (hw : w.Backward) (hlimit : 0 < w.limit)
    (hlen : r.outcomes.length = w.changes.length) (hr : r.cancelled = false)
    (h : (w.launch r).inFlight = []) :
    ∀ i < w.changes.length, ((w.launch r).outcome? i).isSome := by
  rw [launch, if_neg (by rw [hr]; nofun)] at h ⊢
  exact isSome_outcome?_of_foldl hw hlimit hlen (Nat.zero_add _) (fun _ _ hi => nomatch hi) h

end Work

namespace Run

/-- The changes without an outcome, and one more until cancelling is seen. -/
def remaining (r : Run) : Nat := r.outcomes.countP Option.isNone + if r.cancelled then 0 else 1

theorem remaining_start_le (w : Work) (cancelled : Bool) :
    (w.start cancelled).remaining ≤ w.changes.length + 1 := by
  refine Nat.add_le_add (List.countP_le_length.trans_eq List.length_replicate) ?_
  split
  · exact Nat.zero_le 1
  · exact le_rfl

theorem remaining_settle_le (r : Run) (i : Nat) (o : Outcome) :
    (r.perform (.settle i o)).remaining ≤ r.remaining := by
  refine Nat.add_le_add_right ?_ _
  change (r.outcomes.set i (some o)).countP Option.isNone ≤ _
  by_cases hi : i < r.outcomes.length
  · rw [List.countP_set hi]
    simp
  · rw [List.set_eq_of_length_le (Nat.le_of_not_lt hi)]

theorem remaining_settle_lt {r : Run} {i : Nat} (hi : i < r.outcomes.length)
    (h : r.outcome? i = none) (o : Outcome) :
    (r.perform (.settle i o)).remaining < r.remaining := by
  refine Nat.add_lt_add_right ?_ _
  change (r.outcomes.set i (some o)).countP Option.isNone < _
  have hnone : r.outcomes[i] = none := by
    rw [outcome?, List.getElem?_eq_getElem hi] at h
    simpa using h
  have hpos : 0 < r.outcomes.countP Option.isNone :=
    List.countP_pos_iff.mpr ⟨_, List.getElem_mem hi, by rw [hnone]; rfl⟩
  rw [List.countP_set hi, hnone, Option.isNone_none, Option.isNone_some, if_pos rfl,
    if_neg Bool.false_ne_true]
  exact Nat.sub_lt hpos Nat.one_pos

theorem remaining_cancel_lt {r : Run} (h : r.cancelled = false) :
    (r.perform .cancel).remaining < r.remaining := by
  rw [remaining, remaining, h]
  exact Nat.lt_succ_self _

theorem remaining_perform_le (r : Run) (a : Act) : (r.perform a).remaining ≤ r.remaining := by
  cases a with
  | call i m => exact le_rfl
  | settle i o => exact r.remaining_settle_le i o
  | cancel =>
      refine Nat.add_le_add_left ?_ _
      exact Nat.zero_le _

theorem remaining_after_le (r : Run) (acts : List Act) :
    (r.after acts).remaining ≤ r.remaining := by
  induction acts generalizing r with
  | nil => exact le_rfl
  | cons a acts ih => exact (ih (r.perform a)).trans (r.remaining_perform_le a)

end Run

end Rollout
