import Rollout.Apply.Run
/-!
What is done in a run, act by act. Every act of a trace is allowed where it is done.
-/

namespace Rollout

def Run.after (r : Run) (acts : List Act) : Run := acts.foldl Run.perform r

def Act.called? : Act → Option Nat
  | .call i _ => some i
  | _ => none

namespace Work

variable (w : Work)

/-- The acts of looking at changes one after the other. -/
def looks (r : Run) : List (Change × Nat) → List Act
  | [] => []
  | e :: es => match w.act? r e with
    | some a => a :: looks (r.perform a) es
    | none => looks r es

def launches (r : Run) : List Act := if r.cancelled then [] else w.looks r w.changes.zipIdx

def trace (r : Run) : List Event → List Act
  | [] => w.launches r
  | e :: history =>
    w.launches r ++ ((w.reaction? (w.launch r) e).toList ++ trace (w.step (w.launch r) e) history)

theorem after_looks (r : Run) (es : List (Change × Nat)) :
    r.after (w.looks r es) = es.foldl w.consider r := by
  induction es generalizing r with
  | nil => rfl
  | cons e es ih =>
      rw [looks, List.foldl_cons, consider]
      cases w.act? r e with
      | none => exact ih r
      | some a => exact ih (r.perform a)

theorem after_launches (r : Run) : r.after (w.launches r) = w.launch r := by
  unfold launches launch
  split
  · rfl
  · exact w.after_looks r _

theorem after_reaction? (r : Run) (e : Event) : r.after (w.reaction? r e).toList = w.step r e := by
  rw [step]
  cases w.reaction? r e <;> rfl

/-- The acts of a trace make the run. -/
theorem after_trace (r : Run) (history : List Event) :
    r.after (w.trace r history) = w.replay r history := by
  induction history generalizing r with
  | nil => exact w.after_launches r
  | cons e history ih =>
      rw [trace, replay, Run.after, List.foldl_append, List.foldl_append]
      change Run.after ((r.after (w.launches r)).after _) _ = _
      rw [after_launches, after_reaction?, ih]

/-- The dependencies of a change have outcomes, and they are successes. -/
def Applied (outcome? : Nat → Option Outcome) (i : Nat) : Prop :=
  ∀ d ∈ w.needs i, ∃ o, outcome? d = some o ∧ o.isSuccess = true

/-- The dependencies of a change have outcomes. -/
def Settled (outcome? : Nat → Option Outcome) (i : Nat) : Prop :=
  ∀ d ∈ w.needs i, (outcome? d).isSome

/-- What may be done in a run, where the calls end as they do in a history. -/
inductive Allowed (history : List Event) (r : Run) : Act → Prop where
  | call {i : Nat} {c : Change} {m : Mutation} : r.cancelled = false →
      r.inFlight.length < w.limit → r.isLaunched i = false → w.changes[i]? = some c →
      c.mutation? = some m → w.Applied r.outcome? i → Allowed history r (.call i m)
  | skip {i d : Nat} : r.isLaunched i = false → i < w.changes.length → w.Settled r.outcome? i →
      w.failedNeed? r i = some d → Allowed history r (.settle i (.skipped (w.dependencyText d)))
  | pass {i : Nat} {c : Change} : r.isLaunched i = false → w.changes[i]? = some c →
      c.mutation? = none → w.Applied r.outcome? i → Allowed history r (.settle i (settled c))
  | ended {i : Nat} {m : Mutation} {result : Except ClusterError Unit} : (i, m) ∈ r.inFlight →
      .ended i result ∈ history → Allowed history r (.settle i (w.ended i result))
  | cancel : .cancelled ∈ history → Allowed history r .cancel

/-- Every act is allowed where it is done. -/
def Legal (history : List Event) (r : Run) : List Act → Prop
  | [] => True
  | a :: acts => w.Allowed history r a ∧ Legal history (r.perform a) acts

variable {w} {history : List Event} {r : Run}

theorem legal_append {acts acts' : List Act} (h : w.Legal history r acts)
    (h' : w.Legal history (r.after acts) acts') : w.Legal history r (acts ++ acts') := by
  induction acts generalizing r with
  | nil => exact h'
  | cons a acts ih => exact ⟨h.1, ih h.2 h'⟩

theorem Legal.left {acts acts' : List Act} (h : w.Legal history r (acts ++ acts')) :
    w.Legal history r acts := by
  induction acts generalizing r with
  | nil => trivial
  | cons a acts ih => exact ⟨h.1, ih h.2⟩

theorem Legal.right {acts acts' : List Act} (h : w.Legal history r (acts ++ acts')) :
    w.Legal history (r.after acts) acts' := by
  induction acts generalizing r with
  | nil => exact h
  | cons a acts ih => exact ih h.2

theorem Legal.split {pre post : List Act} {a : Act} (h : w.Legal history r (pre ++ a :: post)) :
    w.Legal history r pre ∧ w.Allowed history (r.after pre) a ∧
      w.Legal history ((r.after pre).perform a) post :=
  ⟨h.left, h.right.1, h.right.2⟩

/-- No call is launched in a run that is cancelled. -/
theorem Legal.called_eq_nil {acts : List Act} (h : w.Legal history r acts)
    (hr : r.cancelled = true) : acts.filterMap Act.called? = [] := by
  induction acts generalizing r with
  | nil => rfl
  | cons a acts ih =>
      cases h.1 with
      | call hopen =>
          rw [hr] at hopen
          cases hopen
      | cancel => exact ih h.2 rfl
      | _ => exact ih h.2 hr

theorem settled_of_any_isNone {i : Nat}
    (h : ((w.needs i).any fun d => (r.outcome? d).isNone) = false) : w.Settled r.outcome? i := by
  intro d hd
  rw [List.any_eq_false] at h
  simpa [Option.isSome_iff_ne_none] using h d hd

theorem applied_of_failedNeed?_eq_none {i : Nat} (h : w.Settled r.outcome? i)
    (hf : w.failedNeed? r i = none) : w.Applied r.outcome? i := by
  intro d hd
  obtain ⟨o, ho⟩ := Option.isSome_iff_exists.mp (h d hd)
  rw [failedNeed?, List.find?_eq_none] at hf
  refine ⟨o, ho, ?_⟩
  simpa [ho] using hf d hd

theorem failedNeed?_eq_none {i : Nat} (h : w.Applied r.outcome? i) : w.failedNeed? r i = none := by
  rw [failedNeed?, List.find?_eq_none]
  intro d hd
  obtain ⟨o, ho, hsuccess⟩ := h d hd
  simp [ho, hsuccess]

/-- Looking at a change does what is allowed. -/
theorem allowed_of_act? {e : Change × Nat} {a : Act} (hr : r.cancelled = false)
    (he : w.changes[e.2]? = some e.1) (h : w.act? r e = some a) : w.Allowed history r a := by
  rw [act?] at h
  split at h
  · cases h
  · next hroom =>
      rw [not_or, Bool.not_eq_true, Nat.not_le] at hroom
      obtain ⟨hfresh, hroom⟩ := hroom
      rw [verdict?] at h
      split at h
      · cases h
      · next hwait =>
          have hsettled := settled_of_any_isNone (Bool.not_eq_true _ ▸ hwait)
          split at h
          · next d hd =>
              cases h
              exact .skip hfresh (List.getElem?_eq_some_iff.mp he).1 hsettled hd
          · next hnone =>
              have happlied := applied_of_failedNeed?_eq_none hsettled hnone
              split at h
              · next m hm =>
                  cases h
                  exact .call hr hroom hfresh he hm happlied
              · next hm =>
                  cases h
                  exact .pass hfresh he hm happlied

/-- Looking at a change launches it, by a call or an outcome. -/
theorem act?_cases {e : Change × Nat} {a : Act} (h : w.act? r e = some a) :
    r.isLaunched e.2 = false ∧ ((∃ m, a = .call e.2 m) ∨ ∃ o, a = .settle e.2 o) := by
  rw [act?] at h
  split at h
  · cases h
  · next hroom =>
      rw [not_or, Bool.not_eq_true] at hroom
      refine ⟨hroom.1, ?_⟩
      rw [verdict?] at h
      split at h
      · cases h
      · split at h
        · exact .inr ⟨_, (Option.some.inj h).symm⟩
        · split at h
          · exact .inl ⟨_, (Option.some.inj h).symm⟩
          · exact .inr ⟨_, (Option.some.inj h).symm⟩

theorem cancelled_perform_of_act? {e : Change × Nat} {a : Act} (h : w.act? r e = some a) :
    (r.perform a).cancelled = r.cancelled := by
  obtain ⟨-, ⟨m, rfl⟩ | ⟨o, rfl⟩⟩ := act?_cases h <;> rfl

theorem legal_looks {es : List (Change × Nat)} (hr : r.cancelled = false)
    (hes : ∀ e ∈ es, w.changes[e.2]? = some e.1) : w.Legal history r (w.looks r es) := by
  induction es generalizing r with
  | nil => trivial
  | cons e es ih =>
      rw [List.forall_mem_cons] at hes
      rw [looks]
      split
      · next a ha =>
          exact ⟨allowed_of_act? hr hes.1 ha, ih ((cancelled_perform_of_act? ha).trans hr) hes.2⟩
      · exact ih hr hes.2

theorem legal_launches : w.Legal history r (w.launches r) := by
  unfold launches
  split
  · trivial
  · next hr =>
      refine legal_looks (Bool.not_eq_true _ ▸ hr) ?_
      rintro ⟨c, i⟩ he
      exact List.mem_zipIdx_iff_getElem?.mp he

theorem allowed_of_reaction? {e : Event} {a : Act} (he : e ∈ history)
    (h : w.reaction? r e = some a) : w.Allowed history r a := by
  cases e with
  | cancelled =>
      cases h
      exact .cancel he
  | ended i result =>
      rw [reaction?] at h
      split at h
      · next hany =>
          cases h
          obtain ⟨⟨j, m⟩, hm, hj⟩ := List.any_eq_true.mp hany
          obtain rfl : j = i := by simpa using hj
          exact .ended hm he
      · cases h

/-- The trace of a history does what is allowed. -/
theorem legal_trace {events : List Event} (hevents : ∀ e ∈ events, e ∈ history) :
    w.Legal history r (w.trace r events) := by
  -- On the events that are left; the history that they are from stays the same.
  induction events generalizing r with
  | nil => exact legal_launches
  | cons e events ih =>
      rw [List.forall_mem_cons] at hevents
      rw [trace]
      refine legal_append legal_launches (legal_append ?_ ?_)
      · rw [after_launches]
        cases hreaction : w.reaction? (w.launch r) e with
        | none => trivial
        | some a => exact ⟨allowed_of_reaction? hevents.1 hreaction, trivial⟩
      · rw [after_launches, after_reaction?]
        exact ih hevents.2

end Work

end Rollout
