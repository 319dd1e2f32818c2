import Rollout.Proofs.Apply.Progress
/-!
Changes carried out one by one in their order. The outcome that a run gives to a change is
the one it gets there.
-/

namespace Rollout.Work

variable {σ : Type} (w : Work)

/-- What the call for a change answers, and what it makes of a state. -/
abbrev Answering (σ : Type) := Nat → Mutation → σ → Except ClusterError Unit × σ

/-- The next change gets its outcome, after all before it have theirs. -/
def visit (call : Answering σ) (done : List Outcome) (s : σ) (c : Change) : Outcome × σ :=
  let i := done.length
  match (w.needs i).find? fun d => (done[d]?).any fun o => !o.isSuccess with
  | some d => (.skipped ((w.changes[d]?.map fun c => c.resource.text).getD ""), s)
  | none => match c, c.mutation? with
    | .unreadable _ error, _ => (.failed error, s)
    | _, none => (.unchanged, s)
    | _, some m => match call i m s with
      | (.ok (), s) => (.ofAction c.action, s)
      | (.error e, s) => (.failed e.message, s)

def advance (call : Answering σ) (p : List Outcome × σ) (c : Change) : List Outcome × σ :=
  let next := w.visit call p.1 p.2 c
  (p.1 ++ [next.1], next.2)

/-- The outcomes of all changes carried out one by one, and the state after them. -/
def sequential (call : Answering σ) (s : σ) : List Outcome × σ :=
  w.changes.foldl (w.advance call) ([], s)

/-- The outcomes where calls have the given answers. -/
def reference (answers : Nat → Except ClusterError Unit) : List Outcome :=
  (w.sequential (fun i _ s => (answers i, s)) ()).1

/-- What holds at first and is kept by visiting the next change holds after all. -/
theorem sequential_induction (call : Answering σ) (s : σ) (P : List Outcome × σ → Prop)
    (hstart : P ([], s))
    (hstep : ∀ p c, w.changes[p.1.length]? = some c → P p → P (w.advance call p c)) :
    P (w.sequential call s) ∧ (w.sequential call s).1.length = w.changes.length := by
  -- On the changes still to visit: those after as many as have outcomes.
  have hrun : ∀ (cs : List Change) (p : List Outcome × σ), w.changes.drop p.1.length = cs → P p →
      P (cs.foldl (w.advance call) p) ∧
        (cs.foldl (w.advance call) p).1.length = p.1.length + cs.length := by
    intro cs
    induction cs with
    | nil => exact fun p _ hp => ⟨hp, rfl⟩
    | cons c cs ih =>
        intro p hdrop hp
        have hi : w.changes[p.1.length]? = some c := by
          rw [← List.head?_drop, hdrop, List.head?_cons]
        have hlen : (w.advance call p c).1.length = p.1.length + 1 := List.length_append
        have hrest : w.changes.drop (p.1.length + 1) = cs := by
          rw [← List.drop_drop, hdrop, List.drop_one, List.tail_cons]
        obtain ⟨hP, hlength⟩ := ih _ (hlen ▸ hrest) (hstep p c hi hp)
        refine ⟨hP, hlength.trans ?_⟩
        rw [hlen, List.length_cons]
        omega
  obtain ⟨hP, hlength⟩ := hrun w.changes ([], s) rfl hstart
  exact ⟨hP, hlength.trans (Nat.zero_add _)⟩

theorem length_sequential (call : Answering σ) (s : σ) :
    (w.sequential call s).1.length = w.changes.length :=
  (w.sequential_induction call s (fun _ => True) trivial fun _ _ _ _ => trivial).2

variable {w} {call : Answering σ} {done : List Outcome} {s : σ} {c : Change}

theorem visit_of_failed {d : Nat}
    (h : (w.needs done.length).find? (fun d => (done[d]?).any fun o => !o.isSuccess) = some d) :
    w.visit call done s c = (.skipped (w.dependencyText d), s) := by
  simp only [visit, h, dependencyText]

theorem visit_of_mutation?_eq_none
    (h : (w.needs done.length).find? (fun d => (done[d]?).any fun o => !o.isSuccess) = none)
    (hc : c.mutation? = none) : w.visit call done s c = (settled c, s) := by
  simp only [visit, h]
  cases c with
  | unreadable d error => rfl
  | unchanged d l => rfl
  | _ => cases hc

theorem visit_of_mutation? {m : Mutation}
    (h : (w.needs done.length).find? (fun d => (done[d]?).any fun o => !o.isSuccess) = none)
    (hi : w.changes[done.length]? = some c) (hc : c.mutation? = some m) :
    w.visit call done s c =
      (w.ended done.length (call done.length m s).1, (call done.length m s).2) := by
  simp only [visit, h, ended, hi]
  cases c with
  | unreadable d error => cases hc
  | unchanged d l => cases hc
  | _ =>
      rw [hc]
      dsimp only
      generalize call done.length m s = answer
      obtain ⟨⟨⟩ | ⟨⟨⟩⟩, t⟩ := answer <;> rfl

/-- A list of outcomes has what a run has, as far as it goes. -/
def Covers (done : List Outcome) (r : Run) : Prop :=
  ∀ i < done.length, ∀ o, r.outcome? i = some o → done[i]? = some o

theorem find?_of_covers {r : Run} (hw : w.Backward) (hi : done.length < w.changes.length)
    (hdone : Covers done r) (hs : w.Settled r.outcome? done.length) :
    (w.needs done.length).find? (fun d => (done[d]?).any fun o => !o.isSuccess) =
      w.failedNeed? r done.length := by
  refine List.find?_congr fun d hd => ?_
  obtain ⟨o, ho⟩ := Option.isSome_iff_exists.mp (hs d hd)
  rw [ho, hdone d (hw _ hi d hd) o ho]

variable {history : List Event} {answers : Nat → Except ClusterError Unit} {r : Run}

theorem Applied.settled {outcome? : Nat → Option Outcome} {i : Nat} (h : w.Applied outcome? i) :
    w.Settled outcome? i := by
  intro d hd
  obtain ⟨o, ho, -⟩ := h d hd
  exact Option.isSome_of_eq_some ho

/-- A change visited in its turn gets the outcome that is justified in a run, without a call or
from the end of its call. -/
theorem visit_of_justified {o : Outcome} (hw : w.Backward) (hdone : Covers done r)
    (hi : w.changes[done.length]? = some c) (h : w.Justified history r done.length o)
    (call : Answering σ) (s : σ) :
    ((o.isSkipped = true ∨ c.mutation? = none) ∧ w.visit call done s c = (o, s)) ∨
      ∃ m result, c.mutation? = some m ∧ .ended done.length result ∈ history ∧
        o = w.ended done.length result ∧ w.visit call done s c =
          (w.ended done.length (call done.length m s).1, (call done.length m s).2) := by
  have hlt := (List.getElem?_eq_some_iff.mp hi).1
  cases h with
  | skip hs hd =>
      have hfailed := (find?_of_covers hw hlt hdone hs).trans hd
      exact .inl ⟨.inl rfl, visit_of_failed hfailed⟩
  | pass happlied hc hm =>
      cases hi.symm.trans hc
      have hnone := (find?_of_covers hw hlt hdone happlied.settled).trans
        (failedNeed?_eq_none happlied)
      exact .inl ⟨.inr hm, visit_of_mutation?_eq_none hnone hm⟩
  | ended happlied hc hm he =>
      cases hi.symm.trans hc
      have hnone := (find?_of_covers hw hlt hdone happlied.settled).trans
        (failedNeed?_eq_none happlied)
      exact .inr ⟨_, _, hm, he, rfl, visit_of_mutation? hnone hi hm⟩

theorem covers_advance {call : Answering σ} {s : σ} (hdone : Covers done r)
    (hvisit : ∀ o, r.outcome? done.length = some o → (w.visit call done s c).1 = o) :
    Covers (w.advance call (done, s) c).1 r := by
  intro j hj o ho
  rw [advance, List.length_append, List.length_singleton] at hj
  dsimp only [advance] at hj ⊢
  rcases Nat.lt_or_eq_of_le (Nat.le_of_lt_succ hj) with hlt | rfl
  · rw [List.getElem?_append_left hlt]
    exact hdone j hlt o ho
  · rw [hvisit o ho, List.getElem?_concat_length]

/-- An outcome of a run is the one of the changes carried out one by one. -/
theorem reference_of_outcome? {i : Nat} {o : Outcome} (hw : w.Backward) (h : w.Sound history r)
    (hanswers : ∀ i result, .ended i result ∈ history → answers i = result)
    (ho : r.outcome? i = some o) : (w.reference answers)[i]? = some o := by
  obtain ⟨hcovers, hlength⟩ := w.sequential_induction (fun i _ s => (answers i, s)) ()
    (fun p => Covers p.1 r) (fun _ hi => nomatch hi) (fun p c hi hp => by
      refine covers_advance hp fun o ho => ?_
      rcases visit_of_justified hw hp hi (h.justified _ o ho) _ p.2 with
        ⟨-, hvisit⟩ | ⟨m, result, -, he, rfl, hvisit⟩
      · rw [hvisit]
      · rw [hvisit, hanswers _ _ he])
  refine hcovers i ?_ o ho
  rw [hlength, ← h.length]
  exact Run.lt_length_of_outcome? ho

end Rollout.Work
