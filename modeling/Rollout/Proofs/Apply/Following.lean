import Mathlib.Logic.Function.Basic
import Rollout.Apply.Engine
import Rollout.Proofs.Apply.Sequential
/-!
Following a run with a server. It ends with no call in flight, and each of its calls ended
once.
-/

namespace Rollout

namespace Event

def index? : Event → Option Nat
  | .ended i _ => some i
  | .cancelled => none

def answer? (i : Nat) : Event → Option (Except ClusterError Unit)
  | .ended j result => if j = i then some result else none
  | .cancelled => none

/-- What the calls of a history answered. -/
def answers (history : List Event) (i : Nat) : Except ClusterError Unit :=
  (history.findSome? (answer? i)).getD (.ok ())

theorem answers_of_mem {history : List Event} {i : Nat} {result : Except ClusterError Unit}
    (hnodup : (history.filterMap index?).Nodup) (h : .ended i result ∈ history) :
    answers history i = result := by
  induction history with
  | nil => cases h
  | cons e history ih =>
      rw [answers, List.findSome?_cons]
      cases e with
      | cancelled =>
          exact ih hnodup ((List.mem_cons.mp h).resolve_left nofun)
      | ended j x =>
          rw [List.filterMap_cons] at hnodup
          obtain ⟨hj, hrest⟩ := List.nodup_cons.mp hnodup
          rcases List.mem_cons.mp h with he | hm
          · cases he
            simp [answer?]
          · have hne : j ≠ i := by
              rintro rfl
              exact hj (List.mem_filterMap.mpr ⟨_, hm, rfl⟩)
            rw [answer?, if_neg hne]
            exact ih hrest hm

end Event

/-- What is relied on of a server in certain states: while calls are in flight one of them ends,
or it is seen for the first time that applying was cancelled. From then on it is seen whenever it
is asked for. -/
structure Server.Fair {S : Type} (server : Server S) (valid : S → Prop) : Prop where
  await : ∀ s calls seen, valid s → calls ≠ [] →
    valid (server.await s calls seen).2 ∧
      ((∃ i m result, (i, m) ∈ calls ∧ (server.await s calls seen).1 = .ended i result) ∨
        seen = false ∧ (server.await s calls seen).1 = .cancelled ∧
          (server.isCancelled (server.await s calls seen).2).1 = true)
  await_stays : ∀ s calls seen, valid s → calls ≠ [] → (server.isCancelled s).1 = true →
    (server.isCancelled (server.await s calls seen).2).1 = true
  ask : ∀ s, valid s → valid (server.isCancelled s).2
  ask_stays : ∀ s, valid s → (server.isCancelled s).1 = true →
    (server.isCancelled (server.isCancelled s).2).1 = true

abbrev Objects := Key → Option Document

/-- What calls do, told for the object that each is about: what they answer, and what they make of
it. -/
structure Effects where
  place : Mutation → Key
  act : Mutation → Option Document → Except ClusterError Unit × Option Document

namespace Effects

variable (effects : Effects) (objects : Objects) (m : Mutation)

def answer : Except ClusterError Unit := (effects.act m (objects (effects.place m))).1

def after : Objects :=
  Function.update objects (effects.place m) (effects.act m (objects (effects.place m))).2

end Effects

/-- What is relied on of a server in certain states, in which applying is not cancelled: while
calls are in flight one of them ends, and its effect is on its own object alone. -/
structure Server.Local {S : Type} (server : Server S) (valid : S → Prop) (objects : S → Objects)
    (effects : Effects) : Prop where
  await : ∀ s calls seen, valid s → calls ≠ [] →
    valid (server.await s calls seen).2 ∧ ∃ i m, (i, m) ∈ calls ∧
      (server.await s calls seen).1 = .ended i (effects.answer (objects s) m) ∧
      objects (server.await s calls seen).2 = effects.after (objects s) m
  ask : ∀ s, valid s → (server.isCancelled s).1 = false ∧ valid (server.isCancelled s).2 ∧
    objects (server.isCancelled s).2 = objects s

theorem Server.Local.fair {S : Type} {server : Server S} {valid : S → Prop}
    {objects : S → Objects} {effects : Effects} (h : server.Local valid objects effects) :
    server.Fair valid where
  await s calls seen hs hcalls := by
    obtain ⟨hvalid, i, m, hm, he, -⟩ := h.await s calls seen hs hcalls
    exact ⟨hvalid, .inl ⟨i, m, _, hm, he⟩⟩
  await_stays s calls seen hs _ hc := by
    rw [(h.ask s hs).1] at hc
    cases hc
  ask s hs := (h.ask s hs).2.1
  ask_stays s hs hc := by
    rw [(h.ask s hs).1] at hc
    cases hc

theorem Server.Local.await_ne_cancelled {S : Type} {server : Server S} {valid : S → Prop}
    {objects : S → Objects} {effects : Effects} (h : server.Local valid objects effects) {s : S}
    {calls : List (Nat × Mutation)} {seen : Bool} (hs : valid s) (hcalls : calls ≠ []) :
    (server.await s calls seen).1 ≠ .cancelled := by
  obtain ⟨-, i, m, -, hended, -⟩ := h.await s calls seen hs hcalls
  rw [hended]
  nofun

namespace Work

variable {w : Work} {history : List Event} {r : Run}

theorem Sound.launch (h : w.Sound history r) : w.Sound history (w.launch r) := by
  rw [← after_launches]
  exact legal_launches.sound h

theorem remaining_launch_le (w : Work) (r : Run) : (w.launch r).remaining ≤ r.remaining := by
  rw [← after_launches]
  exact r.remaining_after_le _

theorem cancelled_launch (w : Work) (r : Run) : (w.launch r).cancelled = r.cancelled := by
  have hfold : ∀ es : List (Change × Nat), (es.foldl w.consider r).cancelled = r.cancelled := by
    intro es
    induction es generalizing r with
    | nil => rfl
    | cons e es ih =>
        refine (ih (w.consider r e)).trans ?_
        rcases w.consider_cases r e with ⟨-, hr⟩ | ⟨a, ha, hr⟩
        · rw [hr]
        · rw [hr, cancelled_perform_of_act? ha]
  unfold Work.launch
  split
  · rfl
  · exact hfold _

theorem isSome_outcome?_launch (w : Work) {r : Run} {i : Nat} (h : (r.outcome? i).isSome) :
    ((w.launch r).outcome? i).isSome := by
  rw [← after_launches]
  exact isSome_outcome?_after _ h

theorem isSome_outcome?_step (w : Work) {r : Run} {i : Nat} (e : Event)
    (h : (r.outcome? i).isSome) : ((w.step r e).outcome? i).isSome := by
  rw [← after_reaction?]
  exact isSome_outcome?_after _ h

theorem cancelled_step_ended (w : Work) (r : Run) (i : Nat) (result : Except ClusterError Unit) :
    (w.step r (.ended i result)).cancelled = r.cancelled := by
  rw [Work.step, reaction?]
  split <;> rfl

theorem step_ended_eq {i : Nat} {m : Mutation} (hm : (i, m) ∈ r.inFlight)
    (result : Except ClusterError Unit) :
    w.step r (.ended i result) = r.perform (.settle i (w.ended i result)) := by
  have hany : r.inFlight.any (·.1 = i) = true :=
    List.any_eq_true.mpr ⟨(i, m), hm, decide_eq_true rfl⟩
  rw [Work.step, reaction?, if_pos hany, Option.elim_some]

theorem Sound.outcome?_step_ended {i : Nat} {m : Mutation} {result : Except ClusterError Unit}
    (h : w.Sound history r) (hm : (i, m) ∈ r.inFlight) (he : .ended i result ∈ history) :
    (w.step r (.ended i result)).outcome? i = some (w.ended i result) := by
  have hlt : i < r.outcomes.length := h.length.symm ▸ h.lt_length_of_settle (.ended hm he)
  rw [step_ended_eq hm, Run.outcome?_settle, if_pos ⟨rfl, hlt⟩]

/-- The end of a call in flight is allowed and leaves less to do. -/
theorem Sound.step_ended {i : Nat} {m : Mutation} {result : Except ClusterError Unit}
    (h : w.Sound history r) (hm : (i, m) ∈ r.inFlight) (he : .ended i result ∈ history) :
    w.Sound history (w.step r (.ended i result)) ∧
      (w.step r (.ended i result)).remaining < r.remaining ∧
      ((w.step r (.ended i result)).outcome? i).isSome := by
  have hallowed : w.Allowed history r (.settle i (w.ended i result)) := .ended hm he
  have hlt : i < r.outcomes.length := h.length.symm ▸ h.lt_length_of_settle hallowed
  refine ⟨?_, ?_, Option.isSome_of_eq_some (h.outcome?_step_ended hm he)⟩
  · rw [step_ended_eq hm]
    exact h.perform hallowed
  · rw [step_ended_eq hm]
    exact Run.remaining_settle_lt hlt (h.waiting i m hm) _

theorem Sound.step_cancelled (h : w.Sound history r) (hr : r.cancelled = false)
    (he : .cancelled ∈ history) :
    w.Sound history (w.step r .cancelled) ∧ (w.step r .cancelled).remaining < r.remaining :=
  ⟨h.perform (.cancel he), Run.remaining_cancel_lt hr⟩

end Work

namespace Server

variable {S : Type} (server : Server S)

def events (w : Work) : Nat → Run → S → List Event
  | 0, _, _ => []
  | fuel + 1, r, s =>
    let r := w.launch r
    if r.inFlight.isEmpty then []
    else
      let (event, s) := server.await s r.inFlight r.cancelled
      event :: events w fuel (w.step r event) s

def history (w : Work) (s : S) : List Event :=
  let (cancelled, s) := server.isCancelled s
  server.events w (w.changes.length + 1) (w.start cancelled) s

/-- A run is followed to its end, where no call is in flight. -/
inductive Follows (valid : S → Prop) (w : Work) : Run → S → List Event → Run → S → Prop where
  | done {r : Run} {s : S} : valid s → (w.launch r).inFlight = [] →
      Follows valid w r s [] (w.launch r) s
  | ended {r q : Run} {s t : S} {i : Nat} {m : Mutation} {result : Except ClusterError Unit}
      {events : List Event} : valid s → (i, m) ∈ (w.launch r).inFlight →
      (server.await s (w.launch r).inFlight (w.launch r).cancelled).1 = .ended i result →
      Follows valid w (w.step (w.launch r) (.ended i result))
        (server.await s (w.launch r).inFlight (w.launch r).cancelled).2 events q t →
      Follows valid w r s (.ended i result :: events) q t
  | cancelled {r q : Run} {s t : S} {events : List Event} : valid s →
      (w.launch r).inFlight ≠ [] → (w.launch r).cancelled = false →
      (server.await s (w.launch r).inFlight (w.launch r).cancelled).1 = .cancelled →
      (server.isCancelled
        (server.await s (w.launch r).inFlight (w.launch r).cancelled).2).1 = true →
      Follows valid w (w.step (w.launch r) .cancelled)
        (server.await s (w.launch r).inFlight (w.launch r).cancelled).2 events q t →
      Follows valid w r s (.cancelled :: events) q t

variable {server} {valid : S → Prop} {w : Work} {history : List Event}

/-- With enough fuel, runs are followed to their end. -/
theorem follows_follow (hserver : server.Fair valid) (fuel : Nat) {r : Run} {s : S}
    (hs : valid s) (h : w.Sound history r)
    (hevents : ∀ e ∈ server.events w fuel r s, e ∈ history) (hfuel : r.remaining ≤ fuel) :
    server.Follows valid w r s (server.events w fuel r s) (server.follow w fuel r s).1
      (server.follow w fuel r s).2 := by
  -- Every event takes from what remains, so the fuel covers what remains all along.
  induction fuel generalizing r s with
  | zero =>
      -- A call in flight would have a change without an outcome, and nothing remains.
      refine .done hs (List.eq_nil_iff_forall_not_mem.mpr fun ⟨i, m⟩ hm => ?_)
      have hopen := h.launch.waiting i m hm
      obtain ⟨-, c, hc, -⟩ := h.launch.called i m hm
      have hlt : i < (w.launch r).outcomes.length :=
        h.launch.length.symm ▸ (List.getElem?_eq_some_iff.mp hc).1
      have hless := Run.remaining_settle_lt hlt hopen .cancelled
      have hle := w.remaining_launch_le r
      omega
  | succ fuel ih =>
      rw [events, follow] at *
      dsimp only at hevents ⊢
      by_cases hempty : (w.launch r).inFlight = []
      · rw [if_pos (List.isEmpty_iff.mpr hempty), if_pos (List.isEmpty_iff.mpr hempty)]
        exact .done hs hempty
      · have hcalls : ¬ (w.launch r).inFlight.isEmpty = true := by
          rwa [List.isEmpty_iff]
        rw [if_neg hcalls] at hevents ⊢
        rw [if_neg hcalls]
        rw [List.forall_mem_cons] at hevents
        have hle := w.remaining_launch_le r
        obtain ⟨hvalid, hnext⟩ := hserver.await s (w.launch r).inFlight (w.launch r).cancelled
          hs hempty
        rcases hnext with ⟨i, m, result, hm, he⟩ | ⟨hseen, he, hc⟩
        · rw [he] at hevents ⊢
          obtain ⟨hsound, hless, -⟩ := h.launch.step_ended hm hevents.1
          exact .ended hs hm he (ih hvalid hsound hevents.2 (by omega))
        · rw [he] at hevents ⊢
          obtain ⟨hsound, hless⟩ := h.launch.step_cancelled hseen hevents.1
          exact .cancelled hs hempty hseen he hc (ih hvalid hsound hevents.2 (by omega))

namespace Follows

variable {r q : Run} {s t : S} {es : List Event} (h : server.Follows valid w r s es q t)

include h

theorem inFlight : q.inFlight = [] := by
  induction h with
  | done _ hempty => exact hempty
  | ended _ _ _ _ ih | cancelled _ _ _ _ _ _ ih => exact ih

theorem valid_right : valid t := by
  induction h with
  | done hs => exact hs
  | ended _ _ _ _ ih | cancelled _ _ _ _ _ _ ih => exact ih

theorem eq_replay : q = w.replay r es := by
  induction h with
  | done => rfl
  | ended _ _ _ _ ih | cancelled _ _ _ _ _ _ ih => exact ih

/-- The last thing done is to look at all changes. -/
theorem exists_launch (hr : w.Sound history r) (hes : ∀ e ∈ es, e ∈ history) :
    ∃ last, w.Sound history last ∧ q = w.launch last := by
  induction h with
  | done => exact ⟨_, hr, rfl⟩
  | ended _ hm _ _ ih =>
      rw [List.forall_mem_cons] at hes
      exact ih (hr.launch.step_ended hm hes.1).1 hes.2
  | cancelled _ _ hseen _ _ _ ih =>
      rw [List.forall_mem_cons] at hes
      exact ih (hr.launch.step_cancelled hseen hes.1).1 hes.2

/-- A change with an outcome has no call that ends. -/
theorem not_mem_index? (hr : w.Sound history r) (hes : ∀ e ∈ es, e ∈ history) {i : Nat}
    (hi : (r.outcome? i).isSome) : i ∉ es.filterMap Event.index? := by
  induction h with
  | done => exact List.not_mem_nil
  | ended _ hm _ _ ih =>
      rw [List.forall_mem_cons] at hes
      have hlaunch := w.isSome_outcome?_launch hi
      rintro hmem
      rcases List.mem_cons.mp hmem with rfl | hmem
      · rw [hr.launch.waiting _ _ hm] at hlaunch
        cases hlaunch
      · exact ih (hr.launch.step_ended hm hes.1).1 hes.2 (w.isSome_outcome?_step _ hlaunch) hmem
  | cancelled _ _ hseen _ _ _ ih =>
      rw [List.forall_mem_cons] at hes
      have hlaunch := w.isSome_outcome?_launch hi
      exact ih (hr.launch.step_cancelled hseen hes.1).1 hes.2 (w.isSome_outcome?_step _ hlaunch)

theorem nodup_index? (hr : w.Sound history r) (hes : ∀ e ∈ es, e ∈ history) :
    (es.filterMap Event.index?).Nodup := by
  induction h with
  | done => exact List.nodup_nil
  | ended _ hm _ hrest ih =>
      rw [List.forall_mem_cons] at hes
      obtain ⟨hsound, -, hsome⟩ := hr.launch.step_ended hm hes.1
      exact List.nodup_cons.mpr ⟨hrest.not_mem_index? hsound hes.2 hsome, ih hsound hes.2⟩
  | cancelled _ _ hseen _ _ _ ih =>
      rw [List.forall_mem_cons] at hes
      exact ih (hr.launch.step_cancelled hseen hes.1).1 hes.2

/-- The end of a call gives its change the outcome. -/
theorem outcome?_of_ended (hr : w.Sound history r) (hes : ∀ e ∈ es, e ∈ history) {i : Nat}
    {result : Except ClusterError Unit} (hi : .ended i result ∈ es) :
    q.outcome? i = some (w.ended i result) := by
  induction h with
  | done => cases hi
  | @ended r q s t j m x es _ hm _ hrest ih =>
      rw [List.forall_mem_cons] at hes
      obtain ⟨hsound, -, -⟩ := hr.launch.step_ended hm hes.1
      rcases List.mem_cons.mp hi with he | hi
      · cases he
        rw [hrest.eq_replay, ← w.after_trace]
        exact (Work.legal_trace hes.2).outcome? hsound (hr.launch.outcome?_step_ended hm hes.1)
      · exact ih hsound hes.2 hi
  | cancelled _ _ hseen _ _ _ ih =>
      rw [List.forall_mem_cons] at hes
      exact ih (hr.launch.step_cancelled hseen hes.1).1 hes.2
        ((List.mem_cons.mp hi).resolve_left nofun)

theorem isCancelled (hserver : server.Fair valid) (hs : (server.isCancelled s).1 = true) :
    (server.isCancelled t).1 = true := by
  induction h with
  | done => exact hs
  | ended hvalid hm _ _ ih =>
      exact ih (hserver.await_stays _ _ _ hvalid (List.ne_nil_of_mem hm) hs)
  | cancelled hvalid hcalls _ _ _ _ ih =>
      exact ih (hserver.await_stays _ _ _ hvalid hcalls hs)

/-- What a run has seen of cancelling is so. -/
theorem isCancelled_of_cancelled (hserver : server.Fair valid)
    (hr : r.cancelled = true → (server.isCancelled s).1 = true) (hq : q.cancelled = true) :
    (server.isCancelled t).1 = true := by
  induction h with
  | done =>
      rw [w.cancelled_launch] at hq
      exact hr hq
  | ended hvalid hm _ _ ih =>
      refine ih (fun hstep => hserver.await_stays _ _ _ hvalid (List.ne_nil_of_mem hm) (hr ?_)) hq
      rwa [w.cancelled_step_ended, w.cancelled_launch] at hstep
  | cancelled _ _ _ _ hc hrest => exact hrest.isCancelled hserver hc

end Follows

end Server

end Rollout
