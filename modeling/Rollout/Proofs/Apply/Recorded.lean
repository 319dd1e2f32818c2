import Rollout.Proofs.Apply.Execution
import Rollout.Proofs.Apply.Planning
/-!
The calls that reach a cluster. A server that keeps a record of them plans and applies like the
server itself, and what it records are calls that the changes ask for.
-/

namespace Rollout

variable {S : Type}

/-- A server with a record of the calls that it was asked to wait for. -/
def Server.recorded (server : Server S) : Server (S × List Mutation) where
  get s r := ((server.get s.1 r).1, (server.get s.1 r).2, s.2)
  list s selector := ((server.list s.1 selector).1, (server.list s.1 selector).2, s.2)
  await s calls seen :=
    ((server.await s.1 calls seen).1, (server.await s.1 calls seen).2, s.2 ++ calls.map (·.2))
  isCancelled s := ((server.isCancelled s.1).1, (server.isCancelled s.1).2, s.2)

/-- The same confirmation, which does not see the record. -/
def Confirmation.recorded (confirm : Confirmation S) : Confirmation (S × List Mutation) :=
  fun p s => ((confirm p s.1).1, (confirm p s.1).2, s.2)

def Applied.forget (a : Applied (S × List Mutation)) : Applied S :=
  { a with state := a.state.1 }

/-- A call that a change asks for, all whose needs have succeeded. -/
def Work.Asks (w : Work) (outcome? : Nat → Option Outcome) (m : Mutation) : Prop :=
  ∃ i c, w.changes[i]? = some c ∧ c.mutation? = some m ∧ w.Applied outcome? i

/-- The calls in flight are asked for, also later, if the needs of their changes stay applied. -/
theorem Work.Sound.asks_of_inFlight {w : Work} {history : List Event} {r : Run}
    {outcome? : Nat → Option Outcome} {m : Mutation} (hr : w.Sound history r)
    (hstays : ∀ {i}, w.Applied r.outcome? i → w.Applied outcome? i)
    (hm : m ∈ r.inFlight.map (·.2)) : w.Asks outcome? m := by
  obtain ⟨⟨i, m⟩, hi, rfl⟩ := List.mem_map.mp hm
  obtain ⟨happlied, c, hc, hcm⟩ := hr.called i m hi
  exact ⟨i, c, hc, hcm, hstays happlied⟩

namespace Server

variable (server : Server S)

theorem isCancelled_recorded (s : S × List Mutation) :
    server.recorded.isCancelled s =
      ((server.isCancelled s.1).1, (server.isCancelled s.1).2, s.2) := rfl

theorem readsAs_recorded (calls : List Mutation) :
    server.ReadsAs server.recorded fun s => (s, calls) := ⟨fun _ _ => rfl, fun _ _ => rfl⟩

/-- Nothing is recorded while a build is planned. -/
theorem plan_recorded (b : Build) (o : ApplyOptions) (s : S × List Mutation) :
    server.recorded.plan b o s = ((server.plan b o s.1).1, (server.plan b o s.1).2, s.2) :=
  (server.readsAs_recorded s.2).plan b o s.1

theorem plan_watched_recorded (b : Build) (o : ApplyOptions) (s : S) (calls : List Mutation) :
    server.recorded.watched.plan b o ((s, calls), false) =
      ((server.watched.plan b o (s, false)).1,
        ((server.watched.plan b o (s, false)).2.1, calls),
        (server.watched.plan b o (s, false)).2.2) :=
  ((server.readsAs_recorded calls).watched fun _ => rfl).plan b o (s, false)

theorem follow_recorded (w : Work) (fuel : Nat) (r : Run) (s : S × List Mutation) :
    Prod.map id Prod.fst (server.recorded.follow w fuel r s) = server.follow w fuel r s.1 := by
  induction fuel generalizing r s with
  | zero => rfl
  | succ fuel ih =>
      rw [follow, follow]
      dsimp only
      split
      · rfl
      · exact ih _ _

theorem carryOut_recorded (w : Work) (s : S × List Mutation) :
    (server.recorded.carryOut w s).1 = (server.carryOut w s.1).1 ∧
      (server.recorded.carryOut w s).2.1 = (server.carryOut w s.1).2 := by
  have h := server.follow_recorded w (w.changes.length + 1)
    (w.start (server.isCancelled s.1).1) ((server.isCancelled s.1).2, s.2)
  exact ⟨congrArg Prod.fst h, congrArg Prod.snd h⟩

theorem execute_recorded (b : Build) (p : Plan) (o : ApplyOptions) (s : S × List Mutation) :
    (server.recorded.execute b p o s).forget = server.execute b p o s.1 := by
  obtain ⟨hchanged, hmiddle⟩ := server.carryOut_recorded (p.changeWork b o) s
  obtain ⟨hdeleted, hlast⟩ := server.carryOut_recorded (p.deleteWork o)
    (server.recorded.carryOut (p.changeWork b o) s).2
  rw [execute, execute, Applied.forget]
  simp only [isCancelled_recorded, hchanged, hdeleted, hlast, hmiddle]

/-- A server that keeps a record applies like the server itself. -/
theorem apply_recorded (confirm : Confirmation S) (b : Build) (o : ApplyOptions)
    (s : S × List Mutation) :
    (server.recorded.apply confirm.recorded b o s).forget = server.apply confirm b o s.1 := by
  rw [apply, apply, isCancelled_recorded]
  rcases server.isCancelled s.1 with ⟨_ | _, t⟩
  · dsimp only
    rw [plan_watched_recorded]
    rcases server.watched.plan b o (t, false) with ⟨e | p, u, _ | _⟩
    · rfl
    · rfl
    · dsimp only
      split
      · exact server.execute_recorded b p o (u, s.2)
      · rw [isCancelled_recorded]
        dsimp only
        rcases server.isCancelled u with ⟨_ | _, v⟩
        · have hconfirm : confirm.recorded p (v, s.2) =
              ((confirm p v).1, (confirm p v).2, s.2) := rfl
          dsimp only
          rw [hconfirm]
          rcases confirm p v with ⟨_ | _ | _ | _, x⟩
          · exact congrArg (fun a : Applied S => { a with asked := true })
              (server.execute_recorded b p o (x, s.2))
          · rfl
          · rfl
          · rfl
        · rfl
    · rfl
  · rfl

theorem applyBuilder_recorded (confirm : Confirmation S) (b : Builder) (o : ApplyOptions)
    (s : S × List Mutation) :
    (server.recorded.applyBuilder confirm.recorded b o s).forget =
      server.applyBuilder confirm b o s.1 := by
  rw [applyBuilder, applyBuilder]
  cases b.build o.ns with
  | error e => rfl
  | ok r => exact server.apply_recorded confirm r o s

variable {server} {valid : S → Prop}

theorem fair_recorded (h : server.Fair valid) : server.recorded.Fair fun s => valid s.1 where
  await s calls seen := h.await s.1 calls seen
  await_stays s calls seen := h.await_stays s.1 calls seen
  ask s := h.ask s.1
  ask_stays s := h.ask_stays s.1

namespace Follows

variable {w : Work} {history : List Event} {r q : Run} {es : List Event}

theorem applied {server : Server S} {valid : S → Prop} {s t : S}
    (h : server.Follows valid w r s es q t) (hr : w.Sound history r)
    (hes : ∀ e ∈ es, e ∈ history) {i : Nat} (hi : w.Applied r.outcome? i) :
    w.Applied q.outcome? i := by
  rw [h.eq_replay, ← w.after_trace]
  exact (Work.legal_trace hes).applied hr hi

/-- What is recorded on the way was asked for. -/
theorem recorded {valid : S × List Mutation → Prop} {s t : S × List Mutation}
    (h : server.recorded.Follows valid w r s es q t) (hr : w.Sound history r)
    (hes : ∀ e ∈ es, e ∈ history) {m : Mutation} (hm : m ∈ t.2) :
    m ∈ s.2 ∨ w.Asks q.outcome? m := by
  -- Each wait records calls of changes whose needs have succeeded, and these stay so to the end.
  induction h with
  | done => exact .inl hm
  | @ended r q s t i n result es _ hn _ hrest ih =>
      rw [List.forall_mem_cons] at hes
      obtain ⟨hsound, -, -⟩ := hr.launch.step_ended hn hes.1
      rcases ih hsound hes.2 hm with hm | hm
      · rcases List.mem_append.mp hm with hm | hm
        · exact .inl hm
        · refine .inr (hr.launch.asks_of_inFlight (fun happlied => ?_) hm)
          have hnext := hr.launch.applied_perform (.ended hn hes.1) happlied
          rw [← Work.step_ended_eq hn] at hnext
          exact hrest.applied hsound hes.2 hnext
      · exact .inr hm
  | @cancelled r q s t es _ _ hseen _ _ hrest ih =>
      rw [List.forall_mem_cons] at hes
      obtain ⟨hsound, -⟩ := hr.launch.step_cancelled hseen hes.1
      rcases ih hsound hes.2 hm with hm | hm
      · rcases List.mem_append.mp hm with hm | hm
        · exact .inl hm
        · refine .inr (hr.launch.asks_of_inFlight (fun happlied => ?_) hm)
          exact hrest.applied hsound hes.2 (hr.launch.applied_perform (.cancel hes.1) happlied)
      · exact .inr hm

end Follows

/-- The calls of changes that are carried out were asked for by one of them. -/
theorem asks_of_mem_carryOut (hserver : server.Fair valid) {w : Work} {s : S × List Mutation}
    (hs : valid s.1) {m : Mutation} (hm : m ∈ (server.recorded.carryOut w s).2.2) :
    m ∈ s.2 ∨ w.Asks (server.carryOut w s.1).1.outcome? m := by
  have hfollows := follows_carryOut (w := w) (fair_recorded hserver) (s := s) hs
  have h := hfollows.recorded (Work.sound_start _) (fun _ he => he) hm
  rwa [(server.carryOut_recorded w s).1] at h

theorem asks_of_mem_execute (hserver : server.Fair valid) {b : Build} {p : Plan} {o : ApplyOptions}
    {s : S × List Mutation} (hs : valid s.1) {m : Mutation}
    (hm : m ∈ (server.recorded.execute b p o s).state.2) :
    m ∈ s.2 ∨ (p.changeWork b o).Asks (server.carryOut (p.changeWork b o) s.1).1.outcome? m ∨
      (p.deleteWork o).Asks (server.carryOut (p.deleteWork o)
        (server.carryOut (p.changeWork b o) s.1).2).1.outcome? m := by
  obtain ⟨-, hmiddle⟩ := server.carryOut_recorded (p.changeWork b o) s
  have hnext : valid (server.recorded.carryOut (p.changeWork b o) s).2.1 := by
    rw [hmiddle]
    exact (follows_carryOut hserver hs).valid_right
  rcases asks_of_mem_carryOut hserver hnext hm with hm | hm
  · exact (asks_of_mem_carryOut hserver hs hm).imp_right .inl
  · rw [hmiddle] at hm
    exact .inr (.inr hm)

end Server

end Rollout
