import Rollout.Proofs.Apply.Simulated
/-!
Carrying out a plan: what is kept whatever the calls answer, in whatever order they end, and
whenever applying is cancelled.
-/

namespace Rollout

/-- A change that asks for a call is neither unreadable nor unchanged. -/
theorem Change.error?_eq_none {c : Change} {m : Mutation} (h : c.mutation? = some m) :
    c.error? = none ∧ c.action ≠ .unchanged := by
  cases c with
  | unchanged d l => cases h
  | unreadable d error => cases h
  | _ => exact ⟨rfl, nofun⟩

namespace Work

variable {w : Work} {history : List Event} {r : Run}

/-- The end of a call tells that it was made. -/
theorem ended_cases (w : Work) (i : Nat) (result : Except ClusterError Unit) :
    (w.ended i result).isSkipped = false ∧ w.ended i result ≠ .cancelled := by
  cases result with
  | error e => exact ⟨rfl, by rintro ⟨⟩⟩
  | ok =>
      rw [Work.ended]
      cases (w.changes[i]?.map (·.action)).getD .unchanged <;> exact ⟨rfl, by rintro ⟨⟩⟩

theorem Justified.ne_cancelled {i : Nat} {o : Outcome} (h : w.Justified history r i o) :
    o ≠ .cancelled := by
  cases h with
  | skip => nofun
  | @pass c => cases c <;> nofun
  | ended => exact (w.ended_cases i _).2

theorem getElem?_entries (w : Work) (r : Run) (i : Nat) :
    (w.entries r)[i]? =
      w.changes[i]?.map fun c => entry c ((r.outcome? i).getD .cancelled) := by
  rw [entries, List.getElem?_map, List.getElem?_zipIdx]
  cases w.changes[i]? with
  | none => rfl
  | some c => simp

theorem getD_eq_cancelled (h : w.Sound history r) {i : Nat} :
    (r.outcome? i).getD .cancelled = .cancelled ↔ r.outcome? i = none := by
  cases ho : r.outcome? i with
  | none => exact iff_of_true rfl rfl
  | some o => exact iff_of_false (h.justified i o ho).ne_cancelled nofun

/-- An entry is cancelled where its change has no outcome. -/
theorem exists_cancelled_iff (h : w.Sound history r) :
    (∃ e ∈ w.entries r, e.outcome = .cancelled) ↔
      ∃ i < w.changes.length, r.outcome? i = none := by
  constructor
  · rintro ⟨e, he, hcancelled⟩
    obtain ⟨i, hi⟩ := List.mem_iff_getElem?.mp he
    rw [getElem?_entries, Option.map_eq_some_iff] at hi
    obtain ⟨c, hc, rfl⟩ := hi
    exact ⟨i, (List.getElem?_eq_some_iff.mp hc).1, (getD_eq_cancelled h).mp hcancelled⟩
  · rintro ⟨i, hi, hnone⟩
    refine ⟨entry w.changes[i] .cancelled, ?_, rfl⟩
    refine List.mem_iff_getElem?.mpr ⟨i, ?_⟩
    rw [getElem?_entries, List.getElem?_eq_getElem hi, hnone]
    rfl

theorem map_entries (w : Work) (r : Run) :
    (w.entries r).map (fun e => (e.resource, e.action)) =
      w.changes.map fun c => (c.resource, c.action) := by
  refine List.ext_getElem? fun i => ?_
  rw [List.getElem?_map, getElem?_entries, Option.map_map, List.getElem?_map]
  rfl

theorem outcome_of_entry {i : Nat} {e : Entry} (he : (w.entries r)[i]? = some e) :
    e.outcome = (r.outcome? i).getD .cancelled := by
  rw [getElem?_entries, Option.map_eq_some_iff] at he
  obtain ⟨c, -, rfl⟩ := he
  rfl

theorem outcome?_of_entry {i : Nat} {e : Entry} (he : (w.entries r)[i]? = some e)
    (hne : e.outcome ≠ .cancelled) : r.outcome? i = some e.outcome := by
  rw [outcome_of_entry he] at hne ⊢
  cases ho : r.outcome? i with
  | none =>
      rw [ho] at hne
      exact absurd rfl hne
  | some o => rfl

end Work

namespace Server

variable {S : Type} (server : Server S) (w : Work) (s : S)

def begun : Run := w.start (server.isCancelled s).1

def acts : List Act := w.trace (server.begun w s) (server.history w s)

/-- The run at the time when these acts were done. -/
def midway (acts : List Act) : Run := (server.begun w s).after acts

def called : List Nat := (server.acts w s).filterMap Act.called?

/-- What is kept while changes are carried out. -/
structure Orderly : Prop where
  run : (server.carryOut w s).1 = server.midway w s (server.acts w s)
  once : (server.called w s).Nodup
  /-- Each call is for a change that asks for it, after all that the change needs has succeeded. -/
  ready : ∀ pre i m post, server.acts w s = pre ++ .call i m :: post →
    w.Applied (server.midway w s pre).outcome? i ∧
      ∃ c, w.changes[i]? = some c ∧ c.error? = none ∧ c.action ≠ .unchanged ∧ c.mutation? = some m
  bounded : ∀ pre post, server.acts w s = pre ++ post →
    (server.midway w s pre).inFlight.length ≤ w.limit
  /-- No call is made once it is seen that applying was cancelled. -/
  quiet : ∀ pre post, server.acts w s = pre ++ post → (server.midway w s pre).cancelled = true →
    post.filterMap Act.called? = []
  noticed : (server.carryOut w s).1.cancelled = true →
    (server.isCancelled s).1 = true ∨ .cancelled ∈ server.history w s
  /-- Each call ends, also after that, and its end gives the outcome. -/
  awaited : ∀ i ∈ server.called w s, ∃ result, .ended i result ∈ server.history w s ∧
    (server.carryOut w s).1.outcome? i = some (w.ended i result)
  endedOnce : ((server.history w s).filterMap Event.index?).Nodup
  answered : ∀ i result, .ended i result ∈ server.history w s →
    Event.answers (server.history w s) i = result
  inFlight : (server.carryOut w s).1.inFlight = []
  /-- No call is made for a change that is reported as skipped or cancelled. -/
  uncalled : ∀ (i : Nat) (e : Entry), (w.entries (server.carryOut w s).1)[i]? = some e →
    e.outcome.isSkipped = true ∨ e.outcome = .cancelled → i ∉ server.called w s
  /-- The other outcomes are those of the changes carried out one by one. -/
  reference : ∀ answers : Nat → Except ClusterError Unit,
    (∀ i result, .ended i result ∈ server.history w s → answers i = result) →
      ∀ (i : Nat) (e : Entry), (w.entries (server.carryOut w s).1)[i]? = some e →
        e.outcome ≠ .cancelled → (w.reference answers)[i]? = some e.outcome
  /-- Nothing is left open unless it was seen that applying was cancelled. -/
  complete : (∃ e ∈ w.entries (server.carryOut w s).1, e.outcome = .cancelled) →
    (server.isCancelled (server.carryOut w s).2).1 = true

variable {server w s} {valid : S → Prop}

theorem follows_carryOut (hserver : server.Fair valid) (hs : valid s) :
    server.Follows valid w (server.begun w s) (server.isCancelled s).2 (server.history w s)
      (server.carryOut w s).1 (server.carryOut w s).2 := by
  refine follows_follow hserver _ (hserver.ask s hs) (Work.sound_start _) (fun _ he => he) ?_
  exact Run.remaining_start_le w _

theorem carryOut_eq_midway (hserver : server.Fair valid) (hs : valid s) :
    (server.carryOut w s).1 = server.midway w s (server.acts w s) :=
  (follows_carryOut hserver hs).eq_replay.trans (w.after_trace _ _).symm

theorem legal_acts : w.Legal (server.history w s) (server.begun w s) (server.acts w s) :=
  Work.legal_trace fun _ he => he

theorem sound_carryOut (hserver : server.Fair valid) (hs : valid s) :
    w.Sound (server.history w s) (server.carryOut w s).1 := by
  rw [carryOut_eq_midway hserver hs]
  exact legal_acts.sound (Work.sound_start _)

theorem ended_of_called (hserver : server.Fair valid) (hs : valid s) {i : Nat}
    (hi : i ∈ server.called w s) :
    ∃ result, .ended i result ∈ server.history w s ∧
      (server.carryOut w s).1.outcome? i = some (w.ended i result) := by
  obtain ⟨a, ha, hcalled⟩ := List.mem_filterMap.mp hi
  obtain ⟨m, rfl⟩ : ∃ m, a = .call i m := by
    cases a with
    | call j m =>
        cases hcalled
        exact ⟨m, rfl⟩
    | _ => cases hcalled
  have hempty := (follows_carryOut (w := w) hserver hs).inFlight
  rw [carryOut_eq_midway hserver hs] at hempty ⊢
  exact legal_acts.ended_of_call_mem (Work.sound_start _) ha hempty

/-- What was seen of cancelling is so when the changes are carried out. -/
theorem isCancelled_of_cancelled_carryOut (hserver : server.Fair valid) (hs : valid s)
    (h : (server.carryOut w s).1.cancelled = true) :
    (server.isCancelled (server.carryOut w s).2).1 = true :=
  (follows_carryOut hserver hs).isCancelled_of_cancelled hserver (hserver.ask_stays s hs) h

/-- Nothing is left open in a run that is not cancelled. -/
theorem cancelled_of_outcome?_eq_none (hserver : server.Fair valid) (hs : valid s) (hw : w.Backward)
    (hlimit : 0 < w.limit) {i : Nat} (hi : i < w.changes.length)
    (h : (server.carryOut w s).1.outcome? i = none) :
    (server.carryOut w s).1.cancelled = true := by
  have hfollows := follows_carryOut (w := w) hserver hs
  obtain ⟨last, hsound, hlast⟩ := hfollows.exists_launch (Work.sound_start _) fun _ he => he
  have hempty := hfollows.inFlight
  rw [hlast] at h hempty ⊢
  rw [w.cancelled_launch]
  by_contra hopen
  have hsome := Work.isSome_outcome?_of_launch hw hlimit hsound.length
    (Bool.not_eq_true _ ▸ hopen) hempty i hi
  rw [h] at hsome
  cases hsome

/-- Changes are carried out in good order, if they come after what they need. -/
theorem orderly (hserver : server.Fair valid) (hs : valid s) (hw : w.Backward)
    (hlimit : 0 < w.limit) : server.Orderly w s := by
  have hlegal : w.Legal (server.history w s) (server.begun w s) (server.acts w s) := legal_acts
  have hstart : w.Sound (server.history w s) (server.begun w s) := Work.sound_start _
  have hsound := sound_carryOut (w := w) hserver hs
  have hfollows := follows_carryOut (w := w) hserver hs
  have hnodup := hfollows.nodup_index? hstart fun _ he => he
  refine
    { run := carryOut_eq_midway hserver hs
      once := hlegal.nodup_called hstart
      ready := ?_
      bounded := ?_
      quiet := ?_
      noticed := ?_
      awaited := fun i hi => ended_of_called hserver hs hi
      endedOnce := hnodup
      answered := fun i result he => Event.answers_of_mem hnodup he
      inFlight := hfollows.inFlight
      uncalled := ?_
      reference := ?_
      complete := ?_ }
  · intro pre i m post hacts
    rw [hacts] at hlegal
    cases hlegal.split.2.1 with
    | call _ _ _ hc hm happlied =>
        obtain ⟨herror, haction⟩ := Change.error?_eq_none hm
        exact ⟨happlied, _, hc, herror, haction, hm⟩
  · intro pre post hacts
    rw [hacts] at hlegal
    exact (hlegal.left.sound hstart).bounded
  · intro pre post hacts hcancelled
    rw [hacts] at hlegal
    exact hlegal.right.called_eq_nil hcancelled
  · intro hcancelled
    rw [carryOut_eq_midway hserver hs] at hcancelled
    exact hlegal.cancelled hcancelled
  · rintro i e he hout hcalled
    obtain ⟨result, -, ho⟩ := ended_of_called hserver hs hcalled
    have hended := Work.outcome_of_entry he
    rw [ho, Option.getD_some] at hended
    obtain ⟨hskipped, hcancelled⟩ := w.ended_cases i result
    rw [hended, hskipped] at hout
    exact hout.elim nofun hcancelled
  · intro answers hanswers i e he hne
    exact Work.reference_of_outcome? hw hsound hanswers (Work.outcome?_of_entry he hne)
  · intro hopen
    obtain ⟨i, hi, hnone⟩ := (Work.exists_cancelled_iff hsound).mp hopen
    exact isCancelled_of_cancelled_carryOut hserver hs
      (cancelled_of_outcome?_eq_none hserver hs hw hlimit hi hnone)

/-- What is kept while a plan is carried out. -/
structure Executed (server : Server S) (b : Build) (p : Plan) (o : ApplyOptions) (s : S) :
    Prop where
  changes : server.Orderly (p.changeWork b o) s
  deletes : server.Orderly (p.deleteWork o) (server.carryOut (p.changeWork b o) s).2
  /-- Nothing is deleted once it was seen that applying was cancelled. -/
  quiet : (server.carryOut (p.changeWork b o) s).1.cancelled = true →
    server.called (p.deleteWork o) (server.carryOut (p.changeWork b o) s).2 = []
  /-- The report has the entries of both, in the order of the plan. -/
  report : ∃ report, (server.execute b p o s).result = .ok report ∧
    report.entries =
      (p.changeWork b o).entries (server.carryOut (p.changeWork b o) s).1 ++
        (p.deleteWork o).entries
          (server.carryOut (p.deleteWork o) (server.carryOut (p.changeWork b o) s).2).1 ∧
    report.entries.map (fun e => (e.resource, e.action)) =
      p.all.map (fun c => (c.resource, c.action)) ∧
    (report.cancelled = true ↔ ∃ e ∈ report.entries, e.outcome = .cancelled)

theorem called_eq_nil (h : (server.isCancelled s).1 = true) : server.called w s = [] :=
  legal_acts.called_eq_nil h

theorem isCancelled_carryOut (hserver : server.Fair valid) (hs : valid s)
    (h : (server.isCancelled s).1 = true) :
    (server.isCancelled (server.carryOut w s).2).1 = true :=
  (follows_carryOut hserver hs).isCancelled hserver (hserver.ask_stays s hs h)

/-- Plans are carried out in good order, whatever the calls answer, in whatever order they end,
and whenever applying is cancelled. -/
theorem executed (hserver : server.Fair valid) (hs : valid s) (b : Build) (p : Plan)
    (o : ApplyOptions) (hchanges : (p.changeWork b o).Backward)
    (hdeletes : (p.deleteWork o).Backward) : server.Executed b p o s := by
  have hlimit : 0 < o.limit := Nat.lt_of_lt_of_le Nat.one_pos (le_max_right _ _)
  have hnext : valid (server.carryOut (p.changeWork b o) s).2 :=
    (follows_carryOut hserver hs).valid_right
  have hfirst := orderly hserver hs hchanges hlimit
  have hsecond := orderly hserver hnext hdeletes hlimit
  refine ⟨hfirst, hsecond, fun h => ?_, _, rfl, rfl, ?_, ?_⟩
  · exact called_eq_nil (isCancelled_of_cancelled_carryOut hserver hs h)
  · rw [List.map_append, Work.map_entries, Work.map_entries, Plan.all, List.map_append]
    rfl
  · rw [Bool.and_eq_true, List.any_eq_true]
    constructor
    · rintro ⟨-, e, he, hcancelled⟩
      exact ⟨e, he, of_decide_eq_true hcancelled⟩
    · rintro ⟨e, he, hcancelled⟩
      refine ⟨?_, e, he, decide_eq_true hcancelled⟩
      rcases List.mem_append.mp he with he | he
      · exact isCancelled_carryOut hserver hnext (hfirst.complete ⟨e, he, hcancelled⟩)
      · exact hsecond.complete ⟨e, he, hcancelled⟩

/-- A configuration in a namespace of its own. -/
def configuration (name : String) : List Document :=
  [.new "v1" "Namespace" name, (Document.new "v1" "ConfigMap" "settings").setNs (some name)]

def settingsBuild : Build := ⟨configuration "apps", [[], [0]]⟩

def settingsPlan : Plan where
  changes := (configuration "apps").map .create
  deletes := (configuration "old").reverse.map .delete
  deleteDependencies := [[], [0]]

/-- Applying is cancelled with the second call. -/
theorem executed_settingsPlan :
    Simulation.server.Fair (fun _ => True) ∧ (settingsPlan.changeWork settingsBuild {}).Backward ∧
      (settingsPlan.deleteWork {}).Backward ∧
      Simulation.server.Executed settingsBuild settingsPlan {}
        { latency := some 5, cancelWith := some 2 } := by
  have hchanges : (settingsPlan.changeWork settingsBuild {}).Backward := by decide
  have hdeletes : (settingsPlan.deleteWork {}).Backward := by decide
  refine ⟨Simulation.server_fair, hchanges, hdeletes, ?_⟩
  exact executed Simulation.server_fair trivial settingsBuild settingsPlan {} hchanges hdeletes

/-- The call in flight is awaited, and nothing is deleted. -/
example :
    ((Simulation.server.execute settingsBuild settingsPlan {}
      { latency := some 5, cancelWith := some 2 }).result.map fun r =>
        (r.entries.map (·.outcome), r.cancelled)) =
      .ok ([.created, .created, .cancelled, .cancelled], true) := by
  decide +kernel

end Server

end Rollout
