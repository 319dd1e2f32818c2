import Rollout.Proofs.Apply.Confluence
import Rollout.Proofs.Cluster.Writing
import Rollout.Proofs.Document.Order
/-!
What a simulated cluster holds after changes were carried out: the calls that are reported as done
took effect, one after the other, and nothing else did.
-/

namespace Rollout

namespace Simulation

variable {s t u : Simulation} {ms ns : List Mutation}

/-- These mutations took effect in this order, and nothing else did. -/
structure Wrote (s : Simulation) (ms : List Mutation) (t : Simulation) : Prop where
  journal : t.cluster.journal = s.cluster.journal ++ ms
  objects : ms.foldlM MemoryCluster.change s.cluster.objects = .ok t.cluster.objects
  refused : t.cluster.refused = s.cluster.refused
  unserved : t.unserved = s.unserved
  unreadable : t.unreadable = s.unreadable
  listFault : t.listFault = s.listFault

theorem Unmoved.wrote (h : Unmoved s t) : s.Wrote [] t where
  journal := h.journal.trans (List.append_nil _).symm
  objects := congrArg Except.ok h.objects.symm
  refused := h.refused
  unserved := h.unserved
  unreadable := h.unreadable
  listFault := h.listFault

theorem Wrote.trans (h : s.Wrote ms t) (h' : t.Wrote ns u) : s.Wrote (ms ++ ns) u where
  journal := by rw [h'.journal, h.journal, List.append_assoc]
  objects := by
    rw [List.foldlM_append]
    exact bind_eq_ok.mpr ⟨_, h.objects, h'.objects⟩
  refused := h'.refused.trans h.refused
  unserved := h'.unserved.trans h.unserved
  unreadable := h'.unreadable.trans h.unreadable
  listFault := h'.listFault.trans h.listFault

/-- A call that ends well has written its mutation, and no other has. -/
theorem Ends.wrote {i j : Nat} {m : Mutation} {result : Except ClusterError Unit}
    (h : Ends u i m (.ended j result) t) :
    j = i ∧ u.Wrote (result.toOption.toList.map fun _ => m) t := by
  generalize he : Event.ended j result = e at h
  cases h with
  | refused =>
      cases he
      exact ⟨rfl, (Unmoved.refl _).wrote⟩
  | finished =>
      rw [Simulation.finish] at he ⊢
      rw [MemoryCluster.finish] at he ⊢
      dsimp only at he ⊢
      split at he
      · cases he
        exact ⟨rfl, Unmoved.wrote { Unmoved.refl u with }⟩
      · split at he
        · cases he
          exact ⟨rfl, Unmoved.wrote { Unmoved.refl u with }⟩
        · next objects hobjects =>
            cases he
            refine ⟨rfl, rfl, ?_, rfl, rfl, rfl, rfl⟩
            exact bind_eq_ok.mpr ⟨objects, hobjects, rfl⟩

end Simulation

/-- What is reported of a call that was made. -/
def Mutation.done : Mutation → Outcome
  | create _ => .created
  | update _ => .updated
  | delete _ => .deleted

namespace Event

/-- The changes whose calls ended well, in the order in which they did. -/
def landed : List Event → List Nat
  | [] => []
  | .ended i (.ok ()) :: es => i :: landed es
  | _ :: es => landed es

theorem mem_landed {es : List Event} {i : Nat} : i ∈ landed es ↔ .ended i (.ok ()) ∈ es := by
  induction es with
  | nil => exact ⟨nofun, nofun⟩
  | cons e es ih =>
      rcases e with _ | ⟨j, error | ⟨⟩⟩ <;> simp [landed, ih]

theorem landed_sublist (es : List Event) : (landed es).Sublist (es.filterMap index?) := by
  induction es with
  | nil => exact .slnil
  | cons e es ih =>
      rcases e with _ | ⟨j, error | ⟨⟩⟩
      · exact ih
      · exact ih.cons j
      · exact ih.cons_cons j

end Event

namespace Server.Follows

variable {valid : Simulation → Prop} {w : Work} {history : List Event} {r q : Run}
  {s t : Simulation} {es : List Event}

/-- A run writes the mutations of the calls that end well, in that order. -/
theorem wrote (h : Simulation.server.Follows valid w r s es q t) (hr : w.Sound history r)
    (hes : ∀ e ∈ es, e ∈ history) : s.Wrote ((Event.landed es).filterMap w.mutation?) t := by
  -- One event after the other: a call that ends well writes its mutation, all else writes nothing.
  induction h with
  | done => exact (Simulation.Unmoved.refl _).wrote
  | @ended r q s t i m result es _ hm he _ ih =>
      rw [List.forall_mem_cons] at hes
      obtain ⟨hsound, -, -⟩ := hr.launch.step_ended hm hes.1
      rcases s.await_cases (w.launch r).cancelled (List.ne_nil_of_mem hm) with
        ⟨j, n, u, hn, hu, hends⟩ | ⟨-, -, hcancelled, -⟩
      · have hends : Simulation.Ends u j n (.ended i result) _ := he ▸ hends
        obtain ⟨rfl, hwrote⟩ := hends.wrote
        obtain ⟨-, c, hc, hcn⟩ := hr.launch.called i n hn
        have hmutation : w.mutation? i = some n := Option.bind_eq_some_iff.mpr ⟨c, hc, hcn⟩
        have hall := (hu.toUnmoved.wrote.trans hwrote).trans (ih hsound hes.2)
        rw [List.nil_append] at hall
        rcases result with error | ⟨⟩
        · exact hall
        · rw [Event.landed, List.filterMap_cons, hmutation]
          exact hall
      · cases he.symm.trans hcancelled
  | @cancelled r q s t es _ hcalls hseen he _ _ ih =>
      rw [List.forall_mem_cons] at hes
      obtain ⟨hsound, -⟩ := hr.launch.step_cancelled hseen hes.1
      rcases s.await_cases (w.launch r).cancelled hcalls with
        ⟨j, n, u, -, -, hends⟩ | ⟨hunmoved, -⟩
      · obtain ⟨result, hended⟩ := hends.eq_ended
        cases he.symm.trans hended
      · exact hunmoved.wrote.trans (ih hsound hes.2)

end Server.Follows

/-- The mutation that an entry reports as done. -/
def Change.reported? (c : Change) (e : Entry) : Option Mutation :=
  c.mutation?.filter fun m => e.outcome = m.done

/-- The mutations that a report tells of. -/
def reported (changes : List Change) (entries : List Entry) : List Mutation :=
  (changes.zip entries).filterMap fun (c, e) => c.reported? e

theorem reported_append {changes : List Change} {entries : List Entry}
    (h : changes.length = entries.length) (more : List Change) (es : List Entry) :
    reported (changes ++ more) (entries ++ es) = reported changes entries ++ reported more es := by
  rw [reported, List.zip_append h, List.filterMap_append]
  rfl

theorem keys_reported_sublist (changes : List Change) (entries : List Entry) :
    ((reported changes entries).map Mutation.key).Sublist (changes.map (·.subject.key)) := by
  induction changes generalizing entries with
  | nil => exact .slnil
  | cons c changes ih =>
      cases entries with
      | nil => exact List.nil_sublist _
      | cons e entries =>
          rw [reported, List.zip_cons_cons, List.filterMap_cons]
          dsimp only
          split
          · exact (ih entries).cons _
          · next m hm =>
              have hkey := Change.key_of_mutation? (Option.filter_eq_some_iff.mp hm).1
              rw [List.map_cons, List.map_cons, hkey]
              exact (ih entries).cons_cons _

theorem Change.ofAction_action {c : Change} {m : Mutation} (h : c.mutation? = some m) :
    Outcome.ofAction c.action = m.done := by
  cases c with
  | unchanged d l => cases h
  | unreadable d error => cases h
  | _ =>
      cases h
      rfl

theorem Mutation.isSuccess_done (m : Mutation) : m.done.isSuccess = true := by
  cases m <;> rfl

namespace Work

variable {w : Work} {history : List Event} {q : Run} {i : Nat} {c : Change} {m : Mutation}

theorem ended_ok (hc : w.changes[i]? = some c) (hm : c.mutation? = some m) :
    w.ended i (.ok ()) = m.done := by
  rw [← Change.ofAction_action hm, ended, hc]
  rfl

theorem length_entries (w : Work) (r : Run) : (w.entries r).length = w.changes.length := by
  rw [entries, List.length_map, List.length_zipIdx]

/-- A change is reported as done exactly if its call ended well. -/
theorem mem_landed_iff (h : w.Sound history q)
    (hended : ∀ i result, .ended i result ∈ history → q.outcome? i = some (w.ended i result))
    (hc : w.changes[i]? = some c) (hm : c.mutation? = some m) :
    i ∈ Event.landed history ↔ q.outcome? i = some m.done := by
  rw [Event.mem_landed]
  constructor
  · intro hmem
    rw [hended i _ hmem, ended_ok hc hm]
  · intro ho
    have hsuccess := m.isSuccess_done
    generalize hdone : m.done = done at ho hsuccess
    cases h.justified i done ho with
    | skip => cases hsuccess
    | pass _ hc' hm' =>
        cases hc.symm.trans hc'
        rw [hm] at hm'
        cases hm'
    | @ended c' n result _ _ _ hmem =>
        rcases result with error | ⟨⟩
        · cases hsuccess
        · exact hmem

theorem reported?_entry (h : w.Sound history q)
    (hended : ∀ i result, .ended i result ∈ history → q.outcome? i = some (w.ended i result))
    (hc : w.changes[i]? = some c) :
    c.reported? (entry c ((q.outcome? i).getD .cancelled)) =
      if i ∈ Event.landed history then w.mutation? i else none := by
  have hmutation : w.mutation? i = c.mutation? := by
    rw [mutation?, hc, Option.bind_some]
  rw [hmutation, Change.reported?]
  cases hm : c.mutation? with
  | none => rw [ite_self, Option.filter_none]
  | some m =>
      have hdone : (q.outcome? i).getD .cancelled = m.done ↔ i ∈ Event.landed history := by
        rw [mem_landed_iff h hended hc hm]
        cases q.outcome? i with
        | none => cases m <;> constructor <;> rintro ⟨⟩
        | some o => rw [Option.getD_some, Option.some.injEq]
      rw [Option.filter_some, entry]
      simp only [hdone, decide_eq_true_eq]

/-- What was written is what the entries report. -/
theorem perm_reported (h : w.Sound history q)
    (hended : ∀ i result, .ended i result ∈ history → q.outcome? i = some (w.ended i result))
    (hnodup : (Event.landed history).Nodup) :
    ((Event.landed history).filterMap w.mutation?).Perm
      (reported w.changes (w.entries q)) := by
  -- Both list the changes whose calls ended well, in the order of the calls and of the plan.
  have hentry : ∀ i ∈ List.range (w.changes.zip (w.entries q)).length,
      ((w.changes.zip (w.entries q))[i]?.bind fun (c, e) => c.reported? e) =
        if i ∈ Event.landed history then w.mutation? i else none := by
    intro i hi
    rw [List.mem_range, List.length_zip, length_entries, Nat.min_self] at hi
    have hc := List.getElem?_eq_getElem hi
    have he := w.getElem?_entries q i
    rw [hc, Option.map_some] at he
    have hzip : (w.changes.zip (w.entries q))[i]? =
        some (w.changes[i], entry w.changes[i] ((q.outcome? i).getD .cancelled)) :=
      List.getElem?_zip_eq_some.mpr ⟨hc, he⟩
    rw [hzip, Option.bind_some]
    exact reported?_entry h hended hc
  have hreported : reported w.changes (w.entries q) =
      ((List.range (w.changes.zip (w.entries q)).length).filter (· ∈ Event.landed history)).filterMap
        w.mutation? := by
    rw [List.filterMap_filter]
    simp only [decide_eq_true_eq]
    rw [← List.filterMap_congr hentry, ← List.filterMap_filterMap, filterMap_range_getElem?]
    rfl
  rw [hreported]
  refine List.Perm.filterMap _ ((List.perm_ext_iff_of_nodup hnodup ?_).mpr fun i => ?_)
  · exact List.nodup_range.filter _
  · rw [List.mem_filter, List.mem_range, decide_eq_true_iff]
    refine (and_iff_right_of_imp fun hi => ?_).symm
    rw [List.length_zip, length_entries, Nat.min_self, ← h.length]
    exact Run.lt_length_of_outcome? (hended i _ (Event.mem_landed.mp hi))

/-- An entry that is a success is that of the planned action. -/
theorem outcome_eq_ofAction (h : w.Sound history q) {e : Entry} (hc : w.changes[i]? = some c)
    (he : (w.entries q)[i]? = some e) (hsuccess : e.outcome.isSuccess = true) :
    e.outcome = .ofAction c.action := by
  have hne : e.outcome ≠ .cancelled := fun hcancelled => by
    rw [hcancelled] at hsuccess
    cases hsuccess
  exact h.eq_ofAction hc (outcome?_of_entry he hne) hsuccess

end Work

/-- These are entries of these changes, and each that is a success is that of the planned action. -/
structure Tells (changes : List Change) (entries : List Entry) : Prop where
  planned : entries.map (fun e => (e.resource, e.action)) =
    changes.map fun c => (c.resource, c.action)
  success : ∀ x ∈ changes.zip entries, x.2.outcome.isSuccess = true →
    x.2.outcome = .ofAction x.1.action

namespace Tells

variable {changes : List Change} {entries : List Entry}

theorem length (h : Tells changes entries) : changes.length = entries.length := by
  have hmap := congrArg List.length h.planned
  rwa [List.length_map, List.length_map, eq_comm] at hmap

theorem append {more : List Change} {es : List Entry} (h : Tells changes entries)
    (h' : Tells more es) : Tells (changes ++ more) (entries ++ es) where
  planned := by rw [List.map_append, List.map_append, h.planned, h'.planned]
  success := by
    rw [List.zip_append h.length]
    intro x hx
    exact (List.mem_append.mp hx).elim (h.success x) (h'.success x)

/-- If all entries are successes, all mutations are reported. -/
theorem reported_eq (h : Tells changes entries)
    (hall : ∀ e ∈ entries, e.outcome.isSuccess = true) :
    reported changes entries = changes.filterMap Change.mutation? := by
  have hzip : ∀ x ∈ changes.zip entries, x.1.reported? x.2 = x.1.mutation? := by
    intro x hx
    have houtcome := h.success x hx (hall _ (List.of_mem_zip hx).2)
    rw [Change.reported?]
    cases hm : x.1.mutation? with
    | none => rfl
    | some m =>
        rw [Option.filter_some, houtcome, Change.ofAction_action hm, decide_eq_true rfl, if_pos rfl]
  rw [reported, List.filterMap_congr hzip]
  conv_rhs => rw [← List.map_fst_zip h.length.le, List.filterMap_map]
  rfl

end Tells

theorem Work.tells {w : Work} {history : List Event} {q : Run} (h : w.Sound history q) :
    Tells w.changes (w.entries q) where
  planned := w.map_entries q
  success := by
    rintro ⟨c, e⟩ hx
    obtain ⟨i, hi⟩ := List.mem_iff_getElem?.mp hx
    obtain ⟨hc, he⟩ := List.getElem?_zip_eq_some.mp hi
    exact outcome_eq_ofAction h hc he

namespace Simulation

/-- Changes that are carried out write what their entries report. -/
theorem wrote_carryOut (w : Work) (s : Simulation) :
    Tells w.changes (w.entries (server.carryOut w s).1) ∧
      ∃ ms, ms.Perm (reported w.changes (w.entries (server.carryOut w s).1)) ∧
        s.Wrote ms (server.carryOut w s).2 := by
  have hfollows := Server.follows_carryOut (w := w) (s := s) server_fair trivial
  have hstart : w.Sound (server.history w s) (server.begun w s) := Work.sound_start _
  have hsound := Server.sound_carryOut (w := w) (s := s) server_fair trivial
  refine ⟨Work.tells hsound, _, Work.perm_reported hsound (fun i result hi => ?_) ?_,
    hfollows.wrote hstart fun _ he => he⟩
  · exact hfollows.outcome?_of_ended hstart (fun _ he => he) hi
  · exact (hfollows.nodup_index? hstart fun _ he => he).sublist (Event.landed_sublist _)

/-- A plan that is carried out writes what the report tells. -/
theorem wrote_execute (b : Build) (p : Plan) (o : ApplyOptions) (s : Simulation) :
    ∃ report, (server.execute b p o s).result = .ok report ∧ Tells p.all report.entries ∧
      ∃ ms, ms.Perm (reported p.all report.entries) ∧
        s.Wrote ms (server.execute b p o s).state := by
  obtain ⟨hchanged, ms, hms, hwrote⟩ := wrote_carryOut (p.changeWork b o) s
  obtain ⟨hdeleted, ns, hns, hwrote'⟩ :=
    wrote_carryOut (p.deleteWork o) (server.carryOut (p.changeWork b o) s).2
  refine ⟨_, rfl, hchanged.append hdeleted, ms ++ ns, ?_, hwrote.trans hwrote'⟩
  rw [Plan.all]
  exact (hms.append hns).trans (.of_eq (reported_append hchanged.length _ _).symm)

end Simulation

end Rollout
