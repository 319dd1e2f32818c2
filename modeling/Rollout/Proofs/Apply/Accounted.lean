import Rollout.Proofs.Apply.Confluence
/-!
What the entries of a report tell, with no word of how a run goes: why each change has its outcome,
told by the entries of those it needs, by what was planned for it, and by the answer to its call.
-/

namespace Rollout

namespace Work

/-- All that a change needs has succeeded. -/
def Cleared (w : Work) (entries : List Entry) (i : Nat) : Prop :=
  ∀ d ∈ w.needs i, ∃ e, entries[d]? = some e ∧ e.outcome.isSuccess = true

/-- The outcome that a change is to have. One that needs what did not succeed is skipped, for the
first of these. -/
inductive Resolves (w : Work) (answer : Mutation → Except ClusterError Unit)
    (entries : List Entry) (i : Nat) : Change → Outcome → Prop where
  | skipped {c : Change} {d : Nat} {e : Entry} : d ∈ w.needs i →
      (∀ j ∈ w.needs i, j < d → ∃ e, entries[j]? = some e ∧ e.outcome.isSuccess = true) →
      entries[d]? = some e → e.outcome.isSuccess = false →
      Resolves w answer entries i c (.skipped e.resource.text)
  | unreadable {d : Document} {error : String} : w.Cleared entries i →
      Resolves w answer entries i (.unreadable d error) (.failed error)
  | unchanged {d l : Document} : w.Cleared entries i →
      Resolves w answer entries i (.unchanged d l) .unchanged
  | created {d : Document} : w.Cleared entries i → answer (.create d.withLastApplied) = .ok () →
      Resolves w answer entries i (.create d) .created
  | updated {d l : Document} {diff : Diff} : w.Cleared entries i →
      answer (.update d.withLastApplied) = .ok () →
      Resolves w answer entries i (.update d l diff) .updated
  | deleted {l : Document} : w.Cleared entries i → answer (.delete l.ref) = .ok () →
      Resolves w answer entries i (.delete l) .deleted
  | refused {c : Change} {m : Mutation} {error : ClusterError} : w.Cleared entries i →
      c.mutation? = some m → answer m = .error error →
      Resolves w answer entries i c (.failed error.message)

/-- One entry for each change, with the outcome that it is to have. -/
structure Accounted (w : Work) (answer : Mutation → Except ClusterError Unit)
    (entries : List Entry) : Prop where
  heads : entries.map (fun e => (e.resource, e.action)) =
    w.changes.map fun c => (c.resource, c.action)
  resolves : ∀ (i : Nat) c e, w.changes[i]? = some c → entries[i]? = some e →
    w.Resolves answer entries i c e.outcome

variable {w : Work} {answer : Mutation → Except ClusterError Unit} {entries : List Entry}
  {history : List Event} {r : Run} {i d : Nat} {c : Change} {o : Outcome}

theorem Resolves.ne_cancelled (h : w.Resolves answer entries i c o) : o ≠ .cancelled := by
  cases h <;> nofun

/-- Nothing is left open. -/
theorem Accounted.ne_cancelled (h : w.Accounted answer entries) :
    ∀ e ∈ entries, e.outcome ≠ .cancelled := by
  intro e he
  obtain ⟨i, hi⟩ := List.mem_iff_getElem?.mp he
  have hlength := congrArg List.length h.heads
  rw [List.length_map, List.length_map] at hlength
  have hlt : i < w.changes.length := hlength ▸ (List.getElem?_eq_some_iff.mp hi).1
  exact (h.resolves i _ e (List.getElem?_eq_getElem hlt) hi).ne_cancelled

theorem getElem?_entries_of_outcome? (hc : w.changes[d]? = some c) (ho : r.outcome? d = some o) :
    (w.entries r)[d]? = some (entry c o) := by
  rw [getElem?_entries, hc, ho, Option.map_some, Option.getD_some]

/-- What is needed is found among the entries. -/
theorem exists_entry (hw : w.Backward) (hi : i < w.changes.length) (hd : d ∈ w.needs i)
    (ho : r.outcome? d = some o) :
    ∃ c, w.changes[d]? = some c ∧ (w.entries r)[d]? = some (entry c o) := by
  have hlt : d < w.changes.length := Nat.lt_trans (hw i hi d hd) hi
  have hc := List.getElem?_eq_getElem hlt
  exact ⟨_, hc, getElem?_entries_of_outcome? hc ho⟩

theorem Applied.cleared (h : w.Applied r.outcome? i) (hw : w.Backward)
    (hi : i < w.changes.length) : w.Cleared (w.entries r) i := by
  intro d hd
  obtain ⟨o, ho, hsuccess⟩ := h d hd
  obtain ⟨c, -, hentry⟩ := exists_entry hw hi hd ho
  exact ⟨_, hentry, hsuccess⟩

/-- A change is skipped for the first of those it needs that did not succeed. -/
theorem resolves_skipped (hw : w.Backward) (hascending : (w.needs i).Pairwise (· < ·))
    (hi : i < w.changes.length) (hs : w.Settled r.outcome? i)
    (hd : w.failedNeed? r i = some d) :
    w.Resolves answer (w.entries r) i c (.skipped (w.dependencyText d)) := by
  obtain ⟨hfailed, before, after, hneeds, hbefore⟩ := List.find?_eq_some_iff_append.mp hd
  obtain ⟨o, ho, hnot⟩ := (Option.any_eq_true _ _).mp hfailed
  have hmem : d ∈ w.needs i := hneeds ▸ List.mem_append_right _ List.mem_cons_self
  obtain ⟨e, he, hentry⟩ := exists_entry hw hi hmem ho
  have htext : w.dependencyText d = e.resource.text := by
    rw [dependencyText, he, Option.map_some, Option.getD_some]
  have hunsuccessful : o.isSuccess = false := by simpa using hnot
  rw [htext]
  refine .skipped hmem (fun j hj hlt => ?_) hentry hunsuccessful
  -- What is needed and earlier stands before it in the list, and so did not fail.
  have hj' : j ∈ before := by
    rw [hneeds] at hj hascending
    refine (List.mem_append.mp hj).resolve_right fun hafter => ?_
    rcases List.mem_cons.mp hafter with rfl | hafter
    · exact Nat.lt_irrefl _ hlt
    · have hless := List.rel_of_pairwise_cons (List.pairwise_append.mp hascending).2.1 hafter
      exact Nat.lt_asymm hlt hless
  obtain ⟨p, hp⟩ := Option.isSome_iff_exists.mp (hs j hj)
  obtain ⟨x, -, hx⟩ := exists_entry hw hi hj hp
  have hsuccess : p.isSuccess = true := by simpa [hp] using hbefore j hj'
  exact ⟨_, hx, hsuccess⟩

/-- What is justified in a run is told by its entries. -/
theorem resolves_of_justified (hw : w.Backward) (hascending : (w.needs i).Pairwise (· < ·))
    (hanswers : ∀ j result, .ended j result ∈ history →
      ∃ m, w.mutation? j = some m ∧ result = answer m)
    (hc : w.changes[i]? = some c) (h : w.Justified history r i o) :
    w.Resolves answer (w.entries r) i c o := by
  have hi := (List.getElem?_eq_some_iff.mp hc).1
  cases h with
  | skip hs hd => exact resolves_skipped hw hascending hi hs hd
  | pass happlied hx hm =>
      cases hc.symm.trans hx
      have hcleared := happlied.cleared hw hi
      cases c with
      | unreadable d error => exact .unreadable hcleared
      | unchanged d l => exact .unchanged hcleared
      | _ => cases hm
  | @ended x m result happlied hx hm he =>
      cases hc.symm.trans hx
      have hcleared := happlied.cleared hw hi
      obtain ⟨n, hn, rfl⟩ := hanswers i result he
      obtain rfl : n = m := by
        rw [mutation?, hc, Option.bind_some, hm] at hn
        exact (Option.some.inj hn).symm
      cases ha : answer n with
      | error e => exact .refused hcleared hm ha
      | ok =>
          rw [Work.ended, hc]
          cases c with
          | unreadable d error => cases hm
          | unchanged d l => cases hm
          | create d =>
              cases hm
              exact .created hcleared ha
          | update d l diff =>
              cases hm
              exact .updated hcleared ha
          | delete l =>
              cases hm
              exact .deleted hcleared ha

end Work

namespace Server

variable {S : Type} {server : Server S} {valid : S → Prop} {objects : S → Objects}
  {effects : Effects} {w : Work} {s : S}

/-- The entries of changes tell why each has its outcome, where calls answer as their objects give
it when the changes begin to be carried out. -/
theorem accounted_carryOut (hserver : server.Local valid objects effects) (hs : valid s)
    (hw : w.Backward) (hlimit : 0 < w.limit) (hapart : effects.Apart w.changes)
    (hascending : ∀ i, (w.needs i).Pairwise (· < ·)) :
    w.Accounted (effects.answer (objects s)) (w.entries (server.carryOut w s).1) := by
  refine ⟨w.map_entries _, fun i c e hc he => ?_⟩
  have hi := (List.getElem?_eq_some_iff.mp hc).1
  obtain ⟨o, ho⟩ := Option.isSome_iff_exists.mp
    (isSome_outcome?_of_local hserver hs hw hlimit hi)
  obtain rfl : Work.entry c o = e :=
    Option.some.inj ((Work.getElem?_entries_of_outcome? hc ho).symm.trans he)
  exact Work.resolves_of_justified hw (hascending i) (objects_carryOut hserver hs hapart).2 hc
    ((sound_carryOut hserver.fair hs).justified i o ho)

end Server

end Rollout
