import Mathlib.Data.List.Nodup
import Rollout.Proofs.Apply.Execution
import Rollout.Proofs.Document.Identity
/-!
Where each call depends on its own object only, the order in which calls end makes no
difference: changes end as if carried out one by one.
-/

namespace Rollout

/-- The call of a change is about the object of its document. -/
theorem Change.key_of_mutation? {c : Change} {m : Mutation} (h : c.mutation? = some m) :
    m.key = c.subject.key := by
  cases c with
  | unchanged d l => cases h
  | unreadable d error => cases h
  | create d => cases h; exact d.key_withLastApplied
  | update d l diff => cases h; exact d.key_withLastApplied
  | delete l => cases h; rfl

/-- An answer depends on the object of the call alone. -/
theorem Effects.answer_congr {effects : Effects} {objects objects' : Objects} {m : Mutation}
    (h : objects (effects.place m) = objects' (effects.place m)) :
    effects.answer objects m = effects.answer objects' m := by
  rw [answer, answer, h]

/-- No two changes ask for calls that are about the same object. -/
def Effects.Apart (effects : Effects) (changes : List Change) : Prop :=
  ((changes.filterMap Change.mutation?).map effects.place).Nodup

instance (effects : Effects) (changes : List Change) : Decidable (effects.Apart changes) :=
  inferInstanceAs (Decidable (List.Nodup _))

/-- In a cluster in memory, changes of different identities are about different objects. -/
theorem MemoryCluster.apart_effects {refused : List (Key × String)} {changes : List Change}
    (h : (changes.map (·.subject.key)).Nodup) : (effects refused).Apart changes := by
  rw [List.Nodup, List.pairwise_map] at h
  rw [Effects.Apart, List.Nodup, List.pairwise_map, List.pairwise_filterMap]
  refine h.imp fun {c d} hne m hm n hn => ?_
  rw [← Change.key_of_mutation? hm, ← Change.key_of_mutation? hn] at hne
  exact hne

namespace Work

/-- Calls with given effects. -/
def answering (effects : Effects) : Answering Objects := fun _ m objects =>
  (effects.answer objects m, effects.after objects m)

variable (w : Work) (effects : Effects)

/-- The call of a change. -/
def mutation? (i : Nat) : Option Mutation := w.changes[i]?.bind Change.mutation?

/-- The objects after the call of a change. -/
def touch (objects : Objects) (i : Nat) : Objects :=
  (w.mutation? i).elim objects (effects.after objects)

variable {w} {effects} {objects : Objects} {i j : Nat} {m n : Mutation} {l l' : List Nat}

/-- Calls of different changes are about different objects. -/
theorem place_ne (h : effects.Apart w.changes) (hm : w.mutation? i = some m)
    (hn : w.mutation? j = some n) (hij : i ≠ j) : effects.place m ≠ effects.place n := by
  obtain ⟨c, hc, hmc⟩ := Option.bind_eq_some_iff.mp hm
  obtain ⟨d, hd, hnd⟩ := Option.bind_eq_some_iff.mp hn
  obtain ⟨hi, rfl⟩ := List.getElem?_eq_some_iff.mp hc
  obtain ⟨hj, rfl⟩ := List.getElem?_eq_some_iff.mp hd
  rw [Effects.Apart, List.Nodup, List.pairwise_map, List.pairwise_filterMap,
    List.pairwise_iff_getElem] at h
  rcases Nat.lt_or_gt_of_ne hij with hlt | hlt
  · exact h i j hi hj hlt m hmc n hnd
  · exact (h j i hj hi hlt n hnd m hmc).symm

theorem touch_of_mutation? (hm : w.mutation? i = some m) :
    w.touch effects objects i = effects.after objects m := by
  rw [touch, hm, Option.elim_some]

theorem touch_apply_of_ne (h : effects.Apart w.changes) (hm : w.mutation? i = some m)
    (hij : j ≠ i) : w.touch effects objects j (effects.place m) = objects (effects.place m) := by
  cases hn : w.mutation? j with
  | none => rw [touch, hn, Option.elim_none]
  | some n =>
      rw [touch_of_mutation? hn, Effects.after, Function.update_of_ne (place_ne h hm hn hij.symm)]

/-- Calls about different objects can change places. -/
theorem touch_comm (h : effects.Apart w.changes) (objects : Objects) (i j : Nat) :
    w.touch effects (w.touch effects objects i) j =
      w.touch effects (w.touch effects objects j) i := by
  by_cases hij : i = j
  · rw [hij]
  · cases hm : w.mutation? i with
    | none => simp only [touch, hm, Option.elim_none]
    | some m => cases hn : w.mutation? j with
      | none => simp only [touch, hn, Option.elim_none]
      | some n =>
          have hne := place_ne h hm hn hij
          rw [touch_of_mutation? hn, touch_of_mutation? hm, touch_of_mutation? hm,
            touch_of_mutation? hn]
          simp only [Effects.after]
          rw [Function.update_of_ne hne.symm, Function.update_of_ne hne]
          exact Function.update_comm hne ..

theorem foldl_touch_perm (h : effects.Apart w.changes) (hl : l.Perm l') :
    l.foldl (w.touch effects) objects = l'.foldl (w.touch effects) objects :=
  hl.foldl_eq' (fun i _ j _ objects => touch_comm h objects i j) objects

theorem foldl_touch_apply (h : effects.Apart w.changes) (hm : w.mutation? i = some m) (hi : i ∉ l) :
    l.foldl (w.touch effects) objects (effects.place m) = objects (effects.place m) := by
  induction l generalizing objects with
  | nil => rfl
  | cons j l ih =>
      rw [List.mem_cons, not_or] at hi
      rw [List.foldl_cons, ih hi.2, touch_apply_of_ne h hm (Ne.symm hi.1)]

variable {history : List Event} {r : Run}

/-- The changes among the first ones whose calls ended. -/
def touched (history : List Event) (k : Nat) : List Nat :=
  (List.range k).filter fun i => i ∈ history.filterMap Event.index?

theorem touched_succ_of_mem {k : Nat} (hk : k ∈ history.filterMap Event.index?) :
    touched history (k + 1) = touched history k ++ [k] := by
  rw [touched, List.range_succ, List.filter_append, List.filter_singleton, decide_eq_true hk]
  rfl

theorem touched_succ_of_not_mem {k : Nat} (hk : k ∉ history.filterMap Event.index?) :
    touched history (k + 1) = touched history k := by
  rw [touched, List.range_succ, List.filter_append, List.filter_singleton, decide_eq_false hk]
  exact List.append_nil _

theorem not_mem_touched (history : List Event) (k : Nat) : k ∉ touched history k := by
  intro hk
  exact Nat.lt_irrefl k (List.mem_range.mp (List.mem_filter.mp hk).1)

/-- All calls that ended are among those of the first changes, if these are all changes. -/
theorem perm_touched (hnodup : (history.filterMap Event.index?).Nodup)
    (hended : ∀ i result, .ended i result ∈ history → ∃ m, w.mutation? i = some m) :
    (history.filterMap Event.index?).Perm (touched history w.changes.length) := by
  refine (List.perm_ext_iff_of_nodup hnodup (List.nodup_range.filter _)).mpr fun i => ?_
  rw [List.mem_filter, List.mem_range, decide_eq_true_iff, and_iff_right_of_imp]
  intro hi
  obtain ⟨e, he, hindex⟩ := List.mem_filterMap.mp hi
  cases e with
  | cancelled => cases hindex
  | ended j result =>
      cases hindex
      obtain ⟨m, hm⟩ := hended i result he
      obtain ⟨c, hc, -⟩ := Option.bind_eq_some_iff.mp hm
      exact (List.getElem?_eq_some_iff.mp hc).1

/-- A change visited in its turn gets the outcome that it has in a run, and if the run made a call
for it the same call is made. -/
theorem visit_eq_of_run {c : Change} {done : List Outcome} {o : Outcome} (hw : w.Backward)
    (hapart : effects.Apart w.changes) (h : w.Sound history r)
    (hended : ∀ i result, .ended i result ∈ history → r.outcome? i = some (w.ended i result) ∧
      ∃ m, w.mutation? i = some m ∧ result = effects.answer objects m)
    (hi : w.changes[done.length]? = some c) (hdone : Covers done r)
    (ho : r.outcome? done.length = some o) :
    w.visit (answering effects) done
        ((touched history done.length).foldl (w.touch effects) objects) c =
      (o, (touched history (done.length + 1)).foldl (w.touch effects) objects) := by
  have hmutation : w.mutation? done.length = c.mutation? := by rw [mutation?, hi, Option.bind_some]
  rcases visit_of_justified hw hdone hi (h.justified _ o ho) (answering effects) _ with
    ⟨hnone, hvisit⟩ | ⟨m, result, hm, he, rfl, hvisit⟩
  · rw [hvisit, touched_succ_of_not_mem]
    intro hmem
    obtain ⟨e, he, hindex⟩ := List.mem_filterMap.mp hmem
    cases e with
    | cancelled => cases hindex
    | ended j result =>
        cases hindex
        obtain ⟨hout, m, hm, -⟩ := hended _ _ he
        rw [ho] at hout
        cases hout
        rw [(w.ended_cases _ result).1, ← hmutation, hm] at hnone
        exact hnone.elim nofun nofun
  · obtain ⟨-, n, hn, rfl⟩ := hended _ _ he
    obtain rfl : n = m := Option.some.inj (hn.symm.trans (hmutation.trans hm))
    -- The calls before it are about other objects, so its own is as it was at first.
    have hsame : effects.answer ((touched history done.length).foldl (w.touch effects) objects) n =
        effects.answer objects n :=
      Effects.answer_congr (foldl_touch_apply hapart hn (not_mem_touched history done.length))
    rw [hvisit, touched_succ_of_mem (List.mem_filterMap.mpr ⟨_, he, rfl⟩), List.foldl_append,
      List.foldl_cons, List.foldl_nil, touch_of_mutation? hn, answering, hsame]

/-- A run with an outcome for every change ends as if the changes were carried out one by one. -/
theorem sequential_of_run (hw : w.Backward) (hapart : effects.Apart w.changes) (h : w.Sound history r)
    (hcomplete : ∀ i < w.changes.length, (r.outcome? i).isSome)
    (hended : ∀ i result, .ended i result ∈ history → r.outcome? i = some (w.ended i result) ∧
      ∃ m, w.mutation? i = some m ∧ result = effects.answer objects m) :
    (∀ i, r.outcome? i = (w.sequential (answering effects) objects).1[i]?) ∧
      (w.sequential (answering effects) objects).2 =
        (touched history w.changes.length).foldl (w.touch effects) objects := by
  obtain ⟨⟨hcovers, hobjects⟩, hlength⟩ := w.sequential_induction (answering effects) objects
    (fun p => Covers p.1 r ∧
      p.2 = (touched history p.1.length).foldl (w.touch effects) objects)
    ⟨fun _ hi => (nomatch hi), rfl⟩ (by
      rintro ⟨done, t⟩ c hi ⟨hdone, ht⟩
      dsimp only at ht
      subst ht
      obtain ⟨o, ho⟩ := Option.isSome_iff_exists.mp
        (hcomplete _ (List.getElem?_eq_some_iff.mp hi).1)
      have hvisit := visit_eq_of_run hw hapart h hended hi hdone ho
      refine ⟨covers_advance hdone fun x hx => ?_, ?_⟩
      · rw [hvisit]
        exact Option.some.inj (ho.symm.trans hx)
      · rw [advance, hvisit, List.length_append]
        rfl)
  rw [hlength] at hobjects
  refine ⟨fun i => ?_, hobjects⟩
  by_cases hi : i < w.changes.length
  · obtain ⟨o, ho⟩ := Option.isSome_iff_exists.mp (hcomplete i hi)
    rw [ho, hcovers i (hlength.symm ▸ hi) o ho]
  · have hnone : r.outcomes[i]? = none := List.getElem?_eq_none (by rw [h.length]; omega)
    rw [List.getElem?_eq_none (by omega), Run.outcome?, hnone]
    rfl

end Work

namespace Server.Follows

variable {S : Type} {server : Server S} {valid : S → Prop} {objects : S → Objects}
  {effects : Effects} {w : Work} {history : List Event} {r q : Run} {s t : S} {es : List Event}

/-- The calls of a run change the objects one after the other, and each finds its own as it was
when the run began. -/
theorem objects_eq (h : server.Follows valid w r s es q t)
    (hserver : server.Local valid objects effects) (hw : effects.Apart w.changes) (hr : w.Sound history r)
    (hes : ∀ e ∈ es, e ∈ history) :
    objects t = (es.filterMap Event.index?).foldl (w.touch effects) (objects s) ∧
      ∀ i result, .ended i result ∈ es →
        ∃ m, w.mutation? i = some m ∧ result = effects.answer (objects s) m := by
  induction h with
  | done => exact ⟨rfl, nofun⟩
  | @ended r q s t i m result es hs hm he hrest ih =>
      rw [List.forall_mem_cons] at hes
      obtain ⟨hsound, -, hsome⟩ := hr.launch.step_ended hm hes.1
      obtain ⟨-, j, n, hn, hj, hobjects⟩ := hserver.await s _ (w.launch r).cancelled hs
        (List.ne_nil_of_mem hm)
      rw [he] at hj
      cases hj
      obtain ⟨-, c, hc, hcn⟩ := hr.launch.called i n hn
      have hmutation : w.mutation? i = some n := Option.bind_eq_some_iff.mpr ⟨c, hc, hcn⟩
      rw [← Work.touch_of_mutation? hmutation] at hobjects
      obtain ⟨hfold, hresults⟩ := ih hsound hes.2
      refine ⟨hfold.trans ?_, fun j result hmem => ?_⟩
      · rw [hobjects]
        rfl
      · rcases List.mem_cons.mp hmem with heq | hmem
        · cases heq
          exact ⟨n, hmutation, rfl⟩
        · obtain ⟨k, hk, hresult⟩ := hresults j result hmem
          have hne : i ≠ j := by
            rintro rfl
            exact hrest.not_mem_index? hsound hes.2 hsome (List.mem_filterMap.mpr ⟨_, hmem, rfl⟩)
          rw [hobjects, Effects.answer_congr (Work.touch_apply_of_ne hw hk hne)] at hresult
          exact ⟨k, hk, hresult⟩
  | cancelled hs hcalls _ he => exact absurd he (hserver.await_ne_cancelled hs hcalls)

theorem cancelled_eq_false (h : server.Follows valid w r s es q t)
    (hserver : server.Local valid objects effects) (hr : r.cancelled = false) :
    q.cancelled = false := by
  induction h with
  | done => rw [w.cancelled_launch, hr]
  | ended _ _ _ _ ih => exact ih (by rw [w.cancelled_step_ended, w.cancelled_launch, hr])
  | cancelled hs hcalls _ he => exact absurd he (hserver.await_ne_cancelled hs hcalls)

end Server.Follows

namespace Server

variable {S : Type} {server : Server S} {valid : S → Prop} {objects : S → Objects}
  {effects : Effects} {w : Work} {s : S}

/-- Without cancelling, nothing is left open. -/
theorem isSome_outcome?_of_local (hserver : server.Local valid objects effects) (hs : valid s)
    (hw : w.Backward) (hlimit : 0 < w.limit) {i : Nat} (hi : i < w.changes.length) :
    ((server.carryOut w s).1.outcome? i).isSome := by
  by_contra hnone
  have hcancelled := cancelled_of_outcome?_eq_none hserver.fair hs hw hlimit hi (by simpa using hnone)
  rw [(follows_carryOut hserver.fair hs).cancelled_eq_false hserver (hserver.ask s hs).1]
    at hcancelled
  cases hcancelled

/-- The calls change the objects one after the other, and each answers as if it were the first. -/
theorem objects_carryOut (hserver : server.Local valid objects effects) (hs : valid s)
    (hapart : effects.Apart w.changes) :
    objects (server.carryOut w s).2 =
        ((server.history w s).filterMap Event.index?).foldl (w.touch effects) (objects s) ∧
      ∀ i result, .ended i result ∈ server.history w s →
        ∃ m, w.mutation? i = some m ∧ result = effects.answer (objects s) m := by
  have hfollows := follows_carryOut (w := w) hserver.fair hs
  have h := hfollows.objects_eq hserver hapart (Work.sound_start _) fun _ he => he
  rwa [(hserver.ask s hs).2.2] at h

/-- Changes end as if carried out one by one, in whatever order their calls end. -/
theorem carryOut_eq_sequential (hserver : server.Local valid objects effects) (hs : valid s)
    (hw : w.Backward) (hlimit : 0 < w.limit) (hapart : effects.Apart w.changes) :
    (∀ i, (server.carryOut w s).1.outcome? i =
      (w.sequential (Work.answering effects) (objects s)).1[i]?) ∧
      objects (server.carryOut w s).2 =
        (w.sequential (Work.answering effects) (objects s)).2 := by
  have hfair := hserver.fair
  have hstart : w.Sound (server.history w s) (server.begun w s) := Work.sound_start _
  have hfollows := follows_carryOut (w := w) hfair hs
  obtain ⟨hobjects, hresults⟩ := objects_carryOut hserver hs hapart
  have hended : ∀ i result, .ended i result ∈ server.history w s →
      (server.carryOut w s).1.outcome? i = some (w.ended i result) ∧
        ∃ m, w.mutation? i = some m ∧ result = effects.answer (objects s) m :=
    fun i result he => ⟨hfollows.outcome?_of_ended hstart (fun _ h => h) he, hresults i result he⟩
  obtain ⟨houtcomes, hreference⟩ := Work.sequential_of_run hw hapart (sound_carryOut hfair hs)
    (fun i hi => isSome_outcome?_of_local hserver hs hw hlimit hi) hended
  refine ⟨houtcomes, hobjects.trans (Eq.trans ?_ hreference.symm)⟩
  exact Work.foldl_touch_perm hapart
    (Work.perm_touched (hfollows.nodup_index? hstart fun _ he => he) fun i result he =>
      (hended i result he).2.imp fun m hm => hm.1)

end Server

end Rollout
