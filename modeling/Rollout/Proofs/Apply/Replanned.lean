import Rollout.Proofs.Apply.Consent
import Rollout.Proofs.Plan.Stored
/-!
Planning a build again after it was applied with success, on a cluster where no call fails by plan.
Nothing is left to do, exactly if each document that was written is read again where it was written,
and there was room for its record.
-/

namespace Rollout

namespace MemoryCluster

variable {objects objects' : Ordered Key Document} {d : Document} {m : Mutation}

theorem exists_stored_of_lands (hfiled : Filed objects)
    (h : Lands m (Ordered.find? m.key objects) (Ordered.find? m.key objects'))
    (hm : m = .create d.withLastApplied ∨ m = .update d.withLastApplied) :
    ∃ l, Ordered.find? d.key objects' = some l ∧ d.Stored l := by
  have hkey : m.key = d.key := by
    rcases hm with rfl | rfl <;> exact d.key_withLastApplied
  rw [hkey] at h
  generalize hbefore : Ordered.find? d.key objects = before at h
  generalize Ordered.find? d.key objects' = after at h
  rcases hm with rfl | rfl
  · cases h
    exact ⟨_, rfl, .created⟩
  · cases h with
    | update hmerged =>
        have hlive := hfiled.filed _ (Ordered.mem_of_find?_eq_some hbefore)
        exact ⟨_, rfl, .updated hlive hmerged⟩

end MemoryCluster

/-- A document with the key that another is read by, which is not its own, is read by its key. -/
theorem Document.key_liveRef_of_key_eq {crds : List CrdRef} {d e : Document}
    (hne : (d.liveRef crds).key ≠ d.key) (hkey : e.key = (d.liveRef crds).key) :
    (e.liveRef crds).key = e.key := by
  rcases key_liveRef_cases crds d with hown | ⟨-, -, hdefault⟩
  · exact absurd hown hne
  · have hns : e.ns? = some defaultNamespace := congrArg Key.ns (hkey.trans hdefault)
    rw [liveRef_of_ns? hns]
    rfl

theorem error?_planChange (d : Document) (live : Option Document) (context : Nat) :
    (planChange d live context).error? = none := by
  cases live with
  | none => rfl
  | some l =>
      rw [planChange]
      split <;> rfl

theorem planChange_cases (d : Document) (live : Option Document) (context : Nat) :
    (planChange d live context).action = .unchanged ∧
        (planChange d live context).mutation? = none ∨
      (planChange d live context).action ≠ .unchanged ∧
        ∃ m, (planChange d live context).mutation? = some m ∧
          (m = .create d.withLastApplied ∨ m = .update d.withLastApplied) := by
  cases live with
  | none => exact .inr ⟨by rintro ⟨⟩, _, rfl, .inl rfl⟩
  | some l =>
      rw [planChange]
      split
      · exact .inl ⟨rfl, rfl⟩
      · exact .inr ⟨by rintro ⟨⟩, _, rfl, .inr rfl⟩

/-- A plan was made, and it leaves nothing to do. -/
def Settled (planned : Except ClusterError Plan) : Prop :=
  ∃ p, planned = .ok p ∧ p.hasMutations = false ∧ p.unreadable = 0

namespace Plan

variable {p : Plan} {b : Build}

/-- Each document that is written is read again where it is written, and no other is. -/
structure Placed (p : Plan) (b : Build) : Prop where
  place : ∀ c ∈ p.changes, c.action ≠ .unchanged →
    (c.subject.liveRef b.crds).key = c.subject.key
  alone : ∀ (i j : Nat) (c : Change) (d : Document), p.changes[i]? = some c →
    c.action ≠ .unchanged → b.documents[j]? = some d →
      (d.liveRef b.crds).key = c.subject.key → j = i

/-- Where no two documents are read in the same place, each is read in one place only. -/
theorem placed_of_nodup (hsubject : p.changes.map Change.subject = b.documents)
    (hlive : (b.documents.map fun d => (d.liveRef b.crds).key).Nodup)
    (hplace : ∀ c ∈ p.changes, c.action ≠ .unchanged →
      (c.subject.liveRef b.crds).key = c.subject.key) : p.Placed b := by
  refine ⟨hplace, fun i j c d hi hwritten hj hkey => ?_⟩
  have hdocument : b.documents[i]? = some c.subject := by
    rw [← hsubject, List.getElem?_map, hi]
    rfl
  exact eq_of_label_eq hlive hj hdocument
    (hkey.trans (hplace c (List.mem_of_getElem? hi) hwritten).symm)

/-- There is room for the record of each document that is written, too. -/
structure Reread (p : Plan) (b : Build) : Prop extends p.Placed b where
  room : ∀ c ∈ p.changes, c.action ≠ .unchanged → c.subject.Stampable

/-- No two changes that are made are about the same object. -/
theorem Placed.nodup_keys (h : p.Placed b) (hsubject : p.changes.map Change.subject = b.documents) :
    ((p.changes.filterMap Change.mutation?).map Mutation.key).Nodup := by
  rw [List.Nodup, List.pairwise_map, List.pairwise_filterMap, List.pairwise_iff_getElem]
  intro i j hi hj hij m hm n hn heq
  have hwritten := (Change.error?_eq_none hm).2
  have hplace := h.place _ (List.getElem_mem hj) (Change.error?_eq_none hn).2
  have hdocument : b.documents[j]? = some p.changes[j].subject := by
    rw [← hsubject, List.getElem?_map, List.getElem?_eq_getElem hj]
    rfl
  rw [Change.key_of_mutation? hm, Change.key_of_mutation? hn] at heq
  exact hij.ne' (h.alone i j _ _ (List.getElem?_eq_getElem hi) hwritten hdocument
    (hplace.trans heq.symm))

end Plan

namespace Simulation

variable {s t u : Simulation} {b : Build} {p : Plan} {o : ApplyOptions} {builder : Builder}
  {ms : List Mutation} {d : Document}

/-- All kinds are served, all objects can be read and listed, and no change is refused. -/
structure Faultless (s : Simulation) : Prop where
  unserved : s.unserved = []
  unreadable : s.unreadable = []
  listFault : s.listFault = none
  refused : s.cluster.refused = []

theorem Faultless.of_wrote (h : s.Faultless) (hwrote : s.Wrote ms t) : t.Faultless where
  unserved := hwrote.unserved.trans h.unserved
  unreadable := hwrote.unreadable.trans h.unreadable
  listFault := hwrote.listFault.trans h.listFault
  refused := hwrote.refused.trans h.refused

/-- The change that is planned for a document. -/
def change (b : Build) (o : ApplyOptions) (s : Simulation) (d : Document) : Change :=
  planChange d (s.cluster.find? (d.liveRef b.crds).key) o.diffContext

/-- The listed objects that are no documents of the build. -/
def stale (b : Build) (o : ApplyOptions) (s : Simulation) : List Document :=
  match o.pruneSelector with
  | none => []
  | some selector => (s.cluster.list selector).1.filter fun l =>
      !(Server.desiredKeys b.crds b.documents).contains l.key

theorem Faultless.get_eq (h : s.Faultless) (r : ObjectRef) :
    (s.get r).1 = .ok (s.cluster.find? r.key) := by
  rw [get, serves, h.unserved, h.unreadable]
  rfl

theorem Faultless.list_eq (h : s.Faultless) (selector : String) :
    (s.list selector).1 = .ok (s.cluster.list selector).1 := by
  rw [list, h.listFault]

theorem Faultless.planDocuments_eq (h : s.Faultless) (crds : List CrdRef) (context : Nat)
    (ds : List Document) :
    (server.planDocuments crds context s ds).1 =
      ds.map fun d => planChange d (s.cluster.find? (d.liveRef crds).key) context := by
  induction ds generalizing s with
  | nil => rfl
  | cons d ds ih =>
      have hget : (server.get s (d.liveRef crds)).1 =
          .ok (s.cluster.find? (d.liveRef crds).key) := h.get_eq _
      have hread := s.unmoved_get (d.liveRef crds)
      have hrest := ih (h.of_wrote hread.wrote)
      rw [List.map_cons, Server.planDocuments]
      refine congrArg₂ List.cons ?_ ?_
      · rw [Server.planDocument]
        dsimp only
        rw [hget]
      · refine hrest.trans (List.map_congr_left fun e _ => ?_)
        rw [MemoryCluster.find?, hread.objects, MemoryCluster.find?]

/-- Where no call fails by plan, all documents are read, and objects are listed if they are to be
deleted. -/
theorem Faultless.plan_eq (h : s.Faultless) (b : Build) (o : ApplyOptions) :
    (server.plan b o s).1 = (planDeletes (stale b o s)).map fun x =>
      { changes := b.documents.map (change b o s), deletes := x.1, deleteDependencies := x.2 } := by
  have hchanges : (server.planDocuments (b.documents.filterMap Document.crd?) o.diffContext s
      b.documents).1 = b.documents.map (change b o s) := h.planDocuments_eq _ _ _
  have hread : Unmoved s (server.planDocuments (b.documents.filterMap Document.crd?) o.diffContext s
      b.documents).2 := unmoved_planDocuments _ _ _ _
  rw [Server.plan, stale]
  dsimp only
  rw [hchanges]
  cases o.pruneSelector with
  | none => rfl
  | some selector =>
      have hlisted : (server.list (server.planDocuments (b.documents.filterMap Document.crd?)
          o.diffContext s b.documents).2 selector).1 = .ok (s.cluster.list selector).1 := by
        refine ((h.of_wrote hread.wrote).list_eq selector).trans ?_
        rw [MemoryCluster.list, MemoryCluster.sorted, hread.objects]
        rfl
      dsimp only
      rw [hlisted]
      exact bind_pure_comp (m := Except ClusterError) _ _

theorem mem_stale (hfiled : MemoryCluster.Filed s.cluster.objects) {l : Document} :
    l ∈ stale b o s ↔ ∃ selector, o.pruneSelector = some selector ∧
      s.cluster.find? l.key = some l ∧ l.key ∉ Server.desiredKeys b.crds b.documents ∧
      selectorMatches selector (l.notes .labels) = true := by
  rw [stale]
  cases o.pruneSelector with
  | none => exact ⟨nofun, fun ⟨_, h, _⟩ => nomatch h⟩
  | some selector =>
      have hsorted : l ∈ s.cluster.sorted.map (·.2) ↔ s.cluster.find? l.key = some l := by
        rw [List.mem_map]
        constructor
        · rintro ⟨e, he, rfl⟩
          have he := (List.mergeSort_perm _ _).mem_iff.mp he
          exact Ordered.find?_eq_some_of_mem hfiled.nodup (hfiled.filed e he ▸ he)
        · intro hfind
          exact ⟨_, (List.mergeSort_perm _ _).mem_iff.mpr (Ordered.mem_of_find?_eq_some hfind), rfl⟩
      simp [MemoryCluster.list, hsorted]

theorem liveRef_mem_desiredKeys (hd : d ∈ b.documents) :
    (d.liveRef b.crds).key ∈ Server.desiredKeys b.crds b.documents :=
  Server.mem_desiredKeys.mpr ⟨d, hd, .inr rfl⟩

section Replanned

variable (hs : s.Faultless) (hfiled : MemoryCluster.Filed s.cluster.objects)
  (hplan : server.plan b o s = (.ok p, t)) (hms : ms.Perm (p.all.filterMap Change.mutation?))
  (hwrote : s.Wrote ms u)

theorem subject_change (b : Build) (o : ApplyOptions) (s : Simulation) (d : Document) :
    (change b o s d).subject = d := subject_planChange d _ _

include hs hplan

theorem Faultless.changes_eq : p.changes = b.documents.map (change b o s) := by
  have hp := hs.plan_eq b o
  rw [hplan] at hp
  obtain ⟨x, -, hx⟩ := map_eq_ok.mp hp.symm
  rw [← hx]

theorem change_mem (hd : d ∈ b.documents) : change b o s d ∈ p.changes := by
  rw [hs.changes_eq hplan]
  exact List.mem_map_of_mem hd

theorem Faultless.deletes_iff {c : Change} :
    c ∈ p.deletes ↔ ∃ l ∈ stale b o s, c = .delete l := by
  have hp := hs.plan_eq b o
  rw [hplan] at hp
  obtain ⟨x, hx, rfl⟩ := map_eq_ok.mp hp.symm
  have hdeletes := (deletes_of_planDeletes hx).1
  constructor
  · intro hc
    exact ⟨c.subject, hdeletes.mem_iff.mp (List.mem_map_of_mem hc), eq_delete_of_planDeletes hx hc⟩
  · rintro ⟨l, hl, rfl⟩
    obtain ⟨c, hc, rfl⟩ := List.mem_map.mp (hdeletes.mem_iff.mpr hl)
    exact eq_delete_of_planDeletes hx hc ▸ hc

omit hs hplan in
theorem Faultless.settled_iff (h : s.Faultless) :
    Settled (server.plan b o s).1 ↔
      (∀ d ∈ b.documents, (change b o s d).action = .unchanged) ∧ stale b o s = [] := by
  constructor
  · rintro ⟨p, hp, hnone, -⟩
    have hplan : server.plan b o s = (.ok p, (server.plan b o s).2) := Prod.ext hp rfl
    have hquiet : ∀ c ∈ p.all, c.action = .unchanged := by
      intro c hc
      simpa [Action.isMutation] using List.any_eq_false.mp hnone c hc
    refine ⟨fun d hd => hquiet _ (List.mem_append_left _ (change_mem h hplan hd)), ?_⟩
    rw [List.eq_nil_iff_forall_not_mem]
    intro l hl
    cases hquiet _ (List.mem_append_right _ ((h.deletes_iff hplan).mpr ⟨l, hl, rfl⟩))
  · rintro ⟨hunchanged, hstale⟩
    have hp := h.plan_eq b o
    rw [hstale, show planDeletes [] = .ok ([], []) from rfl] at hp
    refine ⟨_, hp, ?_, ?_⟩
    · rw [Plan.hasMutations, Plan.all, List.append_nil, List.any_eq_false]
      intro c hc
      obtain ⟨d, hd, rfl⟩ := List.mem_map.mp hc
      simp [Action.isMutation, hunchanged d hd]
    · rw [Plan.unreadable, Plan.all, List.append_nil, List.countP_eq_zero]
      intro c hc
      obtain ⟨d, hd, rfl⟩ := List.mem_map.mp hc
      rw [change, error?_planChange]
      exact Bool.false_ne_true

include hfiled hms hwrote

omit hs in
/-- Where no document is written that has the key, an object of the build is as it was. -/
theorem find?_of_not_written {k : Key} (hk : k ∈ Server.desiredKeys b.crds b.documents)
    (hunwritten : ∀ c ∈ p.changes, c.action ≠ .unchanged → c.subject.key ≠ k) :
    u.cluster.find? k = s.cluster.find? k := by
  refine MemoryCluster.find?_of_foldlM_change hfiled hwrote.objects fun m hm hmk => ?_
  obtain ⟨c, hc, hcm⟩ := List.mem_filterMap.mp (hms.mem_iff.mp hm)
  have hkey := (Change.key_of_mutation? hcm).symm.trans hmk
  rcases List.mem_append.mp hc with hc | hc
  · exact hunwritten c hc (Change.error?_eq_none hcm).2 hkey
  · exact Server.not_mem_desiredKeys_of_plan hplan hc (hkey ▸ hk)

omit hs hwrote in
theorem nodup_of_placed (hplaced : p.Placed b) : (ms.map Mutation.key).Nodup := by
  rw [(hms.map _).nodup_iff, Plan.all, List.filterMap_append, List.map_append]
  refine List.nodup_append.mpr ⟨hplaced.nodup_keys (Server.subject_of_plan hplan), ?_, ?_⟩
  · have hdistinct := List.pairwise_map.mp (nodup_keys_deletes_of_plan hfiled hplan)
    refine List.pairwise_map.mpr (List.pairwise_filterMap.mpr (hdistinct.imp ?_))
    intro c c' hne m hm n hn
    rwa [Change.key_of_mutation? hm, Change.key_of_mutation? hn]
  · intro k hk k' hk' heq
    obtain ⟨m, hm, rfl⟩ := List.mem_map.mp hk
    obtain ⟨n, hn, rfl⟩ := List.mem_map.mp hk'
    obtain ⟨c, hc, hcm⟩ := List.mem_filterMap.mp hm
    obtain ⟨c', hc', hcn⟩ := List.mem_filterMap.mp hn
    rw [Change.key_of_mutation? hcm, Change.key_of_mutation? hcn] at heq
    exact Server.key_ne_of_plan hplan hc hc' heq

/-- A document that was written is stored under its key. -/
theorem exists_stored (hnodup : (ms.map Mutation.key).Nodup) (hd : d ∈ b.documents)
    (hwritten : (change b o s d).action ≠ .unchanged) :
    ∃ l, u.cluster.find? d.key = some l ∧ d.Stored l := by
  rcases planChange_cases d (s.cluster.find? (d.liveRef b.crds).key) o.diffContext with
    ⟨hunchanged, -⟩ | ⟨-, m, hm, hform⟩
  · exact absurd hunchanged hwritten
  · have hmem : m ∈ ms := hms.mem_iff.mpr (List.mem_filterMap.mpr
      ⟨_, List.mem_append_left _ (change_mem hs hplan hd), hm⟩)
    exact MemoryCluster.exists_stored_of_lands hfiled
      (MemoryCluster.lands_of_foldlM_change hfiled hwrote.objects hnodup hmem) hform

/-- All stale objects are gone, and there are no new ones. -/
theorem stale_eq_nil (hnodup : (ms.map Mutation.key).Nodup) : stale b o u = [] := by
  rw [List.eq_nil_iff_forall_not_mem]
  intro l hl
  have hleft := hfiled.foldlM_change hwrote.objects
  obtain ⟨selector, hselector, hfind, hforeign, hmatches⟩ := (mem_stale hleft).mp hl
  have hkept : ∀ m ∈ ms, m.key ≠ l.key := by
    intro m hm hkey
    have hlands := MemoryCluster.lands_of_foldlM_change hfiled hwrote.objects hnodup hm
    obtain ⟨c, hc, hcm⟩ := List.mem_filterMap.mp (hms.mem_iff.mp hm)
    rcases List.mem_append.mp hc with hc | hc
    · rw [Change.key_of_mutation? hcm] at hkey
      exact hforeign (hkey ▸ Server.mem_desiredKeys_of_plan hplan hc)
    · obtain ⟨l', -, rfl⟩ := (hs.deletes_iff hplan).mp hc
      obtain rfl : .delete l'.ref = m := Option.some.inj hcm
      have hfind : Ordered.find? l.key u.cluster.objects = some l := hfind
      rw [hkey, hfind] at hlands
      cases hlands
  refine hkept (.delete l.ref) (hms.mem_iff.mpr (List.mem_filterMap.mpr ⟨.delete l, ?_, rfl⟩)) rfl
  refine List.mem_append_right _ ((hs.deletes_iff hplan).mpr ⟨l, ?_, rfl⟩)
  refine (mem_stale hfiled).mpr ⟨selector, hselector, ?_, hforeign, hmatches⟩
  exact (MemoryCluster.find?_of_foldlM_change hfiled hwrote.objects hkept).symm.trans hfind

theorem settled_of_reread (h : p.Reread b) : Settled (server.plan b o u).1 := by
  have hnodup := nodup_of_placed hfiled hplan hms h.toPlaced
  refine (hs.of_wrote hwrote).settled_iff.mpr
    ⟨fun d hd => ?_, stale_eq_nil hs hfiled hplan hms hwrote hnodup⟩
  by_cases hread : ∃ c ∈ p.changes, c.action ≠ .unchanged ∧
      c.subject.key = (d.liveRef b.crds).key
  · obtain ⟨c, hc, hwritten, hkey⟩ := hread
    obtain ⟨i, hi⟩ := List.mem_iff_getElem?.mp hc
    obtain ⟨j, hj⟩ := List.mem_iff_getElem?.mp hd
    obtain rfl := h.alone i j c d hi hwritten hj hkey.symm
    rw [hs.changes_eq hplan, List.getElem?_map, hj, Option.map_some] at hi
    obtain rfl := Option.some.inj hi
    have hroom := h.room _ hc hwritten
    rw [subject_change] at hkey hroom
    obtain ⟨l, hl, hstored⟩ := exists_stored hs hfiled hplan hms hwrote hnodup hd hwritten
    rw [change, ← hkey, hl]
    exact (unchanged_stored_iff hstored _).mpr hroom
  · have hsame := find?_of_not_written hfiled hplan hms hwrote (liveRef_mem_desiredKeys hd)
      fun c hc hwritten hkey => hread ⟨c, hc, hwritten, hkey⟩
    rw [change, hsame]
    by_contra hwritten
    have hmem := change_mem hs hplan hd
    have hplace := h.place _ hmem hwritten
    rw [subject_change] at hplace
    exact hread ⟨_, hmem, hwritten, by rw [subject_change, hplace]⟩

theorem reread_of_settled (hlive : (b.documents.map fun d => (d.liveRef b.crds).key).Nodup)
    (h : Settled (server.plan b o u).1) : p.Reread b := by
  obtain ⟨hunchanged, -⟩ := (hs.of_wrote hwrote).settled_iff.mp h
  have hchange {c : Change} (hc : c ∈ p.changes) : ∃ d ∈ b.documents, change b o s d = c := by
    rw [hs.changes_eq hplan] at hc
    exact List.mem_map.mp hc
  have hplace : ∀ c ∈ p.changes, c.action ≠ .unchanged →
      (c.subject.liveRef b.crds).key = c.subject.key := by
    intro c hc hwritten
    obtain ⟨d, hd, rfl⟩ := hchange hc
    rw [subject_change]
    by_contra hne
    -- No document is written where this one is read, so the same is planned for it again.
    have hsame := find?_of_not_written hfiled hplan hms hwrote (liveRef_mem_desiredKeys hd)
      fun c' hc' _ hkey => by
        obtain ⟨e, he, rfl⟩ := hchange hc'
        rw [subject_change] at hkey
        have hlives := Document.key_liveRef_of_key_eq hne hkey
        obtain rfl := List.inj_on_of_nodup_map hlive he hd (hlives.trans hkey)
        exact hne hkey.symm
    have hagain := hunchanged d hd
    rw [change, hsame] at hagain
    exact hwritten hagain
  have hplaced := Plan.placed_of_nodup (Server.subject_of_plan hplan) hlive hplace
  refine ⟨hplaced, fun c hc hwritten => ?_⟩
  obtain ⟨d, hd, rfl⟩ := hchange hc
  have hnodup := nodup_of_placed hfiled hplan hms hplaced
  obtain ⟨l, hl, hstored⟩ := exists_stored hs hfiled hplan hms hwrote hnodup hd hwritten
  have hagain := hunchanged d hd
  have hread := hplace _ hc hwritten
  rw [subject_change] at hread ⊢
  rw [change, hread, hl] at hagain
  exact (unchanged_stored_iff hstored _).mp hagain

end Replanned

/-- What is applied with success has made all changes of its plan. -/
theorem exists_wrote_of_success {confirm : Confirmation Simulation}
    (hconfirm : ∀ p t, Unmoved t (confirm p t).2) {r : Report}
    (hr : (server.applyBuilder confirm builder o s).result = .ok r)
    (hsuccess : r.isSuccess = true) :
    ∃ b p t ms, builder.build o.ns = .ok b ∧ server.plan b o s = (.ok p, t) ∧
      ms.Perm (p.all.filterMap Change.mutation?) ∧
      s.Wrote ms (server.applyBuilder confirm builder o s).state := by
  rcases applyBuilder_cases hconfirm builder o s with
    ⟨e, herror, -⟩ | ⟨b, p, t, u, hbuild, hplan, hu, -, hresult, hstate, -⟩
  · rw [hr] at herror
    cases herror
  · obtain ⟨report, hreport, htells, ms, hms, hwrote⟩ := wrote_execute b p o u
    obtain rfl : r = report := Except.ok.inj (hr.symm.trans (hresult.trans hreport))
    rw [Report.isSuccess, Bool.and_eq_true, List.all_eq_true] at hsuccess
    rw [htells.reported_eq hsuccess.2] at hms
    refine ⟨b, p, t, ms, hbuild, hplan, hms, ?_⟩
    rw [hstate, ← List.nil_append ms]
    exact hu.wrote.trans hwrote

/-- Once a build was applied with success, planning it again leaves nothing to do, if each document
that was written is read again where it was written and there was room for its record; and only
then, where no two documents are read in the same place. -/
theorem settled_of_success {confirm : Confirmation Simulation} (hs : s.Faultless)
    (hfiled : MemoryCluster.Filed s.cluster.objects) (hconfirm : ∀ p t, Unmoved t (confirm p t).2)
    {r : Report} (hr : (server.applyBuilder confirm builder o s).result = .ok r)
    (hsuccess : r.isSuccess = true) :
    ∃ b p t, builder.build o.ns = .ok b ∧ server.planBuilder builder o s = (.ok p, t) ∧
      (p.Reread b → Settled (server.planBuilder builder o
        (server.applyBuilder confirm builder o s).state).1) ∧
      ((b.documents.map fun d => (d.liveRef b.crds).key).Nodup →
        Settled (server.planBuilder builder o
          (server.applyBuilder confirm builder o s).state).1 → p.Reread b) := by
  obtain ⟨b, p, t, ms, hbuild, hplan, hms, hwrote⟩ :=
    exists_wrote_of_success hconfirm hr hsuccess
  rw [planBuilder_eq hbuild, planBuilder_eq hbuild]
  refine ⟨b, p, t, hbuild, hplan, fun h => ?_, fun hlive h => ?_⟩
  · exact settled_of_reread hs hfiled hplan hms hwrote h
  · exact reread_of_settled hs hfiled hplan hms hwrote hlive h

def approved (ns : Option String) : ApplyOptions := { skipConfirmation := true, ns := ns }

def created (b : Build) : Report :=
  { entries := b.documents.map fun d => ⟨d.ref, .create, .created⟩ }

/-- In a namespace, documents are read again where they were written. -/
theorem settled_shop :
    ({} : Simulation).Faultless ∧ MemoryCluster.Filed ({} : Simulation).cluster.objects ∧
      (∀ p t, Unmoved t (approve p t).2) ∧
      (server.applyBuilder approve Builder.shop (approved (some "shop")) {}).result =
        .ok (created Builder.shopBuild) ∧
      (created Builder.shopBuild).isSuccess = true ∧
      Settled (server.planBuilder Builder.shop (approved (some "shop"))
        (server.applyBuilder approve Builder.shop (approved (some "shop")) {}).state).1 := by
  have hfaultless : ({} : Simulation).Faultless := ⟨rfl, rfl, rfl, rfl⟩
  have hfiled := MemoryCluster.filed_ofDocuments []
  have happrove (p : Plan) (t : Simulation) : Unmoved t (approve p t).2 := .refl t
  have hresult : (server.applyBuilder approve Builder.shop (approved (some "shop")) {}).result =
      .ok (created Builder.shopBuild) := by
    rw [Server.applyBuilder, approved, Builder.build_shop]
    decide +kernel
  refine ⟨hfaultless, hfiled, happrove, hresult, rfl, ?_⟩
  obtain ⟨b, p, t, hbuild, hplan, hsettled, -⟩ :=
    settled_of_success hfaultless hfiled happrove hresult rfl
  cases Builder.build_shop.symm.trans hbuild
  obtain ⟨hp, -⟩ := Prod.mk.inj ((planBuilder_eq Builder.build_shop).symm.trans hplan)
  obtain rfl : { changes := Builder.shopBuild.documents.map Change.create } = p :=
    Except.ok.inj hp
  have hplain : ∀ d ∈ Builder.shopBuild.documents, d.metadata.field? "annotations" = none := by
    decide
  refine hsettled ⟨Plan.placed_of_nodup rfl (by decide) (by decide), fun c hc _ a ha => ?_⟩
  obtain ⟨d, hd, rfl⟩ := List.mem_map.mp hc
  cases (hplain d hd).symm.trans ha

/-- A document without a namespace, of a kind that has them. -/
def lone : Builder := { documents := [Builder.settings] }

def loneBuild : Build := ⟨[Builder.settings], [[]]⟩

theorem build_lone : lone.build none = .ok loneBuild := by
  let s : DocumentSet := ⟨[(Builder.settings.key, Builder.settings, Builder.directSource)]⟩
  have hgather : lone.gather = .ok s := by decide +kernel
  have hadded : DocumentSet.result s.markCrds.2.synthesizeNamespaces = .ok s := by decide +kernel
  have hordered : Build.ofDocuments s.documents = .ok loneBuild := by decide +kernel
  exact Builder.build_eq_of_isCanonical rfl hgather rfl hadded (by decide) hordered

/-- What names no namespace is written where it is not read. -/
theorem not_forall_settled :
    ¬ ∀ (builder : Builder) (o : ApplyOptions) (s : Simulation) (confirm : Confirmation Simulation)
      (r : Report), s.Faultless → MemoryCluster.Filed s.cluster.objects →
        (∀ p t, Unmoved t (confirm p t).2) →
        (server.applyBuilder confirm builder o s).result = .ok r → r.isSuccess = true →
        Settled (server.planBuilder builder o (server.applyBuilder confirm builder o s).state).1 := by
  intro h
  have hresult : (server.applyBuilder approve lone (approved none) {}).result =
      .ok (created loneBuild) := by
    rw [Server.applyBuilder, approved, build_lone]
    decide +kernel
  have hplanned : (server.planBuilder lone (approved none)
      (server.applyBuilder approve lone (approved none) {}).state).1.map (·.hasMutations) =
        .ok true := by
    rw [Server.planBuilder, Server.applyBuilder, approved, build_lone]
    decide +kernel
  obtain ⟨p, hp, hnone, -⟩ := h lone (approved none) {} approve _ ⟨rfl, rfl, rfl, rfl⟩
    (MemoryCluster.filed_ofDocuments []) (fun _ t => .refl t) hresult rfl
  rw [hp] at hplanned
  cases hnone.symm.trans (Except.ok.inj hplanned)

end Simulation

end Rollout
