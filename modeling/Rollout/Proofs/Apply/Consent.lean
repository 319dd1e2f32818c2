import Rollout.Proofs.Apply.Dependents
import Rollout.Proofs.Apply.Written
/-!
What a cluster is spared. No call reaches it that was not approved, and where planning or applying
ends with an error it is as it was; where there is a report, it has changed as the report tells.
-/

namespace Rollout

namespace Server

variable {S : Type} {server : Server S} {confirm : Confirmation S} {b : Build} {o : ApplyOptions}
  {s : S}

/-- Where applying stops before anything is carried out. -/
inductive Stopped (server : Server S) (confirm : Confirmation S) (b : Build) (o : ApplyOptions)
    (s : S) : S → Prop
  | unplanned : Stopped server confirm b o s s
  | planned : Stopped server confirm b o s (server.watched.plan b o (s, false)).2.1
  | asked (p : Plan) : Stopped server confirm b o s (confirm p (server.plan b o s).2).2

/-- Applying stops with an error, or carries out the plan, which is approved unless it is not asked
for or changes nothing. -/
theorem apply_cases (hask : ∀ s, (server.isCancelled s).2 = s) (confirm : Confirmation S)
    (b : Build) (o : ApplyOptions) (s : S) :
    (∃ e, (server.apply confirm b o s).result = .error e ∧
      Stopped server confirm b o s (server.apply confirm b o s).state) ∨
    ∃ p t u, server.plan b o s = (.ok p, t) ∧ (server.apply confirm b o s).plan = some p ∧
      (server.apply confirm b o s).result = (server.execute b p o u).result ∧
      (server.apply confirm b o s).state = (server.execute b p o u).state ∧
      (u = t ∧ (o.skipConfirmation = true ∨ p.hasMutations = false) ∨
        confirm p t = (.approved, u)) := by
  have hstopped : Stopped server confirm b o s (server.watched.plan b o (s, false)).2.1 := .planned
  have hasked (p : Plan) : Stopped server confirm b o s (confirm p (server.plan b o s).2).2 :=
    .asked p
  have hstart := hask s
  rw [apply]
  generalize server.isCancelled s = first at hstart ⊢
  obtain ⟨_ | _, s'⟩ := first
  · obtain rfl : s' = s := hstart
    dsimp only
    have hunseen := plan_of_unseen (b := b) (o := o) (s := s') hask
    generalize server.watched.plan b o (s', false) = watched at hstopped hunseen ⊢
    obtain ⟨planned, t, _ | _⟩ := watched
    · have hplan : server.plan b o s' = (planned, t) := by
        obtain ⟨rfl, rfl, -⟩ := hunseen rfl
        rfl
      rw [hplan] at hasked ⊢
      cases planned with
      | error e => exact .inl ⟨e, rfl, hstopped⟩
      | ok p =>
          dsimp only
          split
          · next hskip =>
              refine .inr ⟨p, t, t, rfl, rfl, rfl, rfl, .inl ⟨rfl, ?_⟩⟩
              simpa using hskip
          · have hagain := hask t
            generalize server.isCancelled t = second at hagain ⊢
            obtain ⟨_ | _, t'⟩ := second
            · obtain rfl : t' = t := hagain
              dsimp only
              replace hasked := hasked p
              dsimp only at hasked
              generalize hanswer : confirm p t' = answer at hasked ⊢
              obtain ⟨_ | _ | _ | e, u⟩ := answer
              · exact .inr ⟨p, t', u, rfl, rfl, rfl, rfl, .inr hanswer⟩
              · exact .inl ⟨_, rfl, hasked⟩
              · exact .inl ⟨_, rfl, hasked⟩
              · exact .inl ⟨_, rfl, hasked⟩
            · obtain rfl : t' = t := hagain
              exact .inl ⟨_, rfl, hstopped⟩
    · exact .inl ⟨_, rfl, hstopped⟩
  · obtain rfl : s' = s := hstart
    exact .inl ⟨_, rfl, .unplanned⟩

/-- The calls that are made when a builder is applied. -/
def calls (server : Server S) (confirm : Confirmation S) (builder : Builder) (o : ApplyOptions)
    (s : S) : List Mutation :=
  (server.recorded.applyBuilder confirm.recorded builder o (s, [])).state.2

theorem stopped_recorded {x : S × List Mutation} {calls : List Mutation}
    (h : Stopped server.recorded confirm.recorded b o (s, calls) x) :
    x.2 = calls ∧ Stopped server confirm b o s x.1 := by
  cases h with
  | unplanned => exact ⟨rfl, .unplanned⟩
  | planned =>
      rw [plan_watched_recorded]
      exact ⟨rfl, .planned⟩
  | asked p =>
      rw [plan_recorded]
      exact ⟨rfl, .asked p⟩

theorem hasMutations_of_mem {p : Plan} {c : Change} {m : Mutation} (hc : c ∈ p.all)
    (hm : c.mutation? = some m) : p.hasMutations = true :=
  List.any_eq_true.mpr ⟨c, hc, decide_eq_true (Change.error?_eq_none hm).2⟩

end Server

namespace Simulation

variable {s t : Simulation} {b : Build} {p : Plan} {o : ApplyOptions} {builder : Builder}
  {confirm : Confirmation Simulation}

theorem unmoved_get (s : Simulation) (r : ObjectRef) : Unmoved s (s.get r).2 := by
  rw [get]
  split
  · exact .refl s
  · split
    · exact .refl s
    · exact { Unmoved.refl s with }

theorem unmoved_list (s : Simulation) (selector : String) : Unmoved s (s.list selector).2 := by
  rw [list]
  split
  · exact .refl s
  · exact { Unmoved.refl s with }

theorem unmoved_planDocuments (crds : List CrdRef) (context : Nat) (s : Simulation)
    (ds : List Document) : Unmoved s (server.planDocuments crds context s ds).2 :=
  Server.planDocuments_keeps (fun t r h => h.trans (t.unmoved_get r)) crds context ds (.refl s)

/-- Planning reads only. -/
theorem unmoved_plan (b : Build) (o : ApplyOptions) (s : Simulation) :
    Unmoved s (server.plan b o s).2 :=
  Server.plan_keeps (fun t r h => h.trans (t.unmoved_get r))
    (fun t selector h => h.trans (t.unmoved_list selector)) b o (.refl s)

theorem unmoved_plan_watched (b : Build) (o : ApplyOptions) (s : Simulation) :
    Unmoved s (server.watched.plan b o (s, false)).2.1 :=
  Server.plan_watched_keeps (fun t r h => h.trans (t.unmoved_get r))
    (fun t selector h => h.trans (t.unmoved_list selector)) (fun _ => id) b o (.refl s)

theorem unmoved_planBuilder (builder : Builder) (o : ApplyOptions) (s : Simulation) :
    Unmoved s (server.planBuilder builder o s).2 := by
  rw [Server.planBuilder]
  cases builder.build o.ns with
  | error e => exact .refl s
  | ok b => exact unmoved_plan b o s

theorem unmoved_of_stopped (hconfirm : ∀ p t, Unmoved t (confirm p t).2)
    (h : Server.Stopped server confirm b o s t) : Unmoved s t := by
  cases h with
  | unplanned => exact .refl s
  | planned => exact unmoved_plan_watched b o s
  | asked p => exact (unmoved_plan b o s).trans (hconfirm p _)

/-- No two deletes of a plan are of the same object. -/
theorem nodup_keys_deletes_of_plan (hs : MemoryCluster.Filed s.cluster.objects)
    (h : server.plan b o s = (.ok p, t)) : (p.deletes.map (·.subject.key)).Nodup := by
  refine Server.nodup_keys_deletes_of_plan (fun selector ds hlisted => ?_) h
  have hread := unmoved_planDocuments b.crds o.diffContext s b.documents
  have hlisted : ((server.planDocuments b.crds o.diffContext s b.documents).2.list selector).1 =
    .ok ds := hlisted
  rw [list] at hlisted
  split at hlisted
  · cases hlisted
  · cases hlisted
    exact (hread.objects ▸ hs : MemoryCluster.Filed _).nodup_list selector

/-- No two changes of a plan are about the same object. -/
theorem nodup_keys_of_plan (hs : MemoryCluster.Filed s.cluster.objects)
    (hstages : ∀ stage ∈ builder.stages, stage.KeepsIndex) (hbuild : builder.build o.ns = .ok b)
    (h : server.plan b o s = (.ok p, t)) : (p.all.map (·.subject.key)).Nodup := by
  rw [Plan.all, List.map_append]
  refine List.nodup_append.mpr
    ⟨Plan.nodup_keys_changes hstages hbuild (Server.for_of_plan h),
      nodup_keys_deletes_of_plan hs h, fun k hk l hl => ?_⟩
  obtain ⟨c, hc, rfl⟩ := List.mem_map.mp hk
  obtain ⟨c', hc', rfl⟩ := List.mem_map.mp hl
  exact Server.key_ne_of_plan h hc hc'

/-- Where stages keep the index, the operations of a plan have objects of their own. -/
theorem separate_of_plan {refused : List (Key × String)}
    (hs : MemoryCluster.Filed s.cluster.objects)
    (hstages : ∀ stage ∈ builder.stages, stage.KeepsIndex) (hbuild : builder.build o.ns = .ok b)
    (h : server.plan b o s = (.ok p, t)) :
    server.Separate p (Undisturbed refused) (fun s => s.cluster.find?)
      (MemoryCluster.effects refused) where
  acts := server_local refused
  changes := MemoryCluster.apart_effects
    (Plan.nodup_keys_changes hstages hbuild (Server.for_of_plan h))
  deletes := MemoryCluster.apart_effects (nodup_keys_deletes_of_plan hs h)

/-- Applying stops with an error before any call is made, or carries out a plan that is approved,
unless that is not asked for or it changes nothing. -/
theorem applyBuilder_cases (hconfirm : ∀ p t, Unmoved t (confirm p t).2) (builder : Builder)
    (o : ApplyOptions) (s : Simulation) :
    (∃ e, (server.applyBuilder confirm builder o s).result = .error e ∧
      server.calls confirm builder o s = [] ∧
      Unmoved s (server.applyBuilder confirm builder o s).state) ∨
    ∃ b p t u, builder.build o.ns = .ok b ∧ server.plan b o s = (.ok p, t) ∧ Unmoved s u ∧
      (server.applyBuilder confirm builder o s).plan = some p ∧
      (server.applyBuilder confirm builder o s).result = (server.execute b p o u).result ∧
      (server.applyBuilder confirm builder o s).state = (server.execute b p o u).state ∧
      server.calls confirm builder o s = (server.recorded.execute b p o (u, [])).state.2 ∧
      (o.skipConfirmation = true ∨ p.hasMutations = false ∨ (confirm p t).1 = .approved) := by
  rw [Server.calls, ← server.applyBuilder_recorded confirm builder o (s, []), Server.applyBuilder]
  cases hbuild : builder.build o.ns with
  | error e => exact .inl ⟨_, rfl, rfl, .refl s⟩
  | ok b =>
      dsimp only
      have hask (s : Simulation × List Mutation) : (server.recorded.isCancelled s).2 = s := rfl
      rcases Server.apply_cases hask confirm.recorded b o (s, []) with
        ⟨e, herror, hstopped⟩ | ⟨p, t, u, hplan, happlied, hresult, hstate, hasked⟩
      · obtain ⟨hcalls, hstopped⟩ := Server.stopped_recorded hstopped
        exact .inl ⟨e, herror, hcalls, unmoved_of_stopped hconfirm hstopped⟩
      · rw [server.plan_recorded] at hplan
        obtain ⟨hp, rfl⟩ := Prod.mk.inj hplan
        have hread := unmoved_plan b o s
        obtain ⟨v, rfl, hv, happroved⟩ : ∃ v, u = (v, []) ∧ Unmoved s v ∧
            (o.skipConfirmation = true ∨ p.hasMutations = false ∨
              (confirm p (server.plan b o s).2).1 = .approved) := by
          rcases hasked with ⟨rfl, hskip⟩ | hanswer
          · exact ⟨_, rfl, hread, hskip.imp_right .inl⟩
          · obtain ⟨happroved, rfl⟩ := Prod.mk.inj hanswer
            exact ⟨_, rfl, hread.trans (hconfirm p _), .inr (.inr happroved)⟩
        have herase := server.execute_recorded b p o (v, [])
        refine .inr ⟨b, p, _, v, rfl, Prod.ext hp rfl, hv, happlied, ?_, ?_, ?_, happroved⟩
        · rw [← herase]
          exact hresult
        · rw [← herase]
          exact congrArg Prod.fst hstate
        · exact congrArg Prod.snd hstate

/-- What is kept when a builder is applied to a simulated cluster. -/
structure Consents (confirm : Confirmation Simulation) (builder : Builder) (o : ApplyOptions)
    (s : Simulation) : Prop where
  /-- Planning changes nothing, whatever comes of it. -/
  plan : Unmoved s (server.planBuilder builder o s).2
  /-- Each call is for a change of the plan that is carried out, and this was approved unless that
  is not asked for. -/
  calls : ∀ m ∈ server.calls confirm builder o s, ∃ p t,
    server.planBuilder builder o s = (.ok p, t) ∧
      (server.applyBuilder confirm builder o s).plan = some p ∧
      (o.skipConfirmation = true ∨ (confirm p t).1 = .approved) ∧
      ∃ c ∈ p.all, c.error? = none ∧ c.action ≠ .unchanged ∧ c.mutation? = some m
  /-- Where applying ends with an error, no call was made. -/
  error : ∀ e, (server.applyBuilder confirm builder o s).result = .error e →
    server.calls confirm builder o s = [] ∧
      Unmoved s (server.applyBuilder confirm builder o s).state
  /-- Where there is a report, what it tells of was written and nothing else. -/
  report : ∀ r, (server.applyBuilder confirm builder o s).result = .ok r → ∃ p t ms,
    server.planBuilder builder o s = (.ok p, t) ∧
      (server.applyBuilder confirm builder o s).plan = some p ∧ Tells p.all r.entries ∧
      ms.Perm (reported p.all r.entries) ∧
      s.Wrote ms (server.applyBuilder confirm builder o s).state ∧
      (∀ k, (∀ m ∈ ms, m.key ≠ k) →
        (server.applyBuilder confirm builder o s).state.cluster.find? k = s.cluster.find? k) ∧
      ((∀ stage ∈ builder.stages, stage.KeepsIndex) → ∀ m ∈ ms,
        MemoryCluster.Lands m (s.cluster.find? m.key)
          ((server.applyBuilder confirm builder o s).state.cluster.find? m.key))

theorem planBuilder_eq (hbuild : builder.build o.ns = .ok b) :
    server.planBuilder builder o s = server.plan b o s := by
  rw [Server.planBuilder, hbuild]

theorem exists_change_of_mem_execute {m : Mutation}
    (h : m ∈ (server.recorded.execute b p o (s, [])).state.2) :
    ∃ c ∈ p.all, c.mutation? = some m := by
  rcases Server.asks_of_mem_execute server_fair trivial h with
    h | ⟨i, c, hc, hm, -⟩ | ⟨i, c, hc, hm, -⟩
  · cases h
  · exact ⟨c, List.mem_append_left _ (List.mem_of_getElem? hc), hm⟩
  · exact ⟨c, List.mem_append_right _ (List.mem_of_getElem? hc), hm⟩

/-- Applying is by consent, and either fails as a whole or does what it reports. -/
theorem consents (hs : MemoryCluster.Filed s.cluster.objects)
    (hconfirm : ∀ p t, Unmoved t (confirm p t).2) (builder : Builder) (o : ApplyOptions) :
    Consents confirm builder o s := by
  refine ⟨unmoved_planBuilder builder o s, fun m hm => ?_, fun e herror => ?_, fun r hr => ?_⟩
  · rcases applyBuilder_cases hconfirm builder o s with
      ⟨e, -, hnone, -⟩ | ⟨b, p, t, u, hbuild, hplan, -, hp, -, -, hcalls, happroved⟩
    · rw [hnone] at hm
      cases hm
    · rw [hcalls] at hm
      obtain ⟨c, hc, hcm⟩ := exists_change_of_mem_execute hm
      obtain ⟨hreadable, haction⟩ := Change.error?_eq_none hcm
      refine ⟨p, t, (planBuilder_eq hbuild).trans hplan, hp, ?_, c, hc, hreadable, haction, hcm⟩
      rw [Server.hasMutations_of_mem hc hcm] at happroved
      exact happroved.imp_right (Or.resolve_left · Bool.noConfusion)
  · rcases applyBuilder_cases hconfirm builder o s with
      ⟨e', -, hnone, hunmoved⟩ | ⟨b, p, t, u, -, -, -, -, hresult, -⟩
    · exact ⟨hnone, hunmoved⟩
    · rw [herror] at hresult
      cases hresult
  · rcases applyBuilder_cases hconfirm builder o s with
      ⟨e, herror, -, -⟩ | ⟨b, p, t, u, hbuild, hplan, hu, hp, hresult, hstate, -, -⟩
    · rw [hr] at herror
      cases herror
    · obtain ⟨report, hreport, htells, ms, hms, hwrote⟩ := wrote_execute b p o u
      obtain rfl : r = report := Except.ok.inj (hr.symm.trans (hresult.trans hreport))
      have hall := hu.wrote.trans hwrote
      rw [List.nil_append, ← hstate] at hall
      refine ⟨p, t, ms, (planBuilder_eq hbuild).trans hplan, hp, htells, hms, hall, fun k hk => ?_,
        fun hstages m hm => ?_⟩
      · exact MemoryCluster.find?_of_foldlM_change hs hall.objects hk
      · refine MemoryCluster.lands_of_foldlM_change hs hall.objects ?_ hm
        have hkeys := nodup_keys_of_plan hs hstages hbuild hplan
        exact ((hms.map _).nodup_iff.mpr (hkeys.sublist (keys_reported_sublist p.all r.entries)))

def approve : Confirmation Simulation := fun _ s => (.approved, s)

/-- A namespace and a configuration are applied, and a role that is not in the build is deleted. -/
theorem consents_settings :
    MemoryCluster.Filed Server.roleCluster.cluster.objects ∧
      (∀ p t, Unmoved t (approve p t).2) ∧
      Consents approve Server.settingsBuilder Server.pruneShop Server.roleCluster := by
  have hfiled := MemoryCluster.filed_ofDocuments [Server.labelledRole]
  have happrove (p : Plan) (t : Simulation) : Unmoved t (approve p t).2 := .refl t
  exact ⟨hfiled, happrove, consents hfiled happrove Server.settingsBuilder Server.pruneShop⟩

/-- Cancelled with the second call: it is awaited, and the role stays. -/
example :
    let a := server.applyBuilder approve Server.settingsBuilder Server.pruneShop
      { Server.roleCluster with latency := some 5, cancelWith := some 2 }
    a.result.map (fun r => r.entries.map (·.outcome)) = .ok [.created, .created, .cancelled] ∧
      Ordered.keys a.state.cluster.objects =
        [Server.labelledRole.key, ⟨"Namespace", none, "apps"⟩,
          ⟨"ConfigMap", some "apps", "settings"⟩] := by
  decide +kernel

end Simulation

end Rollout
