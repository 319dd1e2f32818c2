import Mathlib.Logic.Relation
import Rollout.Proofs.Apply.Protection
import Rollout.Proofs.Apply.Recorded
import Rollout.Proofs.Builder.Composition
/-!
What becomes of the documents that come after one that is not applied: all of them are skipped,
and no call for them reaches the cluster. So it is with the instances of a type whose definition is
not applied.
-/

namespace Rollout

namespace Work

variable {w : Work} {history : List Event} {r : Run} {i j k : Nat} {o : Outcome}

/-- One change comes after another, or is the same. -/
def Behind (w : Work) : Nat → Nat → Prop := Relation.ReflTransGen fun i j => j ∈ w.needs i

/-- A need of a change has an outcome that is no success. -/
def Held (w : Work) (outcome? : Nat → Option Outcome) (i : Nat) : Prop :=
  ∃ d ∈ w.needs i, ∃ o, outcome? d = some o ∧ o.isSuccess = false

theorem Held.not_applied {outcome? : Nat → Option Outcome} (h : w.Held outcome? i) :
    ¬ w.Applied outcome? i := by
  intro happlied
  obtain ⟨d, hd, o, ho, hfails⟩ := h
  obtain ⟨o', ho', hsuccess⟩ := happlied d hd
  rw [ho] at ho'
  cases ho'
  rw [hfails] at hsuccess
  cases hsuccess

theorem Sound.isSkipped_of_held (h : w.Sound history r) (hi : w.Held r.outcome? i)
    (ho : r.outcome? i = some o) : o.isSkipped = true := by
  cases h.justified i o ho with
  | skip => rfl
  | pass happlied => exact absurd happlied hi.not_applied
  | ended happlied => exact absurd happlied hi.not_applied

theorem isSuccess_of_isSkipped (h : o.isSkipped = true) : o.isSuccess = false := by
  cases o with
  | skipped d => rfl
  | _ => cases h

/-- In a run without open changes, all that comes after a change that is held is held too. -/
theorem Sound.held_of_behind (h : w.Sound history r)
    (hcomplete : ∀ i < w.changes.length, (r.outcome? i).isSome)
    (hlength : ∀ i, ∀ j ∈ w.needs i, j < w.changes.length) (hi : w.Held r.outcome? i)
    (hk : w.Behind k i) : w.Held r.outcome? k := by
  -- From the change that is held outwards: it is skipped, and so holds those that need it.
  induction hk using Relation.ReflTransGen.head_induction_on with
  | refl => exact hi
  | @head k j hj _ ih =>
      obtain ⟨o, ho⟩ := Option.isSome_iff_exists.mp (hcomplete j (hlength k j hj))
      exact ⟨j, hj, o, ho, isSuccess_of_isSkipped (h.isSkipped_of_held ih ho)⟩

theorem getElem?_entries_append {c : Change} (hc : w.changes[i]? = some c)
    (ho : r.outcome? i = some o) (es : List Entry) :
    (w.entries r ++ es)[i]? = some (entry c o) := by
  have hlt : i < (w.entries r).length := by
    rw [entries, List.length_map, List.length_zipIdx]
    exact (List.getElem?_eq_some_iff.mp hc).1
  rw [List.getElem?_append_left hlt, getElem?_entries, hc, ho]
  rfl

end Work

namespace Server

variable {S : Type} {server : Server S} {valid : S → Prop} {b : Build} {p : Plan}
  {o : ApplyOptions} {s t : S}

/-- What a plan is made of: a change for each document, and deletes of listed objects that no
document of the build has the key of. -/
theorem plan_cases (h : server.plan b o s = (.ok p, t)) :
    p.changes = (server.planDocuments b.crds o.diffContext s b.documents).1 ∧
      ∃ stale, planDeletes stale = .ok (p.deletes, p.deleteDependencies) ∧
        (∀ l ∈ stale, l.key ∉ desiredKeys b.crds b.documents) ∧
        ∀ l ∈ stale, ∃ selector listed, o.pruneSelector = some selector ∧
          (server.list (server.planDocuments b.crds o.diffContext s b.documents).2 selector).1 =
            .ok listed ∧ l ∈ listed := by
  rw [plan] at h
  dsimp only at h
  split at h
  · cases h
    have hnone {p : Document → Prop} : ∀ l ∈ [], p l := fun _ hl => absurd hl List.not_mem_nil
    exact ⟨rfl, [], rfl, hnone, hnone⟩
  · next selector hselector =>
      obtain ⟨listed, hlisted, h⟩ := bind_eq_ok.mp (congrArg Prod.fst h)
      obtain ⟨⟨deletes, before⟩, hdeletes, h⟩ := bind_eq_ok.mp h
      cases h
      refine ⟨rfl, _, hdeletes, fun l hl => ?_, fun l hl => ?_⟩
      · simpa [Build.crds] using (List.mem_filter.mp hl).2
      · exact ⟨selector, listed, hselector, hlisted, (List.mem_filter.mp hl).1⟩

theorem subject_of_plan (h : server.plan b o s = (.ok p, t)) :
    p.changes.map Change.subject = b.documents := by
  rw [(plan_cases h).1, subject_planDocuments]

theorem not_mem_desiredKeys_of_plan (h : server.plan b o s = (.ok p, t)) {c : Change}
    (hc : c ∈ p.deletes) : c.subject.key ∉ desiredKeys b.crds b.documents := by
  obtain ⟨-, stale, hdeletes, hstale, -⟩ := plan_cases h
  exact hstale _ ((deletes_of_planDeletes hdeletes).1.mem_iff.mp (List.mem_map_of_mem hc))

theorem mem_desiredKeys_of_plan (h : server.plan b o s = (.ok p, t)) {c : Change}
    (hc : c ∈ p.changes) : c.subject.key ∈ desiredKeys b.crds b.documents := by
  have hdocument : c.subject ∈ b.documents := by
    rw [← subject_of_plan h]
    exact List.mem_map_of_mem hc
  exact mem_desiredKeys.mpr ⟨c.subject, hdocument, .inl rfl⟩

/-- Nothing is deleted under the key of a document. -/
theorem key_ne_of_plan (h : server.plan b o s = (.ok p, t)) {c c' : Change} (hc : c ∈ p.changes)
    (hc' : c' ∈ p.deletes) : c.subject.key ≠ c'.subject.key := by
  intro heq
  exact not_mem_desiredKeys_of_plan h hc' (heq ▸ mem_desiredKeys_of_plan h hc)

/-- Changes that are carried out without cancelling all have an outcome. -/
theorem isSome_outcome?_carryOut (hserver : server.Fair valid)
    (hcalm : ∀ s, valid s → (server.isCancelled s).1 = false) (hs : valid s) {w : Work}
    (hw : w.Backward) (hlimit : 0 < w.limit) {i : Nat} (hi : i < w.changes.length) :
    ((server.carryOut w s).1.outcome? i).isSome := by
  rw [Option.isSome_iff_ne_none]
  intro hnone
  have hcancelled := isCancelled_of_cancelled_carryOut hserver hs
    (cancelled_of_outcome?_eq_none hserver hs hw hlimit hi hnone)
  rw [hcalm _ (follows_carryOut hserver hs).valid_right] at hcancelled
  cases hcancelled

/-- What is kept of the changes of a plan that are carried out without cancelling. -/
theorem sound_changes (hserver : server.Fair valid)
    (hcalm : ∀ s, valid s → (server.isCancelled s).1 = false) {builder : Builder}
    (hbuild : builder.build o.ns = .ok b) (hplan : server.plan b o s = (.ok p, t)) (ht : valid t) :
    (p.changeWork b o).Sound (server.history (p.changeWork b o) t)
        (server.carryOut (p.changeWork b o) t).1 ∧
      (∀ i < b.documents.length,
        ((server.carryOut (p.changeWork b o) t).1.outcome? i).isSome) ∧
      ∀ i : Nat, ∀ j ∈ b.dependencies[i]?.getD [], j < i ∧ i < b.documents.length := by
  have hlimit : 0 < o.limit := Nat.lt_of_lt_of_le Nat.one_pos (le_max_right _ _)
  have hlength : b.documents.length = p.changes.length := by
    rw [← subject_of_plan hplan, List.length_map]
  obtain ⟨docs, hdocs⟩ := Builder.exists_ofDocuments_of_build hbuild
  obtain ⟨order, horders⟩ := exists_orders_of_ofDocuments hdocs
  refine ⟨sound_carryOut hserver ht, fun i hi => ?_, fun i j hj => ⟨horders.below i j hj, ?_⟩⟩
  · exact isSome_outcome?_carryOut hserver hcalm ht (p.backward_changeWork hbuild o) hlimit
      (hlength ▸ hi)
  · by_contra hi
    rw [List.getElem?_eq_none (horders.length ▸ Nat.le_of_not_lt hi)] at hj
    cases hj

/-- A document that is held is reported as skipped, and no call for it is made. -/
theorem not_called_of_held (hserver : server.Fair valid) {builder : Builder}
    (hstages : builder.stages = Stage.defaults) (hbuild : builder.build o.ns = .ok b)
    (hplan : server.plan b o s = (.ok p, t)) (ht : valid t) {k : Nat} {d : Document}
    (hk : b.documents[k]? = some d)
    (hheld : (p.changeWork b o).Held (server.carryOut (p.changeWork b o) t).1.outcome? k)
    {m : Mutation} (hm : m ∈ (server.recorded.execute b p o (t, [])).state.2) :
    m.key ≠ d.key := by
  have hkeys : (b.documents.map Document.key).Nodup :=
    Builder.nodup_keys_of_build (fun _ h => keepsIndex_of_mem_defaults (hstages ▸ h)) hbuild
  intro hkey
  rcases asks_of_mem_execute hserver ht hm with hm | ⟨i, c, hc, hcm, happlied⟩ | ⟨i, c, hc, hcm, -⟩
  · cases hm
  · -- The change is that of the document itself, which is not applied.
    have hi : b.documents[i]? = some c.subject := by
      have hc : p.changes[i]? = some c := hc
      rw [← subject_of_plan hplan, List.getElem?_map, hc]
      rfl
    rw [Change.key_of_mutation? hcm] at hkey
    obtain rfl := eq_of_label_eq hkeys hk hi hkey.symm
    exact hheld.not_applied happlied
  · refine not_mem_desiredKeys_of_plan hplan (List.mem_of_getElem? hc) ?_
    rw [← Change.key_of_mutation? hcm, hkey]
    exact mem_desiredKeys.mpr ⟨d, List.mem_of_getElem? hk, .inl rfl⟩

/-- Instances of a type of the build come after its definition, and if that is not applied, they
are skipped with all that comes after them: no call for these reaches the cluster. -/
theorem skips_instances (hserver : server.Fair valid)
    (hcalm : ∀ s, valid s → (server.isCancelled s).1 = false) {builder : Builder}
    (hstages : builder.stages = Stage.defaults) (hbuild : builder.build o.ns = .ok b)
    (hplain : ∀ c ∈ b.documents, c.isCrd → c.ns? = none)
    (hplan : server.plan b o s = (.ok p, t)) (ht : valid t) :
    ∃ authored outputs names, builder.Authors authored ∧
      b.Composed o.ns authored outputs names ∧
      ∀ (i : Nat) e, b.documents[i]? = some e → e ∈ outputs → ¬ e.isCrd →
        (∃ c ∈ b.documents, c.Defines e) →
        ∃ j ∈ b.dependencies[i]?.getD [], j < i ∧
          (∃ c, b.documents[j]? = some c ∧ c.Defines e) ∧
          ∃ report definition made, (server.execute b p o t).result = .ok report ∧
            report.entries[j]? = some definition ∧ report.entries[i]? = some made ∧
            (definition.outcome.isSuccess = false → made.outcome.isSkipped = true ∧
              ∀ k d, b.documents[k]? = some d → (p.changeWork b o).Behind k i →
                ∀ m ∈ (server.recorded.execute b p o (t, [])).state.2, m.key ≠ d.key) := by
  obtain ⟨authored, names, hauthors, hstaged⟩ := Builder.exists_staged_of_build hstages hbuild
  refine ⟨authored, _, names, hauthors, hstaged.composed, fun i e hi he hcrd hdefined => ?_⟩
  obtain ⟨j, hj, c, hc, hdefines⟩ := hstaged.exists_definition hplain hi he hcrd hdefined
  obtain ⟨hsound, hcomplete, hbefore⟩ := sound_changes hserver hcalm hbuild hplan ht
  have hlength : b.documents.length = p.changes.length := by
    rw [← subject_of_plan hplan, List.length_map]
  have hchange {l : Nat} {d : Document} (hl : b.documents[l]? = some d) :
      ∃ c x, p.changes[l]? = some c ∧
        (server.carryOut (p.changeWork b o) t).1.outcome? l = some x := by
    have hlt := (List.getElem?_eq_some_iff.mp hl).1
    obtain ⟨x, hx⟩ := Option.isSome_iff_exists.mp (hcomplete l hlt)
    exact ⟨_, x, List.getElem?_eq_getElem (hlength ▸ hlt), hx⟩
  obtain ⟨cj, x, hcj, hx⟩ := hchange hc
  obtain ⟨ci, y, hci, hy⟩ := hchange hi
  refine ⟨j, hj, (hbefore i j hj).1, ⟨c, hc, hdefines⟩, _, _, _, rfl,
    Work.getElem?_entries_append hcj hx _, Work.getElem?_entries_append hci hy _, fun hfails => ?_⟩
  have hheld : (p.changeWork b o).Held (server.carryOut (p.changeWork b o) t).1.outcome? i :=
    ⟨j, hj, x, hx, hfails⟩
  refine ⟨hsound.isSkipped_of_held hheld hy, fun k d hk hbehind m hm => ?_⟩
  refine not_called_of_held hserver hstages hbuild hplan ht hk ?_ hm
  refine hsound.held_of_behind (hlength ▸ hcomplete) (fun l n hn => ?_) hheld hbehind
  obtain ⟨hn, hl⟩ := hbefore l n hn
  exact hlength ▸ hn.trans hl

/-- A definition and an instance of its type. -/
def registry : Builder := { documents := [Builder.gadget, Builder.widgets] }

def widgetType : CrdRef := ⟨"widgets.example.com", "example.com", "Widget", ["v1"], true⟩

def registryBuild : Build where
  documents := [DocumentSet.markCrd [widgetType] Builder.widgets,
    DocumentSet.markCrd [widgetType] Builder.gadget]
  dependencies := [[], [0]]

theorem build_registry : registry.build none = .ok registryBuild := by
  let s : DocumentSet := ⟨[(Builder.gadget.key, Builder.gadget, Builder.directSource),
    (Builder.widgets.key, Builder.widgets, Builder.directSource)]⟩
  have hgather : registry.gather = .ok s := by decide +kernel
  have hadded : DocumentSet.result s.markCrds.2.synthesizeNamespaces = .ok s.markCrds.2 := by
    decide +kernel
  have hordered : Build.ofDocuments s.markCrds.2.documents = .ok registryBuild := by
    decide +kernel
  exact Builder.build_eq_of_isCanonical rfl hgather rfl hadded (by decide) hordered

def registryPlan : Plan := { changes := registryBuild.documents.map .create }

/-- A cluster that refuses the definition. -/
def closed : Simulation :=
  { cluster := { refused := [(Builder.widgets.key, "admission denied")] } }

/-- The instance is skipped, and no call for it is made. -/
theorem skips_gadget :
    registry.stages = Stage.defaults ∧ registry.build none = .ok registryBuild ∧
      (∀ c ∈ registryBuild.documents, c.isCrd → c.ns? = none) ∧
      ∃ t, Simulation.server.plan registryBuild {} closed = (.ok registryPlan, t) ∧
        t.Undisturbed closed.cluster.refused ∧
        ∃ report made,
          (Simulation.server.execute registryBuild registryPlan {} t).result = .ok report ∧
          report.entries[1]? = some made ∧ made.outcome.isSkipped = true ∧
          ∀ m ∈ (Simulation.server.recorded.execute registryBuild registryPlan {} (t, [])).state.2,
            m.key ≠ Builder.gadget.key := by
  have hplain : ∀ c ∈ registryBuild.documents, c.isCrd → c.ns? = none := by decide
  have hplan : Simulation.server.plan registryBuild {} closed =
      (.ok registryPlan, (Simulation.server.plan registryBuild {} closed).2) :=
    Prod.ext (by rfl) rfl
  have hvalid : (Simulation.server.plan registryBuild {} closed).2.Undisturbed
      closed.cluster.refused := ⟨List.nodup_nil, rfl, rfl, rfl, rfl, rfl⟩
  refine ⟨rfl, build_registry, hplain, _, hplan, hvalid, ?_⟩
  have hlocal := Simulation.server_local closed.cluster.refused
  obtain ⟨authored, outputs, names, -, hcomposed, hskips⟩ := skips_instances (o := {}) hlocal.fair
    (fun s hs => (hlocal.ask s hs).1) rfl build_registry hplain hplan hvalid
  have hgadget : registryBuild.documents[1]? =
      some (DocumentSet.markCrd [widgetType] Builder.gadget) := rfl
  have houtput : DocumentSet.markCrd [widgetType] Builder.gadget ∈ outputs := by
    obtain ⟨order, horders⟩ := hcomposed.orders
    rcases List.mem_append.mp (horders.perm_documents.mem_iff.mp (List.mem_of_getElem? hgadget))
      with h | h
    · exact h
    · obtain ⟨n, -, hn⟩ := List.mem_map.mp h
      have hmarkers : true = false := congrArg (·.markers.synthesized) hn
      cases hmarkers
  have hdefined : ∃ c ∈ registryBuild.documents,
      c.Defines (DocumentSet.markCrd [widgetType] Builder.gadget) :=
    ⟨_, List.mem_cons_self, widgetType, by decide, by decide⟩
  obtain ⟨j, hj, -, -, report, definition, made, hreport, hdefinition, hmade, hskipped⟩ :=
    hskips 1 _ hgadget houtput (by decide) hdefined
  obtain rfl := List.mem_singleton.mp hj
  have hfails : definition.outcome.isSuccess = false := by
    have houtcomes : (Simulation.server.execute registryBuild registryPlan {}
        (Simulation.server.plan registryBuild {} closed).2).result.map
          (fun r => r.entries[0]?.map (·.outcome.isSuccess)) = .ok (some false) := by
      decide +kernel
    rw [hreport] at houtcomes
    have hentry : report.entries[0]?.map (·.outcome.isSuccess) = some false :=
      Except.ok.inj houtcomes
    rw [hdefinition] at hentry
    exact Option.some.inj hentry
  obtain ⟨hmade', hcalls⟩ := hskipped hfails
  refine ⟨report, made, hreport, hmade, hmade', fun m hm => ?_⟩
  rw [← DocumentSet.key_markCrd [widgetType] Builder.gadget]
  exact hcalls 1 _ hgadget .refl m hm

end Server

end Rollout
