import Rollout.Proofs.Apply.Reference
import Rollout.Proofs.Value.Canonical
/-!
What pruning may delete: the objects that a selector lists, but none that a document of the build
lives as. A kind without namespaces is protected where its documents name none: a namespace that is
written in such a document belongs to its identity, but not to that of the object.
-/

namespace Rollout

/-- The types that the documents of a build define. -/
def Build.crds (b : Build) : List CrdRef := b.documents.filterMap Document.crd?

namespace Document

variable {crds : List CrdRef} {d l : Document}

/-- An object is what a document is once it is applied: its kind and its name agree, and if the
kind has namespaces, so does the namespace, which is the default one for documents without. -/
def LivesAs (crds : List CrdRef) (d l : Document) : Prop :=
  l.kind = d.kind ∧ l.name = d.name ∧
    (d.isNamespaced crds = true → l.ns? = some (d.ns?.getD defaultNamespace))

theorem ns_liveRef (h : d.isNamespaced crds = true) :
    (d.liveRef crds).ns = some (d.ns?.getD defaultNamespace) := by
  rw [liveRef, h, Bool.and_true]
  cases hns : d.ns? with
  | none => rfl
  | some ns =>
      rw [Option.isNone_some, if_neg Bool.false_ne_true]
      exact hns

theorem key_liveRef (crds : List CrdRef) (d : Document) :
    (d.liveRef crds).key = ⟨d.kind, (d.liveRef crds).ns, d.name⟩ := by
  rw [liveRef]
  split <;> rfl

theorem liveRef_of_ns? {ns : String} (h : d.ns? = some ns) : d.liveRef crds = d.ref := by
  rw [liveRef, h]
  rfl

/-- What a document lives as has its own key, unless it is moved to the default namespace. -/
theorem key_liveRef_cases (crds : List CrdRef) (d : Document) :
    (d.liveRef crds).key = d.key ∨ d.isNamespaced crds = true ∧ d.ns? = none ∧
      (d.liveRef crds).key = ⟨d.kind, some defaultNamespace, d.name⟩ := by
  rw [liveRef]
  split
  · next hlands =>
      obtain ⟨hns, hscope⟩ := Bool.and_eq_true_iff.mp hlands
      exact .inr ⟨hscope, Option.isNone_iff_eq_none.mp hns, rfl⟩
  · exact .inl rfl

/-- In a kind with namespaces, what a document lives as has the key that is read for it. -/
theorem LivesAs.key_eq (h : d.LivesAs crds l) (hd : d.isNamespaced crds = true) :
    l.key = (d.liveRef crds).key := by
  obtain ⟨hkind, hname, hns⟩ := h
  rw [key_liveRef, ns_liveRef hd, key, hkind, hname, hns hd]

end Document

namespace Server

variable {S : Type} {server : Server S} {b : Build} {o : ApplyOptions} {s t : S} {p : Plan}
  {selector : String} {listed : List Document}

theorem mem_desiredKeys {crds : List CrdRef} {ds : List Document} {k : Key} :
    k ∈ desiredKeys crds ds ↔ ∃ e ∈ ds, k = e.key ∨ k = (e.liveRef crds).key := by
  simp [desiredKeys]

/-- What is deleted was listed and is no document of the build. -/
theorem mem_deletes_iff (ho : o.pruneSelector = some selector)
    (hlisted : (server.list (server.planDocuments b.crds o.diffContext s b.documents).2 selector).1 =
      .ok listed) (h : server.plan b o s = (.ok p, t)) {l : Document} :
    l ∈ p.deletes.map Change.subject ↔ l ∈ listed ∧ l.key ∉ desiredKeys b.crds b.documents := by
  rw [plan] at h
  simp only [ho] at h
  have hplanned := congrArg Prod.fst h
  obtain ⟨listed', hlisted', hplanned⟩ := bind_eq_ok.mp hplanned
  obtain rfl : listed = listed' := Except.ok.inj (hlisted.symm.trans hlisted')
  obtain ⟨⟨deletes, before⟩, hdeletes, hplanned⟩ := bind_eq_ok.mp hplanned
  cases hplanned
  rw [(deletes_of_planDeletes hdeletes).1.mem_iff, List.mem_filter]
  simp [Build.crds]

/-- Pruning deletes nothing that a document of the build lives as, exactly if each listed object
with the kind and the name of a document whose kind has no namespaces is known under the key of
some document. Documents of other kinds are never deleted. -/
theorem spares_iff (ho : o.pruneSelector = some selector)
    (hlisted : (server.list (server.planDocuments b.crds o.diffContext s b.documents).2 selector).1 =
      .ok listed) (h : server.plan b o s = (.ok p, t)) :
    (∀ c ∈ p.deletes, ∀ d ∈ b.documents, ¬ d.LivesAs b.crds c.subject) ↔
      ∀ d ∈ b.documents, d.isNamespaced b.crds = false → ∀ l ∈ listed, l.kind = d.kind →
        l.name = d.name → ∃ e ∈ b.documents, l.key = e.key ∨ l.key = (e.liveRef b.crds).key := by
  constructor
  · intro hspares d hd hscope l hl hkind hname
    by_contra hunknown
    rw [← mem_desiredKeys] at hunknown
    have hdeleted := (mem_deletes_iff ho hlisted h).mpr ⟨hl, hunknown⟩
    obtain ⟨c, hc, rfl⟩ := List.mem_map.mp hdeleted
    refine hspares c hc d hd ⟨hkind, hname, fun hnamespaced => ?_⟩
    rw [hscope] at hnamespaced
    cases hnamespaced
  · intro hknown c hc d hd hlives
    have hdeleted := (mem_deletes_iff ho hlisted h).mp (List.mem_map_of_mem hc)
    apply hdeleted.2
    rw [mem_desiredKeys]
    cases hscope : d.isNamespaced b.crds with
    | true => exact ⟨d, hd, .inr (hlives.key_eq hscope)⟩
    | false => exact hknown d hd hscope c.subject hdeleted.1 hlives.1 hlives.2.1

def clusterRole (name : String) : Document := .new "rbac.authorization.k8s.io/v1" "ClusterRole" name

def labelledRole : Document := (clusterRole "reader").setNote .labels "app" "shop"

/-- A cluster with one role. -/
def roleCluster : Simulation := { cluster := .ofDocuments [labelledRole] }

def pruneShop : ApplyOptions := { pruneSelector := some "app=shop" }

/-- A role that is not in the build is deleted, and is not what the other role lives as. -/
theorem spares_writer :
    ∃ p t,
      Simulation.server.plan ⟨[clusterRole "writer"], [[]]⟩ pruneShop roleCluster = (.ok p, t) ∧
      p.deletes = [.delete labelledRole] ∧
      ∀ c ∈ p.deletes, ¬ (clusterRole "writer").LivesAs [] c.subject := by
  let b : Build := ⟨[clusterRole "writer"], [[]]⟩
  have hcrds : b.crds = [] := by decide +kernel
  have hlisted : (Simulation.server.list (Simulation.server.planDocuments b.crds
      pruneShop.diffContext roleCluster b.documents).2 "app=shop").1 = .ok [labelledRole] := by
    decide +kernel
  have hdeletes : (Simulation.server.plan b pruneShop roleCluster).1.map Plan.deletes =
      .ok [.delete labelledRole] := by
    decide +kernel
  obtain ⟨p, hp, hdeletes⟩ := map_eq_ok.mp hdeletes
  have hplan := Prod.ext (y := (Except.ok p, _)) hp rfl
  refine ⟨p, _, hplan, hdeletes, fun c hc hlives => ?_⟩
  refine (spares_iff rfl hlisted hplan).mpr ?_ c hc (clusterRole "writer") List.mem_cons_self
    (hcrds ▸ hlives)
  intro d hd _ l hl _ hname
  obtain rfl := List.mem_singleton.mp hd
  obtain rfl := List.mem_singleton.mp hl
  revert hname
  decide +kernel

/-- The document of a role of the whole cluster that names a namespace. -/
def misplacedRole : Document := (clusterRole "reader").setNs (some "shop")

def roleBuilder : Builder := { documents := [misplacedRole] }

theorem canonical_misplacedRole : misplacedRole.canonical = misplacedRole := by
  have hroot : misplacedRole.root.canonical = misplacedRole.root :=
    Value.canonicalBy_eq_self _ _ (by decide)
  simp only [Document.canonical, hroot]
  rfl

theorem build_roleBuilder : roleBuilder.build none = .ok ⟨[misplacedRole], [[]]⟩ := by
  let s : DocumentSet := ⟨[(misplacedRole.key, misplacedRole, Builder.directSource)]⟩
  have hgather : roleBuilder.gather = .ok s := by decide +kernel
  have hcrds : roleBuilder.runStage s .crds = .ok s := by decide +kernel
  have hnamespaces : roleBuilder.runStage s .namespaces = .ok s := by decide +kernel
  have hcanonical : roleBuilder.runStage s .canonicalFields = .ok s := by
    change Except.ok (s.map Document.canonical) = .ok s
    rw [DocumentSet.map]
    simp only [s, Ordered.mapValues, List.map_cons, List.map_nil, canonical_misplacedRole]
  have hstages : Stage.defaults.foldlM roleBuilder.runStage s = .ok s := by
    rw [Stage.defaults]
    simp only [List.foldlM_cons, List.foldlM_nil]
    refine bind_eq_ok.mpr ⟨s, hcrds, bind_eq_ok.mpr ⟨s, hnamespaces, ?_⟩⟩
    exact bind_eq_ok.mpr ⟨s, hcanonical, rfl⟩
  have hordered : Build.ofDocuments s.documents = .ok ⟨[misplacedRole], [[]]⟩ := by decide +kernel
  rw [Builder.build]
  exact bind_eq_ok.mpr ⟨s, hgather, bind_eq_ok.mpr ⟨s, rfl, bind_eq_ok.mpr ⟨s, hstages, hordered⟩⟩⟩

/-- Pruning deletes a role that was applied, because its document names a namespace. -/
theorem not_forall_spares :
    ¬ ∀ (builder : Builder) (b : Build) (o : ApplyOptions) (s t : Simulation) (p : Plan),
      builder.stages = Stage.defaults → builder.build o.ns = .ok b →
      Simulation.server.plan b o s = (.ok p, t) →
      ∀ c ∈ p.deletes, ∀ d ∈ b.documents, ¬ d.LivesAs b.crds c.subject := by
  intro h
  have hdeletes : (Simulation.server.plan ⟨[misplacedRole], [[]]⟩ pruneShop roleCluster).1.map
      Plan.deletes = .ok [.delete labelledRole] := by
    decide +kernel
  obtain ⟨p, hp, hdeletes⟩ := map_eq_ok.mp hdeletes
  have hplan := Prod.ext (y := (Except.ok p, _)) hp rfl
  refine h roleBuilder _ pruneShop roleCluster _ p rfl build_roleBuilder hplan
    (.delete labelledRole) (hdeletes ▸ List.mem_cons_self) misplacedRole List.mem_cons_self ?_
  exact ⟨by decide +kernel, by decide +kernel, fun hscope => absurd hscope (by decide +kernel)⟩

end Server

end Rollout
