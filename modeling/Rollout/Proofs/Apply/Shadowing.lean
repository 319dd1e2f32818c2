import Rollout.Proofs.Apply.Dependents
/-!
Documents of a build that live as one object. Their identities differ, since one of them names no
namespace and the other the one that it lands in; nothing orders their changes.
-/

namespace Rollout

namespace Document

variable {crds : List CrdRef} {d e : Document}

/-- A document without a namespace lands in the default one, where the other document is. -/
structure Shadows (crds : List CrdRef) (d e : Document) : Prop where
  namespaced : d.isNamespaced crds = true
  unplaced : d.ns? = none
  key_eq : e.key = ⟨d.kind, some defaultNamespace, d.name⟩

theorem Shadows.key_liveRef_eq (h : d.Shadows crds e) :
    (d.liveRef crds).key = (e.liveRef crds).key := by
  have hns : e.ns? = some defaultNamespace := congrArg Key.ns h.key_eq
  rw [key_liveRef, ns_liveRef h.namespaced, h.unplaced, liveRef_of_ns? hns]
  exact h.key_eq.symm

/-- Documents with different identities live as one object only if one shadows the other. -/
theorem key_liveRef_eq_iff (hne : d.key ≠ e.key) :
    (d.liveRef crds).key = (e.liveRef crds).key ↔ d.Shadows crds e ∨ e.Shadows crds d := by
  constructor
  · intro heq
    rcases key_liveRef_cases crds d with hd | ⟨hscope, hns, hd⟩ <;>
      rcases key_liveRef_cases crds e with he | ⟨hscope', hns', he⟩ <;> rw [hd, he] at heq
    · exact absurd heq hne
    · exact .inr ⟨hscope', hns', heq⟩
    · exact .inl ⟨hscope, hns, heq.symm⟩
    · obtain ⟨hkind, -, hname⟩ := Key.mk.inj heq
      rw [key, key, hkind, hname, hns, hns'] at hne
      exact absurd rfl hne
  · rintro (h | h)
    · exact h.key_liveRef_eq
    · exact h.key_liveRef_eq.symm

end Document

/-- No document of a build shadows another. -/
def Build.Unshadowed (b : Build) : Prop :=
  ∀ d ∈ b.documents, ∀ e ∈ b.documents, ¬ d.Shadows b.crds e

/-- What the documents of a build live as. -/
def Build.objectKeys (b : Build) : List Key := b.documents.map fun d => (d.liveRef b.crds).key

/-- The objects that the changes and the deletes of a plan are about. -/
def Plan.objectKeys (p : Plan) (crds : List CrdRef) : List Key :=
  (p.changes.map fun c => (c.subject.liveRef crds).key) ++ p.deletes.map fun c => c.subject.key

theorem Build.nodup_iff_unshadowed {b : Build} (hdistinct : (b.documents.map Document.key).Nodup) :
    b.objectKeys.Nodup ↔ b.Unshadowed := by
  constructor
  · intro hnodup d hd e he hshadows
    obtain rfl := List.inj_on_of_nodup_map hnodup hd he hshadows.key_liveRef_eq
    -- A document that shadows itself would have a namespace and name none.
    cases hshadows.unplaced.symm.trans (congrArg Key.ns hshadows.key_eq)
  · intro hunshadowed
    refine List.Nodup.map_on (fun d hd e he heq => ?_) hdistinct.of_map
    by_contra hne
    have hkey : d.key ≠ e.key := fun hk => hne (List.inj_on_of_nodup_map hdistinct hd he hk)
    rcases (Document.key_liveRef_eq_iff hkey).mp heq with h | h
    · exact hunshadowed d hd e he h
    · exact hunshadowed e he d hd h

namespace Server

variable {S : Type} {server : Server S} {b : Build} {p : Plan} {o : ApplyOptions} {s t : S}

theorem objectKeys_of_plan (h : server.plan b o s = (.ok p, t)) :
    p.objectKeys b.crds = b.objectKeys ++ p.deletes.map fun c => c.subject.key := by
  rw [Plan.objectKeys, Build.objectKeys, ← subject_of_plan h, List.map_map]
  rfl

/-- A plan deletes nothing that a document of the build lives as. -/
theorem disjoint_objectKeys (h : server.plan b o s = (.ok p, t)) :
    b.objectKeys.Disjoint (p.deletes.map fun c => c.subject.key) := by
  intro k hlive hdeleted
  obtain ⟨d, hd, rfl⟩ := List.mem_map.mp hlive
  obtain ⟨c, hc, hkey⟩ := List.mem_map.mp hdeleted
  exact not_mem_desiredKeys_of_plan h hc (mem_desiredKeys.mpr ⟨d, hd, .inr hkey⟩)

/-- The documents of a build live as different objects exactly if none shadows another; and then
only objects that were listed twice have more than one change in a plan. -/
theorem nodup_objectKeys_iff {builder : Builder}
    (hstages : ∀ stage ∈ builder.stages, stage.KeepsIndex) (hbuild : builder.build o.ns = .ok b) :
    (b.objectKeys.Nodup ↔ b.Unshadowed) ∧
      ∀ (S : Type) (server : Server S) s p t, server.plan b o s = (.ok p, t) →
        ((p.objectKeys b.crds).Nodup ↔
          b.Unshadowed ∧ (p.deletes.map fun c => c.subject.key).Nodup) := by
  have hlive := Build.nodup_iff_unshadowed (Builder.nodup_keys_of_build hstages hbuild)
  refine ⟨hlive, fun S server s p t hplan => ?_⟩
  rw [objectKeys_of_plan hplan, List.nodup_append', hlive]
  constructor
  · rintro ⟨hunshadowed, hdeletes, -⟩
    exact ⟨hunshadowed, hdeletes⟩
  · rintro ⟨hunshadowed, hdeletes⟩
    exact ⟨hunshadowed, hdeletes, disjoint_objectKeys hplan⟩

open DocumentSet Builder

def inShop : ApplyOptions := { ns := some "shop" }

/-- Where a namespace is given to all documents, none lands in another place than it names. -/
theorem nodup_objectKeys_shop :
    ∃ p t, Simulation.server.plan shopBuild inShop {} = (.ok p, t) ∧
      p.changes.length = 3 ∧ shopBuild.objectKeys.Nodup ∧
      (p.objectKeys shopBuild.crds).Nodup := by
  have hlength : (Simulation.server.plan shopBuild inShop {}).1.map
      (fun p => (p.changes.length, p.deletes)) = .ok (3, []) := by decide +kernel
  obtain ⟨p, hp, hlength⟩ := map_eq_ok.mp hlength
  obtain ⟨hchanges, hdeletes⟩ := Prod.mk.inj hlength
  have hplan := Prod.ext (y := (Except.ok p, _)) hp rfl
  obtain ⟨hlive, hplanned⟩ := nodup_objectKeys_iff (o := inShop)
    (fun _ h => keepsIndex_of_mem_defaults h) build_shop
  have hunshadowed : shopBuild.Unshadowed := by
    intro d hd e _ hshadows
    have hnamed : ∀ d ∈ shopBuild.documents, d.isNamespaced shopBuild.crds → d.ns? ≠ none := by
      decide +kernel
    exact hnamed d hd hshadows.namespaced hshadows.unplaced
  exact ⟨p, _, hplan, hchanges, hlive.mpr hunshadowed,
    (hplanned _ _ _ _ _ hplan).mpr ⟨hunshadowed, hdeletes ▸ List.nodup_nil⟩⟩

/-- The same settings twice, once in the namespace that they land in anyway. -/
def doubled : Builder := { documents := [settings, settings.setNs (some defaultNamespace)] }

def doubledBuild : Build where
  documents := [synthesized defaultNamespace, settings, settings.setNs (some defaultNamespace)]
  dependencies := [[], [], [0]]

theorem build_doubled : doubled.build none = .ok doubledBuild := by
  let s : DocumentSet := ⟨[(settings.key, settings, directSource),
    (⟨"ConfigMap", some defaultNamespace, "settings"⟩, settings.setNs (some defaultNamespace),
      directSource)]⟩
  let u : DocumentSet := ⟨s.entries ++ [(namespaceKey defaultNamespace,
    synthesized defaultNamespace, synthesizedSource)]⟩
  have hgather : doubled.gather = .ok s := by decide +kernel
  have hadded : result s.markCrds.2.synthesizeNamespaces = .ok u := by decide +kernel
  have hordered : Build.ofDocuments u.documents = .ok doubledBuild := by decide +kernel
  exact build_eq_of_isCanonical rfl hgather rfl hadded (by decide) hordered

/-- A build may hold two documents of one object. -/
theorem not_forall_nodup_objectKeys :
    ¬ ∀ (builder : Builder) (ns : Option String) (b : Build), builder.stages = Stage.defaults →
      builder.build ns = .ok b → b.objectKeys.Nodup := by
  intro h
  have hnodup := h doubled none doubledBuild rfl build_doubled
  revert hnodup
  decide +kernel

/-- Both are created at one time, as soon as the namespace is there. -/
example :
    let w : Work := ⟨doubledBuild.documents.map .create, doubledBuild.dependencies, 4⟩
    (w.replay (w.start false) [.ended 0 (.ok ())]).inFlight.map Prod.fst = [1, 2] := by
  decide +kernel

end Server

end Rollout
