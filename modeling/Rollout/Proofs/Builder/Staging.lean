import Rollout.Proofs.Builder.Registration
/-!
What a build with the stages of a new builder makes of its documents before it orders them: which
documents there are, and in which state each of them is when the stages are done.
-/

namespace Rollout

theorem Yields.of_ok {x : Except BuildError DocumentSet} {p : Prop} {docs : List Document}
    {t : DocumentSet} (h : Yields x p docs) (ht : x = .ok t) :
    p ∧ t.Indexed ∧ t.documents = docs := by
  by_cases hp : p
  · obtain ⟨s, hs, hindexed, hdocs⟩ := h.ok hp
    obtain rfl : s = t := Except.ok.inj (hs.symm.trans ht)
    exact ⟨hp, hindexed, hdocs⟩
  · obtain ⟨e, he⟩ := h.error hp
    cases he.symm.trans ht

/-- The documents that a task emits on a set, one after the other, and the set that it leaves.
Where it looks, it sees the set as it is then. -/
inductive Task.Emits (source : String) :
    Task → DocumentSet → List Document → DocumentSet → Prop
  | done : Emits source .done s [] s
  | emit : s.insert d source = .ok t → Emits source next t ds u →
      Emits source (.emit d next) s (d :: ds) u
  | look : Emits source (next s) s ds t → Emits source (.look next) s ds t

namespace Task

variable {source : String} {task : Task} {s t : DocumentSet}

/-- A task that succeeds has emitted what it added. -/
theorem exists_emits (h : task.run source s = (.ok (), t)) : ∃ ds, task.Emits source s ds t := by
  induction task generalizing s with
  | done =>
      cases h
      exact ⟨[], .done⟩
  | fail e => cases h
  | emit d next ih =>
      rw [run] at h
      split at h
      · next u hu =>
          obtain ⟨ds, hds⟩ := ih h
          exact ⟨d :: ds, .emit hu hds⟩
      · cases h
  | look next ih =>
      obtain ⟨ds, hds⟩ := ih s h
      exact ⟨ds, .look hds⟩

theorem Emits.documents {ds : List Document} (h : task.Emits source s ds t) (hs : s.Indexed) :
    t.Indexed ∧ t.documents = s.documents ++ ds := by
  induction h with
  | done => exact ⟨hs, (List.append_nil _).symm⟩
  | emit ht _ ih =>
      obtain ⟨-, hindexed, hdocs⟩ := (hs.yields_insert _ _).of_ok ht
      obtain ⟨hu, hrest⟩ := ih hindexed
      refine ⟨hu, ?_⟩
      rw [hrest, hdocs, List.append_assoc, List.singleton_append]
  | look _ ih => exact ih hs

end Task

namespace Builder

variable (b : Builder)

/-- The documents that components emit one after the other, each with the set left by the ones
before it. -/
inductive Emitting : List Component → DocumentSet → List Document → DocumentSet → Prop
  | nil : Emitting [] s [] s
  | cons : (c.task (b.scope c)).Emits c.name s ds t → Emitting cs t es u →
      Emitting (c :: cs) s (ds ++ es) u

/-- The documents of a builder in the order of a build: those that were added directly, and then
what the components emit, each of which runs once. -/
structure Authors (authored : List Document) : Prop where
  emitting : ∃ order direct ds s,
    Component.order b.dependencies = .ok order ∧
    (order.filterMap (b.components[·]?)).Perm b.components ∧
    b.directDocuments = .ok direct ∧ direct.documents = b.documents ∧
    b.Emitting (order.filterMap (b.components[·]?)) direct ds s ∧
    authored = b.documents ++ ds

variable {b} {s t : DocumentSet}

theorem exists_emitting {cs : List Component} (h : cs.foldlM b.runComponent s = .ok t) :
    ∃ ds, b.Emitting cs s ds t := by
  induction cs generalizing s with
  | nil =>
      cases h
      exact ⟨[], .nil⟩
  | cons c cs ih =>
      rw [List.foldlM_cons, bind_eq_ok] at h
      obtain ⟨u, hu, ht⟩ := h
      obtain ⟨⟨⟩, hrun, rfl⟩ := map_eq_ok.mp hu
      obtain ⟨ds, hds⟩ := Task.exists_emits (Prod.ext hrun rfl)
      obtain ⟨es, hes⟩ := ih ht
      exact ⟨ds ++ es, .cons hds hes⟩

theorem Emitting.documents {cs : List Component} {ds : List Document} (h : b.Emitting cs s ds t)
    (hs : s.Indexed) : t.Indexed ∧ t.documents = s.documents ++ ds := by
  induction h with
  | nil => exact ⟨hs, (List.append_nil _).symm⟩
  | cons hc _ ih =>
      obtain ⟨ht, hdocs⟩ := hc.documents hs
      obtain ⟨hu, hrest⟩ := ih ht
      refine ⟨hu, ?_⟩
      rw [hrest, hdocs, List.append_assoc]

/-- What is gathered is what the builder has and what its components emit. -/
theorem authors_of_gather (h : b.gather = .ok s) : s.Indexed ∧ b.Authors s.documents := by
  rw [gather_eq, bind_eq_ok] at h
  obtain ⟨order, horder, h⟩ := h
  obtain ⟨direct, hdirect, h⟩ := bind_eq_ok.mp h
  have hperm : (order.filterMap (b.components[·]?)).Perm b.components := by
    refine perm_filterMap_getElem? ((Component.perm_of_order horder).trans (.of_eq ?_))
    rw [dependencies, List.length_map]
  obtain ⟨-, hindexed, hdirects⟩ := b.yields_directDocuments.of_ok hdirect
  obtain ⟨ds, hds⟩ := exists_emitting h
  obtain ⟨hs, hall⟩ := hds.documents hindexed
  rw [hdirects] at hall
  exact ⟨hs, ⟨order, direct, ds, s, horder, hperm, hdirect, hdirects, hds, hall⟩⟩

end Builder

namespace DocumentSet

variable (types : List CrdRef) (ns : Option String) (d : Document)

/-- A document in the namespace of a build, if the build gives one and the document lacks one. -/
def given : Document :=
  match ns with
  | none => d
  | some ns => placed types ns d

/-- A document as the stages of a new builder leave it. -/
def staged : Document := (markCrd types (given types ns d)).canonical

theorem kind_given : (given types ns d).kind = d.kind := by
  cases ns with
  | none => rfl
  | some ns =>
      rw [given, placed]
      split
      · exact d.kind_setNs _
      · rfl

theorem apiVersion_given : (given types ns d).apiVersion = d.apiVersion := by
  cases ns with
  | none => rfl
  | some ns =>
      rw [given, placed]
      split
      · exact d.apiVersion_setNs _
      · rfl

theorem crd?_given : (given types ns d).crd? = d.crd? := by
  cases ns with
  | none => rfl
  | some ns => exact crd?_placed types ns d

theorem root_markCrd : (markCrd types d).root = d.root := by
  rw [markCrd]
  split <;> rfl

theorem crd?_staged : (staged types ns d).crd? = d.crd? := by
  rw [staged, Document.crd?_canonical, Document.crd?_markCrd, crd?_given]

theorem kind_markCrd : (markCrd types d).kind = d.kind := by
  rw [Document.kind, root_markCrd, ← Document.kind]

theorem apiVersion_markCrd : (markCrd types d).apiVersion = d.apiVersion := by
  rw [Document.apiVersion, root_markCrd, ← Document.apiVersion]

theorem kind_staged : (staged types ns d).kind = d.kind := by
  rw [staged, Document.kind_canonical, kind_markCrd, kind_given]

theorem apiVersion_staged : (staged types ns d).apiVersion = d.apiVersion := by
  rw [staged, Document.apiVersion_canonical, apiVersion_markCrd, apiVersion_given]

theorem isCrd_staged : (staged types ns d).isCrd = d.isCrd := by
  rw [Document.isCrd, Document.isCrd, Document.group, Document.group, kind_staged,
    apiVersion_staged]

/-- An instance of a type is marked with it. -/
theorem requires_staged (hd : ¬ d.isCrd) :
    (staged types ns d).markers.requires =
      types.find? fun c => c.matches d.apiVersion d.kind := by
  have hcrd : (given types ns d).isCrd = d.isCrd := by
    rw [Document.isCrd, Document.isCrd, Document.group, Document.group, kind_given,
      apiVersion_given]
  have hmarked : markCrd types (given types ns d) = { given types ns d with
      markers := { (given types ns d).markers with
        requires := required? types (given types ns d) } } := by
    rw [markCrd, if_neg (hcrd ▸ hd)]
  change (markCrd types (given types ns d)).markers.requires = _
  rw [hmarked, required?, kind_given, apiVersion_given]

theorem canonical_synthesized (name : String) :
    (synthesized name).canonical = synthesized name := by
  have hroot : (synthesized name).root.canonical = (synthesized name).root :=
    Value.canonicalBy_eq_self _ _ (by rfl)
  simp only [Document.canonical, hroot]
  rfl

end DocumentSet

open DocumentSet

/-- The documents that a build orders: the authored ones with the namespaces that they name and
lack. -/
structure Builder.Staged (authored : List Document) (ns : Option String) (names : List String)
    (r : Build) : Prop where
  nodup : names.Nodup
  mem_names : ∀ n, n ∈ names ↔
    (∃ d ∈ authored.map (staged (authored.filterMap Document.crd?) ns),
      d.isNamespaced (authored.filterMap Document.crd?) ∧ d.ns? = some n) ∧
    namespaceKey n ∉
      (authored.map (staged (authored.filterMap Document.crd?) ns)).map Document.key
  distinct : Distinct (authored.map (staged (authored.filterMap Document.crd?) ns) ++
    names.map synthesized)
  ofDocuments : Build.ofDocuments (authored.map (staged (authored.filterMap Document.crd?) ns) ++
    names.map synthesized) = .ok r

namespace Builder

variable {b : Builder} {s t : DocumentSet} {ns : Option String}

theorem yields_giveNamespace (hs : s.Indexed) (ns : Option String) :
    Yields (giveNamespace ns s) (Distinct (s.documents.map (given s.crds ns)))
      (s.documents.map (given s.crds ns)) := by
  cases ns with
  | none =>
      have hmap : s.documents.map (given s.crds none) = s.documents := List.map_id _
      rw [hmap]
      exact ⟨fun _ => ⟨s, rfl, hs, rfl⟩, fun h => absurd hs.distinct h⟩
  | some ns => exact hs.yields_defaultNs ns

/-- What the stages of a new builder leave of a set: its marked documents in canonical order, and
the namespaces that these name and lack. -/
theorem yields_stages (hs : s.Indexed) :
    Yields (Stage.defaults.foldlM b.runStage s) True
      (s.markCrds.2.documents.map Document.canonical ++
        (missing s.markCrds.2.documents s.markCrds.2.namedNamespaces).map synthesized) := by
  have hmarked : s.markCrds.2.Indexed := hs.map (key_markCrd _)
  have hnodup : s.markCrds.2.namedNamespaces.Nodup :=
    (pairwise_namedNamespaces s.markCrds.2).imp ne_of_lt
  have hadded := hmarked.yields_addNamespaces hnodup
  rw [foldlM_defaults]
  refine (hadded.bind fun t ht htdocs => ?_).congr (and_iff_left trivial)
  refine ⟨fun _ => ⟨t.map Document.canonical, rfl, ht.map Document.key_canonical, ?_⟩,
    fun h => absurd trivial h⟩
  rw [documents_map, htdocs, List.map_append, List.map_map]
  exact congrArg₂ (· ++ ·) rfl (List.map_congr_left fun n _ => canonical_synthesized n)

theorem mem_missing {n : String} :
    n ∈ missing s.documents s.namedNamespaces ↔
      (∃ d ∈ s.documents.map Document.canonical, d.isNamespaced s.crds ∧ d.ns? = some n) ∧
        namespaceKey n ∉ (s.documents.map Document.canonical).map Document.key := by
  have hkeys : (s.documents.map Document.canonical).map Document.key =
      s.documents.map Document.key := by
    rw [List.map_map]
    exact List.map_congr_left fun d _ => d.key_canonical
  rw [missing, List.mem_filter, mem_namedNamespaces, decide_eq_true_iff, hkeys, List.mem_filterMap]
  refine and_congr_left fun _ => ?_
  constructor
  · rintro ⟨d, hd, hn⟩
    obtain ⟨hd, hscope⟩ := List.mem_filter.mp hd
    refine ⟨d.canonical, List.mem_map_of_mem hd, ?_, ?_⟩
    · rwa [d.isNamespaced_canonical]
    · rwa [d.ns?_canonical]
  · rintro ⟨e, he, hscope, hn⟩
    obtain ⟨d, hd, rfl⟩ := List.mem_map.mp he
    rw [d.isNamespaced_canonical] at hscope
    rw [d.ns?_canonical] at hn
    exact ⟨d, List.mem_filter.mpr ⟨hd, hscope⟩, hn⟩

/-- A build orders what was gathered, as the stages leave it, and the namespaces that were missing.
The stages do not fail. -/
theorem exists_build_eq (hstages : b.stages = Stage.defaults) (hs : b.gather = .ok s)
    (ht : giveNamespace ns s = .ok t) :
    ∃ names, Distinct (s.documents.map (staged s.crds ns) ++ names.map synthesized) ∧
      b.build ns = Build.ofDocuments
        (s.documents.map (staged s.crds ns) ++ names.map synthesized) ∧
      ∀ r, b.build ns = .ok r → Staged s.documents ns names r := by
  obtain ⟨hindexed, -⟩ := authors_of_gather hs
  obtain ⟨-, htindexed, htdocs⟩ := (yields_giveNamespace hindexed ns).of_ok ht
  obtain ⟨u, hu, huindexed, hudocs⟩ := (yields_stages (b := b) htindexed).ok trivial
  -- The types are those of the authored documents at every step.
  have htypes : t.crds = s.crds := by
    rw [crds, htdocs, List.filterMap_map]
    exact List.filterMap_congr fun d _ => crd?_given s.crds ns d
  have hmarked : t.markCrds.2.documents = t.documents.map (markCrd t.crds) := documents_map t _
  have hmtypes : t.markCrds.2.crds = s.crds := by
    rw [crds, hmarked, List.filterMap_map, ← htypes]
    exact List.filterMap_congr fun d _ => d.crd?_markCrd t.crds
  have hstaged : t.markCrds.2.documents.map Document.canonical =
      s.documents.map (staged s.crds ns) := by
    rw [hmarked, htypes, htdocs, List.map_map, List.map_map]
    rfl
  have hbuild : b.build ns = Build.ofDocuments u.documents := by
    rw [build, hstages, hs]
    change giveNamespace ns s >>= _ = _
    rw [ht]
    change Stage.defaults.foldlM b.runStage t >>= _ = _
    rw [hu]
    rfl
  rw [hstaged] at hudocs
  refine ⟨missing t.markCrds.2.documents t.markCrds.2.namedNamespaces, ?_, ?_, fun r hr =>
    ⟨?_, fun n => ?_, ?_, ?_⟩⟩
  · rw [← hudocs]
    exact huindexed.distinct
  · rw [hbuild, hudocs]
  · exact ((pairwise_namedNamespaces _).imp ne_of_lt).filter _
  · rw [mem_missing, hstaged, hmtypes]
    rfl
  · exact hudocs ▸ huindexed.distinct
  · rw [hbuild, hudocs] at hr
    exact hr

/-- A build that succeeds orders its authored documents, as the stages leave them, and the
namespaces that were missing. -/
theorem exists_staged_of_build (hstages : b.stages = Stage.defaults) {r : Build}
    (h : b.build ns = .ok r) :
    ∃ authored names, b.Authors authored ∧ Staged authored ns names r := by
  have hsteps := h
  rw [build, bind_eq_ok] at hsteps
  obtain ⟨s, hs, hsteps⟩ := hsteps
  obtain ⟨t, ht, -⟩ := bind_eq_ok.mp hsteps
  obtain ⟨names, -, -, hstaged⟩ := exists_build_eq hstages hs ht
  exact ⟨s.documents, names, (authors_of_gather hs).2, hstaged r h⟩

/-- A build whose documents are in canonical order when the namespaces have been added. -/
theorem build_eq_of_isCanonical (hstages : b.stages = Stage.defaults) {u : DocumentSet} {r : Build}
    (hgather : b.gather = .ok s) (hgiven : giveNamespace ns s = .ok t)
    (hadded : result t.markCrds.2.synthesizeNamespaces = .ok u)
    (hcanonical : ∀ e ∈ u.entries, Value.isCanonicalBy Value.topOrder e.2.1.root)
    (hordered : Build.ofDocuments u.documents = .ok r) : b.build ns = .ok r := by
  have hself : u.map Document.canonical = u := by
    refine congrArg DocumentSet.mk ((List.map_congr_left fun e he => ?_).trans (List.map_id _))
    have hroot : e.2.1.root.canonical = e.2.1.root :=
      Value.canonicalBy_eq_self _ _ (hcanonical e he)
    have hdoc : e.2.1.canonical = e.2.1 := by
      simp only [Document.canonical, hroot]
      rfl
    simp only [hdoc]
    rfl
  rw [build, hstages]
  refine bind_eq_ok.mpr ⟨s, hgather, bind_eq_ok.mpr ⟨t, hgiven, bind_eq_ok.mpr ⟨u, ?_, hordered⟩⟩⟩
  rw [foldlM_defaults]
  exact bind_eq_ok.mpr ⟨u, hadded, congrArg Except.ok hself⟩

end Builder

end Rollout
