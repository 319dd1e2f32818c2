import Rollout.Proofs.Builder.Staging
import Rollout.Proofs.Document.References
/-!
What a build consists of: the documents that were authored, each once, and the namespaces that
they name and lack, in an order in which every document comes after those it depends on.
-/

namespace Rollout

/-- Documents in the given order, with the edges of their graph between their places in it. -/
structure Build.Orders (r : Build) (docs : List Document) (order : List Nat) : Prop where
  perm : order.Perm (List.range docs.length)
  documents : r.documents = order.filterMap (docs[·]?)
  length : r.dependencies.length = r.documents.length
  ascending : ∀ i : Nat, (r.dependencies[i]?.getD []).Pairwise (· < ·)
  below : ∀ i : Nat, ∀ j ∈ r.dependencies[i]?.getD [], j < i
  image : ∀ i x : Nat, order[i]? = some x → ∀ j, j ∈ r.dependencies[i]?.getD [] ↔
    ∃ y ∈ (documentGraph docs).needs x, order[j]? = some y

/-- The order of application is such an order. -/
theorem exists_orders_of_ofDocuments {docs : List Document} {r : Build}
    (h : Build.ofDocuments docs = .ok r) : ∃ order, r.Orders docs order := by
  have hbelow : ∀ i : Nat, ∀ j ∈ r.dependencies[i]?.getD [], j < i :=
    fun i j hj => lt_of_mem_dependencies h hj
  rw [Build.ofDocuments, bind_eq_ok] at h
  obtain ⟨order, horder, hr⟩ := h
  cases hr
  have hg := wellFormed_documentGraph docs
  have hsize := size_documentGraph docs
  have hperm := hsize ▸ (sorts_of_applyOrder horder).perm
  have hnodup : order.Nodup := hperm.nodup_iff.mpr List.nodup_range
  have hmem : ∀ x ∈ order, ∀ y ∈ (documentGraph docs).needs x, y ∈ order := fun x _ y hy =>
    hperm.mem_iff.mpr (List.mem_range.mpr (hsize ▸ hg.lt x y hy))
  refine ⟨order, hperm, rfl, ?_, fun i => ?_, hbelow, fun i x hx j => ?_⟩
  · rw [List.length_map, (perm_filterMap_getElem? hperm).length_eq, hperm.length_eq,
      List.length_range]
  · exact pairwise_placesBefore hg.nodup hmem i
  · exact mem_placesBefore hnodup hmem hx

namespace Build.Orders

variable {r : Build} {docs : List Document} {order : List Nat} {i j : Nat} {d e : Document}

/-- The dependencies of a document are those that it is to come after. -/
theorem mem_dependencies_iff (h : r.Orders docs order) (hdocs : Distinct docs)
    (hi : r.documents[i]? = some d) (hj : r.documents[j]? = some e) :
    j ∈ r.dependencies[i]?.getD [] ↔ d.Needs (docs.map Document.key) e := by
  rw [h.documents, getElem?_placed h.perm] at hi hj
  obtain ⟨x, hx, hdx⟩ := hi
  obtain ⟨y, hy, hey⟩ := hj
  rw [h.image i x hx, ← mem_needs_documentGraph hdocs hdx hey]
  constructor
  · rintro ⟨y', hneeds, hy'⟩
    rwa [Option.some.inj (hy.symm.trans hy')]
  · intro hneeds
    exact ⟨y, hneeds, hy⟩

theorem perm_documents (h : r.Orders docs order) : r.documents.Perm docs :=
  h.documents ▸ perm_filterMap_getElem? h.perm

/-- A document comes after the one with the identity that it refers to. -/
theorem exists_dependency (h : r.Orders docs order) (hdocs : Distinct docs)
    (hi : r.documents[i]? = some d) {k : Key} (hk : k ∈ d.references) (hne : k ≠ d.key)
    (hin : k ∈ r.documents.map Document.key) :
    ∃ j ∈ r.dependencies[i]?.getD [], ∃ e, r.documents[j]? = some e ∧ e.key = k := by
  obtain ⟨e, he, rfl⟩ := List.mem_map.mp hin
  obtain ⟨j, hj⟩ := List.mem_iff_getElem?.mp he
  have hin' : e.key ∈ docs.map Document.key := List.mem_map_of_mem (h.perm_documents.mem_iff.mp he)
  have htarget : e.key ∈ d.targets (docs.map Document.key) :=
    List.mem_append_left _ (List.mem_filter.mpr ⟨hk, decide_eq_true hin'⟩)
  exact ⟨j, (h.mem_dependencies_iff hdocs hi hj).mpr ⟨htarget, hne⟩, e, hj, rfl⟩

end Build.Orders

/-- A tree with a namespace in its metadata, and otherwise as it was. -/
structure Value.InNamespace (ns : String) (v w : Value) : Prop where
  others : ∀ k, "metadata" ≠ k → w.field? k = v.field? k
  metadata : ∀ k, "namespace" ≠ k →
    (w.field? "metadata").bind (·.field? k) = (v.field? "metadata").bind (·.field? k)
  moved : ∀ fs, v.field? "metadata" = some (.mapping fs) →
    (w.field? "metadata").bind (·.field? "namespace") = some (.string ns)

open DocumentSet

/-- What a build delivers for a document: its tree up to the canonical form, in the namespace of
the build if the document is namespaced and names none. -/
inductive Delivered (types : List CrdRef) : Option String → Document → Document → Prop
  | moved : d.isNamespaced types → d.ns? = none → d.root.InNamespace ns v →
      e.root.Equivalent v → Delivered types (some ns) d e
  | kept : (ns = none ∨ ¬ d.isNamespaced types ∨ d.ns? ≠ none) → e.root.Equivalent d.root →
      Delivered types ns d e

theorem Document.inNamespace_setNs (d : Document) (ns : String) :
    d.root.InNamespace ns (d.setNs (some ns)).root := by
  have hmetadata : (d.setNs (some ns)).root.field? "metadata" =
      (d.root.field? "metadata").map (onFields (withNs (some ns))) := by
    change (onFields _ d.root).field? "metadata" = _
    cases d.root with
    | mapping fs =>
        change Ordered.find? "metadata" (Ordered.modify "metadata" _ fs) = _
        rw [Ordered.find?_modify, if_pos rfl]
        rfl
    | _ => rfl
  refine ⟨fun k hk => d.field?_setNs (some ns) hk, fun k hk => ?_, fun fs hfs => ?_⟩
  · rw [hmetadata]
    cases d.root.field? "metadata" with
    | none => rfl
    | some m => exact field?_onFields (fun fs => by rw [withNs, Ordered.find?_put, if_neg hk]) m
  · rw [hmetadata, hfs]
    change Ordered.find? "namespace" (Ordered.put "namespace" _ fs) = _
    rw [Ordered.find?_put, if_pos rfl]

theorem delivered_staged (types : List CrdRef) (ns : Option String) (d : Document) :
    Delivered types ns d (staged types ns d) := by
  have hequivalent : (staged types ns d).root.Equivalent (given types ns d).root := by
    have h := Value.equivalent_canonicalBy Value.topOrder (markCrd types (given types ns d)).root
    nth_rewrite 2 [root_markCrd] at h
    exact h
  cases ns with
  | none => exact .kept (.inl rfl) hequivalent
  | some ns =>
      rw [given, placed] at hequivalent
      split at hequivalent
      · next hlacks =>
          rw [lacksNs, Bool.and_eq_true, Option.isNone_iff_eq_none] at hlacks
          exact .moved hlacks.2 hlacks.1 (d.inNamespace_setNs ns) hequivalent
      · next hlacks =>
          rw [lacksNs, Bool.and_eq_true, Option.isNone_iff_eq_none, not_and'] at hlacks
          refine .kept (.inr ?_) hequivalent
          exact or_iff_not_imp_left.mpr fun hscope => hlacks (not_not.mp hscope)

/-- What a build consists of that was made of these documents: what it delivers for each of them,
and a namespace for each name that is used and has none. -/
structure Build.Composed (r : Build) (ns : Option String) (authored outputs : List Document)
    (names : List String) : Prop where
  delivered : List.Forall₂ (Delivered (authored.filterMap Document.crd?) ns) authored outputs
  nodup : names.Nodup
  mem_names : ∀ n, n ∈ names ↔
    (∃ d ∈ outputs, d.isNamespaced (authored.filterMap Document.crd?) ∧ d.ns? = some n) ∧
      namespaceKey n ∉ outputs.map Document.key
  distinct : Distinct r.documents
  orders : ∃ order, r.Orders (outputs ++ names.map synthesized) order
  inNamespace : ∀ (i : Nat) d n, r.documents[i]? = some d →
    d.isNamespaced (authored.filterMap Document.crd?) → d.ns? = some n →
    ∃ j ∈ r.dependencies[i]?.getD [], ∃ e, r.documents[j]? = some e ∧ e.key = namespaceKey n

namespace Builder.Staged

variable {authored : List Document} {ns : Option String} {names : List String} {r : Build}
  (h : Staged authored ns names r)

include h

theorem perm_documents : r.documents.Perm
    (authored.map (staged (authored.filterMap Document.crd?) ns) ++ names.map synthesized) := by
  obtain ⟨order, horders⟩ := exists_orders_of_ofDocuments h.ofDocuments
  exact horders.perm_documents

/-- A namespace that a document names was authored, or else it was added. -/
theorem namespaceKey_mem {d : Document} {n : String} (hd : d ∈ r.documents)
    (hscope : d.isNamespaced (authored.filterMap Document.crd?)) (hn : d.ns? = some n) :
    namespaceKey n ∈ r.documents.map Document.key := by
  rw [(h.perm_documents.map Document.key).mem_iff, List.map_append, List.mem_append]
  by_cases hin : namespaceKey n ∈
      (authored.map (staged (authored.filterMap Document.crd?) ns)).map Document.key
  · exact .inl hin
  · rcases List.mem_append.mp (h.perm_documents.mem_iff.mp hd) with hd | hd
    · have hname : n ∈ names := (h.mem_names n).mpr ⟨⟨d, hd, hscope, hn⟩, hin⟩
      exact .inr (List.mem_map_of_mem (List.mem_map_of_mem hname))
    · obtain ⟨m, -, rfl⟩ := List.mem_map.mp hd
      cases hn

theorem composed : r.Composed ns authored
    (authored.map (staged (authored.filterMap Document.crd?) ns)) names := by
  obtain ⟨order, horders⟩ := exists_orders_of_ofDocuments h.ofDocuments
  refine ⟨?_, h.nodup, h.mem_names, ?_, ⟨order, horders⟩, fun i d n hi hscope hn => ?_⟩
  · rw [List.forall₂_map_right_iff]
    exact List.forall₂_same.mpr fun d _ => delivered_staged _ ns d
  · exact (horders.perm_documents.map Document.key).nodup_iff.mpr h.distinct
  · have hreference : namespaceKey n ∈ d.references := by
      refine List.mem_append_left _ (List.mem_append_left _ (List.mem_append_left _ ?_))
      rw [hn]
      exact List.mem_cons_self
    have hne : namespaceKey n ≠ d.key := by
      intro hk
      have hns := congrArg Key.ns hk
      rw [Document.key, hn] at hns
      cases hns
    exact horders.exists_dependency h.distinct hi hreference hne
      (h.namespaceKey_mem (List.mem_of_getElem? hi) hscope hn)

end Builder.Staged

namespace Builder.Staged

variable {authored : List Document} {ns : Option String} {names : List String} {r : Build}
  (h : Staged authored ns names r)

include h

/-- The types that a build defines are those that were authored. -/
theorem mem_types_iff {t : CrdRef} :
    t ∈ authored.filterMap Document.crd? ↔ ∃ c ∈ r.documents, c.crd? = some t := by
  simp only [h.perm_documents.mem_iff, List.mem_filterMap, List.mem_append]
  constructor
  · rintro ⟨d, hd, ht⟩
    refine ⟨_, .inl (List.mem_map_of_mem hd), ?_⟩
    rw [crd?_staged, ht]
  · rintro ⟨c, hc | hc, ht⟩
    · obtain ⟨d, hd, rfl⟩ := List.mem_map.mp hc
      rw [crd?_staged] at ht
      exact ⟨d, hd, ht⟩
    · obtain ⟨n, -, rfl⟩ := List.mem_map.mp hc
      cases ht

/-- An instance of a type of the build comes after a document that defines it. -/
theorem exists_definition (hplain : ∀ c ∈ r.documents, c.isCrd → c.ns? = none) {i : Nat}
    {e : Document} (hi : r.documents[i]? = some e)
    (he : e ∈ authored.map (staged (authored.filterMap Document.crd?) ns)) (hcrd : ¬ e.isCrd)
    (hdefined : ∃ c ∈ r.documents, c.Defines e) :
    ∃ j ∈ r.dependencies[i]?.getD [], ∃ c, r.documents[j]? = some c ∧ c.Defines e := by
  obtain ⟨d, hd, rfl⟩ := List.mem_map.mp he
  rw [isCrd_staged] at hcrd
  obtain ⟨c, hc, t, ht, hmatches⟩ := hdefined
  rw [apiVersion_staged, kind_staged] at hmatches
  -- The first type that matches is marked; there is one, since some type of the build matches.
  have hsome : ((authored.filterMap Document.crd?).find? fun c =>
      c.matches d.apiVersion d.kind).isSome :=
    List.find?_isSome.mpr ⟨t, h.mem_types_iff.mpr ⟨c, hc, ht⟩, hmatches⟩
  obtain ⟨first, hfirst⟩ := Option.isSome_iff_exists.mp hsome
  have hrequires := (requires_staged (authored.filterMap Document.crd?) ns d hcrd).trans hfirst
  have hfirst' := List.find?_some hfirst
  obtain ⟨c', hc', ht'⟩ := h.mem_types_iff.mp (List.mem_of_find?_eq_some hfirst)
  have hkey := Document.key_of_crd? ht' (hplain c' hc' (Document.of_crd? ht').1)
  have hreference : c'.key ∈ (staged (authored.filterMap Document.crd?) ns d).references := by
    rw [hkey]
    refine List.mem_append_left _ (List.mem_append_left _ (List.mem_append_right _ ?_))
    rw [hrequires]
    exact List.mem_cons_self
  have hdistinct := h.composed.distinct
  have hsame {c'' : Document} (hc'' : c'' ∈ r.documents) (hk : c''.key = c'.key) : c'' = c' :=
    List.inj_on_of_nodup_map hdistinct hc'' hc' hk
  have hne : c'.key ≠ (staged (authored.filterMap Document.crd?) ns d).key := by
    intro hk
    have heq := hsame (List.mem_of_getElem? hi) hk.symm
    rw [← heq, crd?_staged] at ht'
    exact hcrd (Document.of_crd? ht').1
  obtain ⟨order, horders⟩ := exists_orders_of_ofDocuments h.ofDocuments
  obtain ⟨j, hj, c'', hc'', hk⟩ := horders.exists_dependency h.distinct hi hreference hne
    (List.mem_map_of_mem hc')
  obtain rfl := hsame (List.mem_of_getElem? hc'') hk
  refine ⟨j, hj, c'', hc'', first, ht', ?_⟩
  rwa [apiVersion_staged, kind_staged]

end Builder.Staged

/-- Nothing is lost in a build, and nothing is there twice. -/
theorem Builder.exists_composed_of_build {b : Builder} (hstages : b.stages = Stage.defaults)
    {ns : Option String} {r : Build} (h : b.build ns = .ok r) :
    ∃ authored outputs names, b.Authors authored ∧ r.Composed ns authored outputs names := by
  obtain ⟨authored, names, hauthors, hstaged⟩ := exists_staged_of_build hstages h
  exact ⟨authored, _, names, hauthors, hstaged.composed⟩

namespace Builder

/-- A component that adds a document if it finds another one. -/
def companion (k : Key) (d : Document) : Component where
  name := "companion"
  task _ := .look fun s => if s.has k then .emit d .done else .done

/-- Two documents that name no namespace. -/
def shop : Builder where
  components := [companion settings.key (.new "v1" "Secret" "settings")]
  documents := [settings]

def shopBuild : Build where
  documents := [synthesized "shop", settings.setNs (some "shop"),
    (Document.new "v1" "Secret" "settings").setNs (some "shop")]
  dependencies := [[], [0], [0]]

theorem build_shop : shop.build (some "shop") = .ok shopBuild := by
  let s : DocumentSet := ⟨[(settings.key, settings, directSource),
    (⟨"Secret", none, "settings"⟩, .new "v1" "Secret" "settings", "companion")]⟩
  let t : DocumentSet := ⟨[(⟨"ConfigMap", some "shop", "settings"⟩, settings.setNs (some "shop"),
      directSource),
    (⟨"Secret", some "shop", "settings"⟩,
      (Document.new "v1" "Secret" "settings").setNs (some "shop"), "companion")]⟩
  let u : DocumentSet := ⟨t.entries ++ [(namespaceKey "shop", synthesized "shop",
    synthesizedSource)]⟩
  have hgather : shop.gather = .ok s := by decide +kernel
  have hgiven : giveNamespace (some "shop") s = .ok t := by decide +kernel
  have hadded : result t.markCrds.2.synthesizeNamespaces = .ok u := by decide +kernel
  have hordered : Build.ofDocuments u.documents = .ok shopBuild := by decide +kernel
  exact build_eq_of_isCanonical rfl hgather hgiven hadded (by decide) hordered

theorem exists_composed_shop :
    shop.stages = Stage.defaults ∧ shop.build (some "shop") = .ok shopBuild ∧
      ∃ authored outputs names, shop.Authors authored ∧
        shopBuild.Composed (some "shop") authored outputs names :=
  ⟨rfl, build_shop, exists_composed_of_build rfl build_shop⟩

end Builder

end Rollout
