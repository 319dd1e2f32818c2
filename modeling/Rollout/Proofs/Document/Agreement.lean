import Rollout.DocumentSet.Namespace
import Rollout.Proofs.Value.Agreement
import Rollout.Document.Graph
/-!
Documents with the same canonical form have the same identity and define the same types, and they
still have the same canonical form after what a build does to them.
-/

namespace Rollout

theorem filterMap_eq_of_forall₂ {α β γ : Type} {r : α → β → Prop} {as : List α} {bs : List β}
    {f : α → Option γ} {g : β → Option γ} (h : List.Forall₂ r as bs)
    (hfg : ∀ a b, r a b → f a = g b) : as.filterMap f = bs.filterMap g := by
  induction h with
  | nil => rfl
  | cons hab _ ih => rw [List.filterMap_cons, List.filterMap_cons, hfg _ _ hab, ih]

theorem Value.Agree.items_field? {v w : Value} (h : Value.Agree v w) {k : String}
    (hk : Value.Settled k) :
    List.Forall₂ Value.Agree (((v.field? k).bind Value.items?).getD [])
      (((w.field? k).bind Value.items?).getD []) := by
  rcases h.field?_cases hk with ⟨hv, hw⟩ | ⟨x, y, hv, hw, hxy⟩
  · rw [hv, hw]
    exact .nil
  · rw [hv, hw]
    exact hxy.items?

theorem crdVersions_eq {v w : Value} (h : Value.Agree v w) : crdVersions v = crdVersions w := by
  have hlisted := filterMap_eq_of_forall₂ (h.items_field? (k := "versions") (by decide))
    fun x y hxy => hxy.fieldText? "name"
  rw [crdVersions, crdVersions, hlisted, h.fieldText?]

namespace Document

/-- A note is read as a field of a field of the metadata. -/
theorem note?_eq_bind (d : Document) (n : Note) (k : String) :
    d.note? n k = (d.metadata.field? n.field).bind (·.fieldText? k) := by
  rw [note?, noteFields]
  cases d.metadata.field? n.field with
  | none => rfl
  | some v => cases v <;> rfl

theorem note?_setNs (d : Document) (ns : Option String) (n : Note) (k : String) :
    (d.setNs ns).note? n k = d.note? n k := by
  rw [note?_eq_bind, note?_eq_bind, d.metadata_field?_setNs ns n.field_ne.2.symm]

theorem note?_canonical (d : Document) (n : Note) (k : String) :
    d.canonical.note? n k = d.note? n k := by
  have hmetadata : Value.Settled "metadata" := by decide
  have hnotes : Value.Settled n.field := by cases n <;> decide
  have hfield : d.canonical.root.field? "metadata" =
      (d.root.field? "metadata").map (Value.canonicalBy (Value.orderBelow "metadata")) := by
    refine (Value.field?_canonicalBy _ d.wellKeyed "metadata").trans (Option.map_congr ?_)
    exact fun v _ => hmetadata.canonicalEntry_eq _ v
  rw [note?_eq_bind, note?_eq_bind, metadata, metadata, hfield]
  cases hm : d.root.field? "metadata" with
  | none => rfl
  | some m =>
      have hk : m.WellKeyed := d.wellKeyed.field? hm
      rw [Option.map_some, Option.getD_some, Option.getD_some, Value.field?_canonicalBy _ hk]
      cases hf : m.field? n.field with
      | none => rfl
      | some v =>
          rw [Option.map_some, hnotes.canonicalEntry_eq]
          exact Value.fieldText?_canonicalBy _ (hk.field? hf) k

/-- The same as far as a build can tell: up to the order of fields and of the items of sets, and
with the same type marked as needed. -/
structure Agree (d e : Document) : Prop where
  canonical : d.root.canonical = e.root.canonical
  requires : d.markers.requires = e.markers.requires

namespace Agree

variable {d e : Document} (h : Agree d e)

include h

theorem root : Value.Agree d.root e.root := ⟨d.wellKeyed, e.wellKeyed, _, h.canonical⟩

theorem kind : d.kind = e.kind := congrArg (·.getD "") (h.root.fieldText? "kind")

theorem apiVersion : d.apiVersion = e.apiVersion :=
  congrArg (·.getD "") (h.root.fieldText? "apiVersion")

theorem metadata : Value.Agree d.metadata e.metadata := h.root.getD_field? (by decide)

theorem name : d.name = e.name := congrArg (·.getD "") (h.metadata.fieldText? "name")

theorem ns? : d.ns? = e.ns? := by
  rw [Document.ns?, Document.ns?, h.metadata.fieldText?]

theorem key : d.key = e.key := by
  rw [Document.key, Document.key, h.kind, h.ns?, h.name]

theorem isCrd : d.isCrd = e.isCrd := by
  rw [Document.isCrd, Document.isCrd, group, group, h.kind, h.apiVersion]

theorem isNamespaced (crds : List CrdRef) : d.isNamespaced crds = e.isNamespaced crds := by
  rw [Document.isNamespaced, Document.isNamespaced, h.kind, h.apiVersion]

/-- They define the same type. -/
theorem crd? : d.crd? = e.crd? := by
  unfold Document.crd?
  rw [h.isCrd, h.name]
  split
  · rfl
  refine h.root.bind_field? (by decide) fun spec spec' hspec => ?_
  rw [hspec.fieldText?, hspec.fieldText? "scope", crdVersions_eq hspec]
  refine congrArg (Option.bind _) (funext fun group => ?_)
  refine hspec.bind_field? (by decide) fun names names' hnames => ?_
  rw [hnames.fieldText?]

omit h in
theorem onFields {f : Fields → Fields} {v w : Value} (hvw : Value.Agree v w)
    (hf : ∀ fs gs, Value.Agree (.mapping fs) (.mapping gs) →
      Value.Agree (.mapping (f fs)) (.mapping (f gs))) :
    Value.Agree (Document.onFields f v) (Document.onFields f w) := by
  obtain ⟨order, hcanonical⟩ := hvw.canonical
  cases v with
  | mapping fs =>
      cases w with
      | mapping gs => exact hf fs gs hvw
      | _ =>
          simp only [Value.canonicalBy] at hcanonical
          cases hcanonical
  | _ =>
      cases w with
      | mapping gs =>
          simp only [Value.canonicalBy] at hcanonical
          cases hcanonical
      | _ => exact hvw

omit h in
theorem withNs (ns : Option String) {fs gs : Fields}
    (hfg : Value.Agree (.mapping fs) (.mapping gs)) :
    Value.Agree (.mapping (Document.withNs ns fs)) (.mapping (Document.withNs ns gs)) := by
  refine hfg.change (k := "namespace") (withNs_keepsKeys ns) (by decide) (fun fs j hj => ?_) ?_
  · cases ns with
    | some ns => rw [Document.withNs, Ordered.find?_put, if_neg hj]
    | none => exact Ordered.find?_remove_of_ne hj fs
  · cases ns with
    | some ns => simp only [Document.withNs, Ordered.find?_put, if_true]
    | none =>
        have hnone {fs : Fields} (hfs : (Value.mapping fs).WellKeyed) :
            Ordered.find? "namespace" (Document.withNs none fs) = none :=
          Ordered.find?_remove_self (Value.wellKeyed_mapping.mp hfs).1
        rw [hnone hfg.left, hnone hfg.right]

/-- A namespace that is set does not undo the agreement. -/
theorem setNs (ns : Option String) : Agree (d.setNs ns) (e.setNs ns) := by
  refine ⟨Value.Agree.canonicalBy_eq ?_ _, h.requires⟩
  refine onFields h.root fun fs gs hfg => ?_
  refine hfg.change (k := "metadata") (fun _ h => h.modify "metadata" fun _ =>
    wellKeyed_onFields (withNs_keepsKeys ns)) (by decide) (fun fs j hj => ?_) ?_
  · rw [Ordered.find?_modify, if_neg hj]
  · rw [Ordered.find?_modify, Ordered.find?_modify, if_pos rfl, if_pos rfl]
    rcases hfg.field?_cases (k := "metadata") (by decide) with ⟨hf, hg⟩ | ⟨x, y, hf, hg, hxy⟩
    · rw [show Ordered.find? "metadata" fs = none from hf,
        show Ordered.find? "metadata" gs = none from hg]
    · rw [show Ordered.find? "metadata" fs = some x from hf,
        show Ordered.find? "metadata" gs = some y from hg]
      have hsettled : Value.Settled "metadata" := by decide
      simp only [Option.map_some, hsettled.canonicalEntry_eq]
      rw [(onFields hxy fun _ _ => withNs ns).canonicalBy_eq]

/-- Types that are marked do not either, if the same one is found for both. -/
theorem markCrd {crds crds' : List CrdRef}
    (hfind : DocumentSet.required? crds d = DocumentSet.required? crds' e) :
    Agree (DocumentSet.markCrd crds d) (DocumentSet.markCrd crds' e) := by
  unfold DocumentSet.markCrd
  rw [h.isCrd]
  split
  · exact ⟨h.canonical, h.requires⟩
  · exact ⟨h.canonical, hfind⟩

end Agree

/-- The namespace plays no part in the type that a document defines. -/
theorem crd?_setNs (d : Document) (ns : Option String) : (d.setNs ns).crd? = d.crd? := by
  have hname : (d.setNs ns).name = d.name := by
    rw [name, name, Value.fieldText?, Value.fieldText?, d.metadata_field?_setNs ns (by decide)]
  have hcrd : (d.setNs ns).isCrd = d.isCrd := by
    rw [isCrd, isCrd, group, group, d.kind_setNs, d.apiVersion_setNs]
  simp only [crd?, spec?, hname, hcrd, d.field?_setNs ns (k := "spec") (by decide)]

theorem crd?_markCrd (crds : List CrdRef) (d : Document) :
    (DocumentSet.markCrd crds d).crd? = d.crd? := by
  rw [DocumentSet.markCrd]
  split <;> rfl

theorem isNamespaced_canonical (d : Document) (crds : List CrdRef) :
    d.canonical.isNamespaced crds = d.isNamespaced crds := by
  rw [isNamespaced, isNamespaced, d.kind_canonical, d.apiVersion_canonical]

/-- Canonical order changes nothing that the versions are read from. -/
theorem crdVersions_canonicalBy (order : List String) {spec : Value} (h : spec.WellKeyed) :
    crdVersions (Value.canonicalBy order spec) = crdVersions spec := by
  have hsettled : Value.Settled "versions" := by decide
  have hlisted : (((Value.canonicalBy order spec).field? "versions").bind Value.items?).getD [] =
      ((((spec.field? "versions").bind Value.items?).getD []).map
        (Value.canonicalBy Value.itemOrder)) := by
    rw [Value.field?_canonicalBy order h]
    cases spec.field? "versions" with
    | none => rfl
    | some v =>
        rw [Option.map_some, Option.bind_some, Option.bind_some, hsettled.canonicalEntry_eq]
        cases v <;> simp [Value.canonicalBy, Value.items?, Value.canonicalItems_eq_map]
  have hnames : (((spec.field? "versions").bind Value.items?).getD []).filterMap
      ((·.fieldText? "name") ∘ Value.canonicalBy Value.itemOrder) =
      (((spec.field? "versions").bind Value.items?).getD []).filterMap (·.fieldText? "name") := by
    refine List.filterMap_congr fun v hv => Value.fieldText?_canonicalBy _ ?_ "name"
    cases hs : spec.field? "versions" with
    | none =>
        rw [hs] at hv
        cases hv
    | some vs =>
        rw [hs] at hv
        cases vs with
        | sequence vs => exact Value.wellKeyed_sequence.mp (h.field? hs) v hv
        | _ => cases hv
  rw [crdVersions, crdVersions, hlisted, List.filterMap_map, hnames,
    Value.fieldText?_canonicalBy order h]

/-- A definition still defines its type in canonical order. -/
theorem crd?_canonical (d : Document) : d.canonical.crd? = d.crd? := by
  have hspec : d.canonical.spec? = d.spec?.map (Value.canonicalBy []) := by
    have hsettled : Value.Settled "spec" := by decide
    rw [spec?, spec?]
    refine (Value.field?_canonicalBy _ d.wellKeyed "spec").trans (Option.map_congr fun v _ => ?_)
    exact hsettled.canonicalEntry_eq _ v
  unfold Document.crd?
  rw [d.isCrd_canonical, d.name_canonical, hspec]
  split
  · rfl
  cases hs : d.spec? with
  | none => rfl
  | some spec =>
      have hk : spec.WellKeyed := d.wellKeyed.field? hs
      have hsettled : Value.Settled "names" := by decide
      rw [Option.map_some]
      change Option.bind ((Value.canonicalBy [] spec).fieldText? "group") _ =
        Option.bind (spec.fieldText? "group") _
      rw [Value.fieldText?_canonicalBy [] hk, Value.fieldText?_canonicalBy [] hk "scope",
        crdVersions_canonicalBy [] hk]
      refine congrArg (Option.bind _) (funext fun group => ?_)
      change Option.bind ((Value.canonicalBy [] spec).field? "names") _ =
        Option.bind (spec.field? "names") _
      rw [Value.field?_canonicalBy [] hk]
      cases hn : spec.field? "names" with
      | none => rfl
      | some names =>
          have hkind := Value.fieldText?_canonicalBy [] (hk.field? hn) "kind"
          rw [Option.map_some, Option.bind_some, Option.bind_some, hsettled.canonicalEntry_eq]
          exact congrArg (Option.bind · _) hkind

end Document

end Rollout
