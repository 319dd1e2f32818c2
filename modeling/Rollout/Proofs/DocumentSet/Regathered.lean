import Mathlib.Data.List.Perm.Basic
import Rollout.Proofs.Document.Placement
import Rollout.Proofs.DocumentSet.Collected
import Rollout.Proofs.Except
/-!
Sets that hold the same documents in another order and written in another way go through every
pass of a build together: both fail, or both are again such sets.
-/

namespace Rollout

/-- The same documents in another order, up to their canonical form. -/
def Regathered (docs docs' : List Document) : Prop :=
  ∃ middle, docs.Perm middle ∧ List.Forall₂ Document.Agree middle docs'

namespace Regathered

variable {α : Type} {docs docs' more more' : List Document} {f g : Document → α}

theorem of_perm (h : docs.Perm docs') : Regathered docs docs' :=
  ⟨docs', h, List.forall₂_same.mpr fun _ _ => ⟨rfl, rfl⟩⟩

theorem perm_trans (h : Regathered docs' more) (hperm : docs.Perm docs') : Regathered docs more := by
  obtain ⟨middle, hmiddle, hagree⟩ := h
  exact ⟨middle, hperm.trans hmiddle, hagree⟩

theorem trans_perm (h : Regathered docs docs') (hperm : docs'.Perm more) : Regathered docs more := by
  obtain ⟨middle, hmiddle, hagree⟩ := h
  obtain ⟨middle', hperm', hagree'⟩ :=
    List.forall₂_comp_perm_eq_perm_comp_forall₂.le _ _ ⟨docs', hagree, hperm⟩
  exact ⟨middle', hmiddle.trans hperm', hagree'⟩

theorem append (h : Regathered docs docs') (h' : Regathered more more') :
    Regathered (docs ++ more) (docs' ++ more') := by
  obtain ⟨middle, hperm, hagree⟩ := h
  obtain ⟨middle', hperm', hagree'⟩ := h'
  exact ⟨middle ++ middle', hperm.append hperm', List.rel_append hagree hagree'⟩

theorem flatMap {β γ : Type} {r : β → γ → Prop} {f : β → List Document} {g : γ → List Document}
    {l : List β} {l' : List γ} (h : List.Forall₂ r l l')
    (hfg : ∀ b c, r b c → Regathered (f b) (g c)) : Regathered (l.flatMap f) (l'.flatMap g) := by
  induction h with
  | nil => exact .of_perm (.refl _)
  | cons hbc _ ih => exact (hfg _ _ hbc).append ih

theorem map {f g : Document → Document} (h : Regathered docs docs')
    (hfg : ∀ d e, Document.Agree d e → Document.Agree (f d) (g e)) :
    Regathered (docs.map f) (docs'.map g) := by
  obtain ⟨middle, hperm, hagree⟩ := h
  refine ⟨middle.map f, hperm.map f, ?_⟩
  rw [List.forall₂_map_left_iff, List.forall₂_map_right_iff]
  exact hagree.imp fun _ _ => hfg _ _

theorem filterMap {f g : Document → Option α} (h : Regathered docs docs')
    (hfg : ∀ d e, Document.Agree d e → f d = g e) :
    (docs.filterMap f).Perm (docs'.filterMap g) := by
  obtain ⟨middle, hperm, hagree⟩ := h
  rw [← filterMap_eq_of_forall₂ hagree hfg]
  exact hperm.filterMap f

theorem map_perm {f g : Document → α} (h : Regathered docs docs')
    (hfg : ∀ d e, Document.Agree d e → f d = g e) : (docs.map f).Perm (docs'.map g) := by
  have hperm := h.filterMap (f := fun d => some (f d)) (g := fun d => some (g d))
    fun d e hde => congrArg some (hfg d e hde)
  rwa [← List.filterMap_eq_map, ← List.filterMap_eq_map]

theorem distinct_iff (h : Regathered docs docs') : Distinct docs ↔ Distinct docs' :=
  (h.map_perm fun _ _ hde => hde.key).nodup_iff

end Regathered

theorem find?_eq_of_perm {α : Type} {p : α → Bool} {l l' : List α} (h : l.Perm l')
    (hp : l.Pairwise fun a b => ¬ (p a ∧ p b)) : l.find? p = l'.find? p := by
  induction h with
  | nil => rfl
  | cons a _ ih => rw [List.find?_cons, List.find?_cons, ih (List.pairwise_cons.mp hp).2]
  | swap a b l =>
      have hab := (List.pairwise_cons.mp hp).1 a List.mem_cons_self
      rw [List.find?_cons, List.find?_cons, List.find?_cons, List.find?_cons]
      cases ha : p a <;> cases hb : p b <;> first | rfl | exact absurd ⟨hb, ha⟩ hab
  | trans h _ ih ih' =>
      refine (ih hp).trans (ih' ((h.pairwise_iff fun {a b} hab => ?_).mp hp))
      exact fun hba => hab hba.symm

/-- No two of the types have the same group and kind and a version in common. -/
def Unambiguous (crds : List CrdRef) : Prop :=
  crds.Pairwise fun c c' =>
    ¬ (c.group = c'.group ∧ c.kind = c'.kind ∧ ∃ version ∈ c.versions, version ∈ c'.versions)

instance (crds : List CrdRef) : Decidable (Unambiguous crds) :=
  inferInstanceAs (Decidable (crds.Pairwise fun c c' =>
    ¬ (c.group = c'.group ∧ c.kind = c'.kind ∧ ∃ version ∈ c.versions, version ∈ c'.versions)))

theorem Unambiguous.of_perm {crds crds' : List CrdRef} (hcrds : Unambiguous crds)
    (h : crds.Perm crds') : Unambiguous crds' := by
  refine (h.pairwise_iff fun {c c'} hne => ?_).mp hcrds
  rintro ⟨hgroup, hkind, version, hv, hv'⟩
  exact hne ⟨hgroup.symm, hkind.symm, version, hv', hv⟩

/-- A document is then an instance of one type at most, so that their order plays no part. -/
theorem Unambiguous.find?_eq {crds crds' : List CrdRef} (hcrds : Unambiguous crds)
    (h : crds.Perm crds') (apiVersion kind : String) :
    crds.find? (·.matches apiVersion kind) = crds'.find? (·.matches apiVersion kind) := by
  refine find?_eq_of_perm h (hcrds.imp fun hne hboth => hne ?_)
  obtain ⟨hc, hc'⟩ := hboth
  simp only [CrdRef.matches, Bool.and_eq_true, beq_iff_eq, List.contains_iff_mem] at hc hc'
  exact ⟨hc.1.2.trans hc'.1.2.symm, hc.1.1.trans hc'.1.1.symm, _, hc.2, hc'.2⟩

namespace DocumentSet

/-- Two sets that a build treats alike. -/
structure Alike (s t : DocumentSet) : Prop where
  left : s.Indexed
  right : t.Indexed
  documents : Regathered s.documents t.documents
  types : Unambiguous s.crds

theorem together_of_yields {x y : Except BuildError DocumentSet} {p q : Prop}
    {docs docs' : List Document} (hx : Yields x p docs) (hy : Yields y q docs') (hpq : p ↔ q)
    (hdocs : Regathered docs docs') (htypes : Unambiguous (docs.filterMap Document.crd?)) :
    Together Alike x y := by
  by_cases hp : p
  · obtain ⟨s, hs, hindexed, rfl⟩ := hx.ok hp
    obtain ⟨t, ht, hindexed', rfl⟩ := hy.ok (hpq.mp hp)
    exact .inr ⟨s, t, hs, ht, hindexed, hindexed', hdocs, htypes⟩
  · obtain ⟨e, he⟩ := hx.error hp
    obtain ⟨e', he'⟩ := hy.error fun hq => hp (hpq.mpr hq)
    exact .inl ⟨e, e', he, he'⟩

namespace Alike

variable {s t : DocumentSet} (h : Alike s t)

include h

theorem crds : s.crds.Perm t.crds := h.documents.filterMap fun _ _ hde => hde.crd?

theorem isNamespaced {d e : Document} (hde : Document.Agree d e) :
    d.isNamespaced s.crds = e.isNamespaced t.crds := by
  rw [hde.isNamespaced, Document.isNamespaced, Document.isNamespaced,
    h.types.find?_eq h.crds]

theorem placed (ns : String) {d e : Document} (hde : Document.Agree d e) :
    Document.Agree (DocumentSet.placed s.crds ns d) (DocumentSet.placed t.crds ns e) := by
  unfold DocumentSet.placed
  rw [lacksNs, lacksNs, hde.ns?, h.isNamespaced hde]
  split
  · exact hde.setNs (some ns)
  · exact hde

/-- The default namespace is given to both. -/
theorem giveNamespace (ns : Option String) :
    Together Alike (Builder.giveNamespace ns s) (Builder.giveNamespace ns t) := by
  cases ns with
  | none => exact .inr ⟨s, t, rfl, rfl, h⟩
  | some ns =>
      have hdocs := h.documents.map fun _ _ => h.placed ns
      refine together_of_yields (h.left.yields_defaultNs ns) (h.right.yields_defaultNs ns)
        hdocs.distinct_iff hdocs ?_
      have hcrd : Document.crd? ∘ DocumentSet.placed s.crds ns = Document.crd? :=
        funext fun d => crd?_placed s.crds ns d
      rw [List.filterMap_map, hcrd]
      exact h.types

theorem required?_eq {d e : Document} (hde : Document.Agree d e) :
    required? s.crds d = required? t.crds e := by
  rw [required?, required?, hde.kind, hde.apiVersion, h.types.find?_eq h.crds]

/-- Types and their instances are marked in both. -/
theorem markCrds : Alike s.markCrds.2 t.markCrds.2 := by
  have hs : s.markCrds.2.documents = s.documents.map (markCrd s.crds) := documents_map s _
  have ht : t.markCrds.2.documents = t.documents.map (markCrd t.crds) := documents_map t _
  refine ⟨h.left.map (key_markCrd _), h.right.map (key_markCrd _), ?_, ?_⟩
  · rw [hs, ht]
    exact h.documents.map fun _ _ hde => hde.markCrd (h.required?_eq hde)
  · have hcrd : Document.crd? ∘ markCrd s.crds = Document.crd? :=
      funext fun d => d.crd?_markCrd s.crds
    rw [DocumentSet.crds, hs, List.filterMap_map, hcrd]
    exact h.types

theorem namedNamespaces_eq : s.namedNamespaces = t.namedNamespaces := by
  have hmem (n : String) : n ∈ s.namedNamespaces ↔ n ∈ t.namedNamespaces := by
    rw [mem_namedNamespaces, mem_namedNamespaces, List.filterMap_filter, List.filterMap_filter]
    refine (h.documents.filterMap fun d e hde => ?_).mem_iff
    rw [h.isNamespaced hde, hde.ns?]
  have hnodup (s : DocumentSet) : s.namedNamespaces.Nodup :=
    (pairwise_namedNamespaces s).imp ne_of_lt
  refine ((List.perm_ext_iff_of_nodup (hnodup s) (hnodup t)).mpr hmem).eq_of_pairwise ?_
    (pairwise_namedNamespaces s) (pairwise_namedNamespaces t)
  intro a b _ _ hab hba
  exact absurd hba (lt_asymm hab)

omit h in
theorem missing_eq {docs docs' : List Document} (hdocs : Regathered docs docs')
    (names : List String) : missing docs names = missing docs' names := by
  have hkeys := hdocs.map_perm fun _ _ hde => Document.Agree.key hde
  exact List.filter_congr fun n _ => decide_eq_decide.mpr (not_congr hkeys.mem_iff)

/-- The same namespaces are added to both. -/
theorem synthesizeNamespaces :
    Together Alike (result s.synthesizeNamespaces) (result t.synthesizeNamespaces) := by
  have hnodup : s.namedNamespaces.Nodup := (pairwise_namedNamespaces s).imp ne_of_lt
  have hnodup' : t.namedNamespaces.Nodup := (pairwise_namedNamespaces t).imp ne_of_lt
  refine together_of_yields (h.left.yields_addNamespaces hnodup)
    (h.right.yields_addNamespaces hnodup') .rfl ?_ ?_
  · rw [h.namedNamespaces_eq, missing_eq h.documents]
    exact h.documents.append (.of_perm (.refl _))
  · have hcrd : Document.crd? ∘ synthesized = fun _ => none := rfl
    rw [List.filterMap_append, List.filterMap_map, hcrd, List.filterMap_none, List.append_nil]
    exact h.types

/-- What the canonical form leaves of the documents is the same in both. -/
theorem canonical : ((s.documents.map Document.canonical).map Document.plain).Perm
    ((t.documents.map Document.canonical).map Document.plain) := by
  rw [List.map_map, List.map_map]
  refine h.documents.map_perm fun d e hde => ?_
  have hroot : d.canonical.root = e.canonical.root := hde.canonical
  have hrequires : d.canonical.markers.requires = e.canonical.markers.requires := hde.requires
  simp only [Function.comp_apply, Document.plain, hroot, hrequires]

end Alike

end DocumentSet

end Rollout
