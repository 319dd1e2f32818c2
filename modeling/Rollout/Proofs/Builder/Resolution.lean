import Rollout.Proofs.Builder.Running
import Rollout.Proofs.Document.References
/-!
Builds without written dependencies. What is found in documents never stands in the way of an
order, so such a build can only fail for how it was put together, or in one of its components.
-/

namespace Rollout

namespace DocumentSet

variable {types : List CrdRef} {ns : Option String} {d : Document}

theorem kind_of_insertAll {entries : List (Document × String)} {s : DocumentSet} {e : BuildError}
    (h : result (insertAll entries s) = .error e) : e.kind = .configuration := by
  induction entries generalizing s with
  | nil => cases h
  | cons entry entries ih =>
      obtain ⟨d, source⟩ := entry
      rw [insertAll] at h
      cases hinsert : s.insert d source with
      | ok t =>
          rw [hinsert] at h
          exact ih h
      | error e' =>
          rw [hinsert] at h
          cases h
          rw [insert] at hinsert
          split at hinsert
          · cases hinsert
            rfl
          · cases hinsert

theorem ns?_staged : (staged types ns d).ns? = (given types ns d).ns? := by
  rw [staged, Document.ns?_canonical, Document.ns?, Document.metadata, root_markCrd]
  rfl

/-- No stage marks a definition with a type that it needs. -/
theorem requires_staged_of_isCrd (hd : d.isCrd) :
    (staged types ns d).markers.requires = d.markers.requires := by
  have hcrd : (given types ns d).isCrd = d.isCrd := by
    rw [Document.isCrd, Document.isCrd, Document.group, Document.group, kind_given,
      apiVersion_given]
  change (markCrd types (given types ns d)).markers.requires = _
  rw [markCrd, if_pos (hcrd.trans hd)]
  change (given types ns d).markers.requires = _
  cases ns with
  | none => rfl
  | some ns =>
      rw [given, placed]
      split <;> rfl

theorem note?_given (n : Document.Note) (k : String) :
    (given types ns d).note? n k = d.note? n k := by
  cases ns with
  | none => rfl
  | some ns =>
      rw [given, placed]
      split
      · exact d.note?_setNs _ n k
      · rfl

theorem note?_markCrd (n : Document.Note) (k : String) :
    (markCrd types d).note? n k = d.note? n k := by
  rw [Document.note?_eq_bind, Document.note?_eq_bind, Document.metadata, Document.metadata,
    root_markCrd]

theorem note?_staged (n : Document.Note) (k : String) :
    (staged types ns d).note? n k = d.note? n k := by
  rw [staged, Document.note?_canonical, note?_markCrd, note?_given]

end DocumentSet

open DocumentSet

/-- A document that comes after others only for what is found in it: it has no annotation for
that, and if it defines a type, it is in no namespace and has no mark of a type that it needs. Such
marks are set in no other way than by the passes, and by these never on a definition. -/
structure Document.Unforced (types : List CrdRef) (ns : Option String) (d : Document) : Prop where
  unannotated : d.note? .annotations dependsOnKey = none
  definition : d.isCrd → (given types ns d).ns? = none ∧ d.markers.requires = none

/-- What the stages leave of such documents has only references that are found. -/
theorem automatic_staged {types : List CrdRef} {ns : Option String} {docs : List Document}
    {names : List String} (htypes : types = docs.filterMap Document.crd?)
    (h : ∀ d ∈ docs, d.Unforced types ns) :
    Automatic (docs.map (staged types ns) ++ names.map synthesized) := by
  refine ⟨fun e he => ?_, fun e he hcrd => ?_, fun e he c hc => ?_⟩
  · rcases List.mem_append.mp he with he | he
    · obtain ⟨d, hd, rfl⟩ := List.mem_map.mp he
      rw [Document.annotatedReferences, note?_staged, (h d hd).unannotated]
    · obtain ⟨n, -, rfl⟩ := List.mem_map.mp he
      rfl
  · rcases List.mem_append.mp he with he | he
    · obtain ⟨d, hd, rfl⟩ := List.mem_map.mp he
      rw [isCrd_staged] at hcrd
      rw [ns?_staged, requires_staged_of_isCrd hcrd]
      exact (h d hd).definition hcrd
    · obtain ⟨n, -, rfl⟩ := List.mem_map.mp he
      cases hcrd
  · rcases List.mem_append.mp he with he | he
    · obtain ⟨d, hd, rfl⟩ := List.mem_map.mp he
      by_cases hcrd : d.isCrd
      · rw [requires_staged_of_isCrd hcrd, ((h d hd).definition hcrd).2] at hc
        cases hc
      · rw [requires_staged types ns d hcrd] at hc
        have hmem := List.mem_of_find?_eq_some hc
        rw [htypes] at hmem
        obtain ⟨a, ha, hac⟩ := List.mem_filterMap.mp hmem
        have hacrd := (Document.of_crd? hac).1
        refine ⟨staged types ns a, List.mem_append_left _ (List.mem_map_of_mem ha), ?_, ?_⟩
        · rwa [isCrd_staged]
        · refine Document.key_of_crd? (by rwa [crd?_staged]) ?_
          rw [ns?_staged]
          exact ((h a ha).definition hacrd).1
    · obtain ⟨n, -, rfl⟩ := List.mem_map.mp he
      cases hc

variable {b : Builder} {ns : Option String} {e : BuildError}

theorem Component.kind_of_order {cs : List (String × List String)}
    (h : order cs = .error e) : e.kind = .configuration := by
  by_cases hregistered : Registered cs
  · rw [order_eq hregistered] at h
    cases hsort : (graph cs).sort with
    | ok order =>
        rw [hsort] at h
        cases h
    | error members =>
        rw [hsort] at h
        cases h
        rfl
  · obtain ⟨c, n, hmissing⟩ := exists_firstMissing hregistered
    rw [order_eq_error hmissing] at h
    cases h
    rfl

namespace Builder

/-- An error of the builder as it was put together, or of one of its components. -/
def Blamed (b : Builder) (e : BuildError) : Prop :=
  e.kind = .configuration ∨ ∃ x ∈ b.executions, b.runComponent x.found x.component = .error e

theorem blamed_of_gather (h : b.gather = .error e) : b.Blamed e := by
  rw [Blamed, executions]
  rw [gather] at h
  rw [runComponents] at h ⊢
  cases horder : Component.order b.dependencies with
  | error e' =>
      rw [horder] at h
      cases h
      exact .inl (Component.kind_of_order horder)
  | ok order =>
      cases hdirect : b.directDocuments with
      | error e' =>
          rw [horder, hdirect] at h
          cases h
          exact .inl (kind_of_insertAll hdirect)
      | ok s =>
          rw [horder, hdirect] at h
          exact .inr (exists_failed_of_runAll h)

theorem kind_of_giveNamespace {s : DocumentSet} (h : giveNamespace ns s = .error e) :
    e.kind = .configuration := by
  cases ns with
  | none => cases h
  | some ns =>
      have hdone : (s.defaultNs ns).1 = .error e := map_eq_error.mp h
      rw [defaultNs] at hdone
      split at hdone
      · cases hdone
      · have hrekeyed := map_eq_error.mp hdone
        exact kind_of_insertAll (map_eq_error.mpr hrekeyed)

theorem blamed_of_build (hstages : b.stages = Stage.defaults)
    (hdocs : ∀ s, b.gather = .ok s → ∀ d ∈ s.documents, d.Unforced s.crds ns)
    (h : b.build ns = .error e) : b.Blamed e := by
  cases hs : b.gather with
  | error e' =>
      rw [build, hs] at h
      cases h
      exact blamed_of_gather hs
  | ok s =>
      cases ht : giveNamespace ns s with
      | error e' =>
          rw [build, hs] at h
          change giveNamespace ns s >>= _ = _ at h
          rw [ht] at h
          cases h
          exact .inl (kind_of_giveNamespace ht)
      | ok t =>
          obtain ⟨names, hdistinct, hbuild, -⟩ := exists_build_eq hstages hs ht
          obtain ⟨r, hr⟩ := (automatic_staged rfl (hdocs s hs)).exists_ofDocuments hdistinct
          rw [hbuild] at h
          cases h.symm.trans hr

/-- A build without written dependencies finds an order: it fails only for how the builder was put
together, or with the error of a component. So it fails for the lack of an order only if a
component says so itself. -/
theorem exists_build_or_blamed (hstages : b.stages = Stage.defaults)
    (hdocs : ∀ s, b.gather = .ok s → ∀ d ∈ s.documents, d.Unforced s.crds ns) :
    ((∃ r, b.build ns = .ok r) ∨ ∃ e, b.build ns = .error e ∧ b.Blamed e) ∧
      ∀ e, b.build ns = .error e → e.kind = .resolution →
        ∃ x ∈ b.executions, b.runComponent x.found x.component = .error e := by
  have hblamed : ∀ e, b.build ns = .error e → b.Blamed e := fun _ =>
    blamed_of_build hstages hdocs
  refine ⟨?_, fun e he hkind => ?_⟩
  · cases hbuild : b.build ns with
    | ok r => exact .inl ⟨r, rfl⟩
    | error e => exact .inr ⟨e, rfl, hblamed e hbuild⟩
  · rcases hblamed e he with hconfiguration | hfailed
    · cases hkind.symm.trans hconfiguration
    · exact hfailed

theorem exists_build_forward :
    forward.stages = Stage.defaults ∧
      (∀ s, forward.gather = .ok s → ∀ d ∈ s.documents, d.Unforced s.crds (some "shop")) ∧
      ((∃ r, forward.build (some "shop") = .ok r) ∨
        ∃ e, forward.build (some "shop") = .error e ∧ forward.Blamed e) ∧
      ∀ e, forward.build (some "shop") = .error e → e.kind = .resolution →
        ∃ x ∈ forward.executions, forward.runComponent x.found x.component = .error e := by
  have hunforced : ∀ s, forward.gather = .ok s → ∀ d ∈ s.documents,
      d.Unforced s.crds (some "shop") := by
    intro s hs
    have hgather : forward.gather = .ok ⟨[(widgets.key, widgets, directSource),
        (reader.key, reader, directSource), (settings.key, settings, "settings"),
        (gadget.key, gadget, "gadgets")]⟩ := by decide +kernel
    obtain rfl := Except.ok.inj (hgather.symm.trans hs)
    have hnotes : ∀ d ∈ [widgets, reader, settings, gadget],
        d.note? .annotations dependsOnKey = none ∧ (d.isCrd →
          (given [⟨"widgets.example.com", "example.com", "Widget", ["v1"], true⟩]
            (some "shop") d).ns? = none ∧ d.markers.requires = none) := by decide +kernel
    exact fun d hd => ⟨(hnotes d hd).1, (hnotes d hd).2⟩
  exact ⟨rfl, hunforced, exists_build_or_blamed rfl hunforced⟩

end Builder

end Rollout
