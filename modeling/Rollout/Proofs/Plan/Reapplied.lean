import Rollout.Proofs.Document.Notes
import Rollout.Proofs.Json.Reading
import Rollout.Proofs.Plan.DroppedField
import Rollout.Proofs.Value.Merging
/-!
Planning a document again right after it was applied. The record that applying adds is not part
of the document, so nothing is changed where there is room for it: annotations that are a
mapping, without another record.
-/

namespace Rollout

namespace Document

variable {d : Document} {ms : Fields} {text : String}

/-- The entries of the annotations in the fields of a metadata. -/
def annotationEntries (ms : Fields) : Fields :=
  ((Ordered.find? "annotations" ms).bind Value.fields?).getD []

/-- The metadata without a record of what was applied. -/
def bareFields (ms : Fields) : Fields := withoutNote .annotations lastAppliedKey ms

/-- The metadata with a record of what was applied. -/
def stampedFields (text : String) (ms : Fields) : Fields :=
  withNote .annotations lastAppliedKey text (bareFields ms)

theorem find?_bareFields {k : String} (h : k ≠ "annotations") (ms : Fields) :
    Ordered.find? k (bareFields ms) = Ordered.find? k ms :=
  find?_withoutNote (n := .annotations) h.symm lastAppliedKey ms

/-- Annotations lose their record, and are left out if nothing else is in them. -/
theorem find?_annotations_bareFields (hms : (Value.mapping ms).WellKeyed) :
    Ordered.find? "annotations" (bareFields ms) = Ordered.find? "annotations" ms ∧
        Ordered.find? lastAppliedKey (annotationEntries ms) = none ∨
      ∃ es, Ordered.find? "annotations" ms = some (.mapping es) ∧
        Ordered.find? "annotations" (bareFields ms) =
          if Ordered.remove lastAppliedKey es = [] then none
          else some (.mapping (Ordered.remove lastAppliedKey es)) := by
  rw [Value.wellKeyed_mapping] at hms
  unfold bareFields withoutNote annotationEntries
  change _ = Ordered.find? Note.annotations.field ms ∧
    Ordered.find? _ (((Ordered.find? Note.annotations.field ms).bind _).getD []) = none ∨ _
  split
  · next es hes =>
      rw [hes]
      split
      · refine .inr ⟨es, hes, ?_⟩
        split
        · next hempty =>
            rw [if_pos hempty]
            exact Ordered.find?_remove_self hms.1
        · next hrest =>
            rw [if_neg hrest]
            exact (Ordered.find?_put ..).trans (if_pos rfl)
      · next hkey =>
          rw [Ordered.has, Option.not_isSome_iff_eq_none] at hkey
          exact .inl ⟨hes, hkey⟩
  · next hnone =>
      left
      refine ⟨rfl, ?_⟩
      cases ha : Ordered.find? Note.annotations.field ms with
      | none => rfl
      | some a =>
          cases a with
          | mapping es => exact absurd ha (hnone es)
          | _ => rfl

theorem annotationEntries_bareFields (hms : (Value.mapping ms).WellKeyed) :
    annotationEntries (bareFields ms) = Ordered.remove lastAppliedKey (annotationEntries ms) :=
  noteEntries_withoutNote .annotations lastAppliedKey (Value.wellKeyed_mapping.mp hms).1

/-- The bare metadata has no fields of its own. -/
theorem within_of_bareFields {p : Value} (hms : (Value.mapping ms).WellKeyed)
    (h : p.Within (.mapping (bareFields ms))) : p.Within (.mapping ms) := by
  refine h.mapping_mono fun k v hv => ?_
  by_cases hk : k = "annotations"
  · subst hk
    rcases find?_annotations_bareFields hms with ⟨hsame, -⟩ | ⟨es, hes, hbare⟩
    · exact ⟨v, hsame ▸ hv, fun q hq => hq⟩
    · rw [hbare] at hv
      split at hv
      · cases hv
      · cases hv
        refine ⟨.mapping es, hes, fun q hq => hq.mapping_mono fun j w hw => ?_⟩
        have hentries := Value.wellKeyed_mapping.mp (hms.field? hes)
        refine ⟨w, ?_, fun q hq => hq⟩
        exact Ordered.find?_eq_some_of_mem hentries.1
          ((Ordered.remove_sublist ..).subset (Ordered.mem_of_find?_eq_some hw))
  · rw [find?_bareFields hk] at hv
    exact ⟨v, hv, fun q hq => hq⟩

theorem find?_stampedFields {k : String} (h : k ≠ "annotations") (ms : Fields) :
    Ordered.find? k (stampedFields text ms) = Ordered.find? k ms := by
  rw [stampedFields, find?_withNote (n := .annotations) h.symm, find?_bareFields h]

/-- The record joins the other entries of the annotations. -/
theorem exists_annotations_stampedFields (text : String) (hms : (Value.mapping ms).WellKeyed) :
    ∃ es, Ordered.find? "annotations" (stampedFields text ms) = some (.mapping es) ∧
      Ordered.find? lastAppliedKey es = some (.string text) ∧
      ∀ k ≠ lastAppliedKey, Ordered.find? k es = Ordered.find? k (annotationEntries ms) := by
  refine ⟨Ordered.put lastAppliedKey (.string text) (annotationEntries (bareFields ms)), ?_, ?_, ?_⟩
  · exact (Ordered.find?_put ..).trans (if_pos rfl)
  · exact (Ordered.find?_put ..).trans (if_pos rfl)
  · intro k hk
    rw [Ordered.find?_put, if_neg hk.symm, annotationEntries_bareFields hms,
      Ordered.find?_remove_of_ne hk.symm]

/-- The document without a record of what was applied. -/
def bare (d : Document) : Document := (d.removeNote .annotations lastAppliedKey).2

/-- There is room for the record: annotations, if there are any, are a mapping, and a record
that is among them is that of the document itself. -/
def Stampable (d : Document) : Prop :=
  ∀ a, d.metadata.field? "annotations" = some a → ∃ es, a = .mapping es ∧
    ∀ r, Ordered.find? lastAppliedKey es = some r → r = .string d.bare.root.toJson

section Accepted

variable {fs : Fields}

theorem root_bare (hroot : d.root = .mapping fs) :
    d.bare.root = .mapping (Ordered.modify "metadata" (onFields bareFields) fs) :=
  root_modifyMetadata (withoutNote_keepsKeys .annotations lastAppliedKey) hroot

variable (hroot : d.root = .mapping fs) (hmetadata : Ordered.find? "metadata" fs = some (.mapping ms))

include hroot hmetadata

theorem within_of_bare {p : Value} (h : p.Within d.bare.root) : p.Within d.root := by
  rw [root_bare hroot] at h
  rw [hroot]
  refine h.mapping_mono fun k v hv => ?_
  rw [Ordered.find?_modify] at hv
  split at hv
  · next hk =>
      subst hk
      rw [hmetadata] at hv
      cases hv
      refine ⟨.mapping ms, hmetadata, fun q hq => ?_⟩
      exact within_of_bareFields (wellKeyed_metadata hroot hmetadata) hq
  · exact ⟨v, hv, fun q hq => hq⟩

/-- Of the object that was applied, only the annotations are not those of the document. -/
theorem exists_root_withLastApplied :
    ∃ ls, d.withLastApplied.root = .mapping ls ∧
      Ordered.find? "metadata" ls = some (.mapping (stampedFields d.bare.root.toJson ms)) ∧
      ∀ k ≠ "metadata", Ordered.find? k ls = Ordered.find? k fs := by
  refine ⟨Ordered.modify "metadata"
    (onFields (withNote .annotations lastAppliedKey d.bare.root.toJson))
    (Ordered.modify "metadata" (onFields bareFields) fs), ?_, ?_, fun k hk => ?_⟩
  · change onFields (Ordered.modify "metadata"
      (onFields (withNote .annotations lastAppliedKey d.bare.root.toJson))) d.bare.root = _
    generalize d.bare.root.toJson = text
    rw [root_bare hroot]
    rfl
  · rw [Ordered.find?_modify, if_pos rfl, Ordered.find?_modify, if_pos rfl, hmetadata]
    rfl
  · rw [Ordered.find?_modify, if_neg hk.symm, Ordered.find?_modify, if_neg hk.symm]

/-- An object that has all of the document with its record has the record. -/
theorem exists_record_of_covers {l : Document} (h : l.root.Covers d.withLastApplied.root) :
    ∃ ls ns es, l.root = .mapping ls ∧ Ordered.find? "metadata" ls = some (.mapping ns) ∧
      Ordered.find? "annotations" ns = some (.mapping es) ∧
      Ordered.find? lastAppliedKey es = some (.string d.bare.root.toJson) := by
  obtain ⟨ps, hps, hstamped, -⟩ := exists_root_withLastApplied hroot hmetadata
  obtain ⟨rs, hrs, hrecord, -⟩ := exists_annotations_stampedFields d.bare.root.toJson
    (wellKeyed_metadata hroot hmetadata)
  rw [hps] at h
  obtain ⟨ls, m, hls, hm, hcovers⟩ := h.exists_field hstamped
  obtain ⟨ns, a, rfl, ha, hcovers⟩ := hcovers.exists_field hrs
  obtain ⟨es, r, rfl, hr, hcovers⟩ := hcovers.exists_field hrecord
  rw [Value.Covers, Value.project] at hcovers
  · exact ⟨ls, ns, es, hls, hm, ha, hcovers ▸ hr⟩
  · nofun
  · nofun

theorem lastApplied?_of_covers {l : Document} (h : l.root.Covers d.withLastApplied.root) :
    l.lastApplied? = Value.ofJson? d.bare.root.toJson := by
  obtain ⟨ls, ns, es, hls, hns, hes, hrecord⟩ := exists_record_of_covers hroot hmetadata h
  have hentries : l.noteFields .annotations = es := by
    rw [noteFields, metadata, hls]
    change (((((Ordered.find? "metadata" ls).getD .null).field? "annotations").bind _).getD []) = es
    rw [hns]
    change ((Ordered.find? "annotations" _).bind _).getD [] = es
    rw [hes]
    rfl
  rw [lastApplied?, note?, hentries, hrecord]
  rfl

/-- What was just applied adds nothing to what is compared. -/
theorem comparedFields_of_covers {l : Document} (h : l.root.Covers d.withLastApplied.root) :
    comparedFields d l = d.root := by
  rw [comparedFields, lastApplied?_of_covers hroot hmetadata h]
  cases hp : Value.ofJson? d.bare.root.toJson with
  | none => rfl
  | some p =>
      have hwithin := Value.within_of_ofJson? d.bare.wellKeyed hp
      exact (within_of_bare hroot hmetadata hwithin).withFieldsOf_eq_self

/-- Where there is room for the record, the object has what the document sets. -/
theorem covers_withLastApplied (h : d.Stampable) : d.withLastApplied.root.Covers d.root := by
  obtain ⟨ls, hls, hstamped, hother⟩ := exists_root_withLastApplied hroot hmetadata
  have hms := wellKeyed_metadata hroot hmetadata
  have hfs := d.wellKeyed
  rw [hroot] at hfs
  obtain ⟨es, hes, hrecord, hentries⟩ := exists_annotations_stampedFields d.bare.root.toJson hms
  rw [hls, hroot]
  -- Down to the record: only on the way to it the object and the document differ.
  refine Value.project_mapping_eq_self "metadata" hfs hother fun m hm => ⟨_, hstamped, ?_⟩
  obtain rfl := Option.some.inj (hmetadata.symm.trans hm)
  refine Value.project_mapping_eq_self "annotations" hms
    (fun k hk => find?_stampedFields hk ms) fun a ha => ⟨_, hes, ?_⟩
  obtain ⟨es', rfl, hown⟩ := h a (metadata_eq hroot hmetadata ▸ ha)
  have hes' : annotationEntries ms = es' := by rw [annotationEntries, ha]; rfl
  refine Value.project_mapping_eq_self lastAppliedKey (hms.field? ha)
    (fun k hk => hes' ▸ hentries k hk) fun r hr => ⟨_, hrecord, ?_⟩
  rw [hown r hr]
  rfl

end Accepted

end Document

open Document

variable {d : Document} {fs ms : Fields}

theorem unchanged_of_covers {l : Document} (hroot : d.root = .mapping fs)
    (hmetadata : Ordered.find? "metadata" fs = some (.mapping ms))
    (hl : l.root.Covers d.withLastApplied.root) (h : d.Stampable) (context : Nat) :
    (planChange d (some l) context).action = .unchanged := by
  have hcovers : l.root.project d.root = d.root :=
    Value.covers_trans d.root d.wellKeyed hl (covers_withLastApplied hroot hmetadata h)
  have hseen : seen d l = d.root.canonical := by
    rw [seen, comparedFields_of_covers hroot hmetadata hl, hcovers]
  rw [unchanged_iff_same_seen, hseen]
  exact Value.same_self _ (Value.wellKeyed_canonicalBy _ _ d.wellKeyed)

theorem unchanged_of_stampable (hroot : d.root = .mapping fs)
    (hmetadata : Ordered.find? "metadata" fs = some (.mapping ms)) (h : d.Stampable)
    (context : Nat) : (planChange d (some d.withLastApplied) context).action = .unchanged :=
  unchanged_of_covers hroot hmetadata (Value.project_self _ d.withLastApplied.wellKeyed) h context

/-- Where all is the same, a field of the document is the same in the object. -/
theorem Value.same_field {ds ls : Fields} {d v : Value} {order order' : List String} {k : String}
    (hk : ∀ requirement, isSetField requirement k = false) (hds : (Value.mapping ds).WellKeyed)
    (hd : Ordered.find? k ds = some d) (hv : Ordered.find? k ls = some v)
    (h : (canonicalBy order ((mapping ls).project (mapping ds))).same
      (canonicalBy order' (.mapping ds))) :
    (canonicalBy (orderBelow k) (v.project d)).same (canonicalBy (orderBelow k) d) := by
  rw [wellKeyed_mapping] at hds
  have hproject : Ordered.find? k (projectFields ls ds) = some (v.project d) := by
    rw [find?_projectFields, hd, hv]
    rfl
  rw [project] at h
  obtain ⟨x, hx, hsame⟩ := exists_same_of_same_mapping
    (hds.1.sublist (keys_projectFields_sublist ls ds)) hds.1 h hproject
  obtain rfl := Option.some.inj (hd.symm.trans hx)
  rwa [canonicalEntry, canonicalEntry, hk, if_neg Bool.false_ne_true,
    if_neg Bool.false_ne_true] at hsame

theorem Value.eq_of_same_string {s : String} {v : Value} {order order' : List String}
    (h : (canonicalBy order ((string s).project v)).same (canonicalBy order' v)) :
    v = .string s := by
  cases v with
  | string t =>
      simp only [project, canonicalBy, same, beq_iff_eq] at h
      exact congrArg Value.string h.symm
  | _ =>
      simp only [project, canonicalBy, same] at h
      cases h

theorem stampable_of_covers {l : Document} (hroot : d.root = .mapping fs)
    (hmetadata : Ordered.find? "metadata" fs = some (.mapping ms))
    (hl : l.root.Covers d.withLastApplied.root) {context : Nat}
    (h : (planChange d (some l) context).action = .unchanged) : d.Stampable := by
  obtain ⟨ls, ns, es, hls, hns, hes, hrecord⟩ := exists_record_of_covers hroot hmetadata hl
  have hms := wellKeyed_metadata hroot hmetadata
  have hfs := d.wellKeyed
  rw [hroot] at hfs
  have hsame : (l.root.project d.root).canonical.same d.root.canonical := by
    rwa [unchanged_iff_same_seen, seen, comparedFields_of_covers hroot hmetadata hl] at h
  rw [hls, hroot] at hsame
  have hbelow := Value.same_field (by decide) hfs hmetadata hns hsame
  intro a ha
  rw [metadata_eq hroot hmetadata] at ha
  have hannotations := Value.same_field (by decide) hms ha hes hbelow
  cases a with
  | mapping es' =>
      refine ⟨es', rfl, fun r hr => ?_⟩
      exact Value.eq_of_same_string
        (Value.same_field (by decide) (hms.field? ha) hr hrecord hannotations)
  | _ => cases Value.isMapping_eq_of_same_canonicalBy hannotations

theorem stampable_of_unchanged (hroot : d.root = .mapping fs)
    (hmetadata : Ordered.find? "metadata" fs = some (.mapping ms)) {context : Nat}
    (h : (planChange d (some d.withLastApplied) context).action = .unchanged) : d.Stampable :=
  stampable_of_covers hroot hmetadata (Value.project_self _ d.withLastApplied.wellKeyed) h

/-- Planned again right after it was applied, a document changes nothing, exactly if there was
room for the record. -/
theorem unchanged_reapplied_iff {t : Tree} (h : ofTree t = .ok d) (context : Nat) :
    (planChange d (some d.withLastApplied) context).action = .unchanged ↔ d.Stampable := by
  obtain ⟨fs, ms, hroot, hmetadata⟩ := formed_of_ofTree h
  constructor
  · exact stampable_of_unchanged hroot hmetadata
  · intro hstampable
    exact unchanged_of_stampable hroot hmetadata hstampable context

/-- A configuration with the given annotations. -/
def annotated (a : Tree) : Tree where
  val := .mapping [("apiVersion", .string "v1"), ("kind", .string "ConfigMap"),
    ("metadata", .mapping [("name", .string "web"), ("annotations", a.1)])]
  property := by simp [Ordered.keys, a.2]

def annotatedConfig (a : Tree) : Document where
  root := (annotated a).1
  wellKeyed := (annotated a).2

theorem ofTree_annotated (a : Tree) : ofTree (annotated a) = .ok (annotatedConfig a) := rfl

def teamNote : Tree := .ofEntries [("team", .string "shop")]

/-- Another annotation leaves room for the record. -/
theorem unchanged_reapplied_team :
    ofTree (annotated teamNote) = .ok (annotatedConfig teamNote) ∧
      (annotatedConfig teamNote).Stampable ∧
      (planChange (annotatedConfig teamNote) (some (annotatedConfig teamNote).withLastApplied)
        3).action = .unchanged := by
  have hstampable : (annotatedConfig teamNote).Stampable := by
    intro a ha
    cases ha
    exact ⟨_, rfl, nofun⟩
  have htree := ofTree_annotated teamNote
  exact ⟨htree, hstampable, (unchanged_reapplied_iff htree 3).mpr hstampable⟩

/-- Annotations that are null give way to the record, and are planned to come back. -/
theorem not_forall_unchanged_reapplied :
    ¬ ∀ (t : Tree) (d : Document) (context : Nat), ofTree t = .ok d →
      (planChange d (some d.withLastApplied) context).action = .unchanged := by
  intro h
  have hstampable := stampable_of_unchanged rfl rfl
    (h (annotated .null) (annotatedConfig .null) 3 (ofTree_annotated .null))
  obtain ⟨es, hes, -⟩ := hstampable .null rfl
  cases hes

end Rollout
