import Rollout.Proofs.Document.Notes
import Rollout.Proofs.Plan.Reapplied
/-!
The record of what was applied. It is the text of the document without an earlier record, and
stamping the document again leaves it as it is, unless the first time its annotations had to be
made or replaced.
-/

namespace Rollout

namespace Value

theorem length_fieldsJson_append_cons (fs gs : Fields) (k : String) (v : Value) :
    (fieldsJson (fs ++ (k, v) :: gs)).length =
      (fieldsJson (fs ++ gs)).length + ((Json.quoted k).length + v.jsonChars.length + 2) := by
  induction fs with
  | nil => simp [fieldsJson]; omega
  | cons e fs ih => simp [fieldsJson, ih]; omega

theorem length_jsonChars_mapping (fs : Fields) :
    (mapping fs).jsonChars.length = (fieldsJson fs).length + if fs = [] then 1 else 0 := by
  cases fs <;> simp [jsonChars, fieldsJson]

/-- A field less, and the text is shorter. -/
theorem length_jsonChars_remove_lt {fs : Fields} {k : String} {v : Value}
    (h : Ordered.find? k fs = some v) :
    (mapping (Ordered.remove k fs)).jsonChars.length < (mapping fs).jsonChars.length := by
  obtain ⟨l, r, rfl, hk⟩ := Ordered.exists_append_of_find? h
  rw [Ordered.remove_append_cons hk, length_jsonChars_mapping, length_jsonChars_mapping,
    length_fieldsJson_append_cons]
  split <;> split <;> omega

theorem length_jsonChars_modify_lt {fs : Fields} {k : String} {v : Value} {f : Value → Value}
    (h : Ordered.find? k fs = some v) (hf : (f v).jsonChars.length < v.jsonChars.length) :
    (mapping (Ordered.modify k f fs)).jsonChars.length < (mapping fs).jsonChars.length := by
  obtain ⟨l, r, rfl, hk⟩ := Ordered.exists_append_of_find? h
  rw [Ordered.modify_append_cons hk, length_jsonChars_mapping, length_jsonChars_mapping,
    length_fieldsJson_append_cons, length_fieldsJson_append_cons]
  simp only [List.append_eq_nil_iff, reduceCtorEq, and_false, if_false]
  omega

end Value

namespace Document

variable {d e : Document} {ms : Fields}

/-- The document without a record of what was applied; the same where there is none. -/
structure Unrecorded (d e : Document) : Prop where
  differs : DiffersInNotes .annotations d e
  entries : e.noteFields .annotations =
    (d.noteFields .annotations).filter (·.1 ≠ lastAppliedKey)
  eq_self : lastAppliedKey ∉ Ordered.keys (d.noteFields .annotations) → e = d

/-- The document with a record of itself, and nothing else changed. Other annotations keep their
order; the record can be read where its text can. -/
structure Stamped (d e : Document) : Prop where
  differs : DiffersInNotes .annotations d e
  others : (e.noteFields .annotations).filter (·.1 ≠ lastAppliedKey) =
    (d.noteFields .annotations).filter (·.1 ≠ lastAppliedKey)
  unrecorded : Unrecorded d d.bare
  record : e.note? .annotations lastAppliedKey = some d.bare.root.toJson
  read : Value.ofJson? d.bare.root.toJson = some d.bare.root → e.lastApplied? = some d.bare.root

/-- Annotations are absent, or a mapping with entries. -/
def Restampable (d : Document) : Prop :=
  ∀ a, d.metadata.field? "annotations" = some a → ∃ es, a = .mapping es ∧ es ≠ []

theorem withLastApplied_eq (d : Document) :
    d.withLastApplied = d.bare.setNote .annotations lastAppliedKey d.bare.root.toJson := rfl

theorem formed_bare (hd : d.Formed) : d.bare.Formed :=
  hd.modifyMetadata (withoutNote_keepsKeys .annotations lastAppliedKey)

theorem bare_eq_self (hd : d.Formed)
    (h : lastAppliedKey ∉ Ordered.keys (d.noteFields .annotations)) : d.bare = d := by
  refine modifyMetadata_eq_self hd (withoutNote_keepsKeys .annotations lastAppliedKey) ?_
  intro ms hms
  rw [noteFields_eq hms] at h
  exact withoutNote_eq_self h

theorem noteFields_bare (hd : d.Formed) : d.bare.noteFields .annotations =
    (d.noteFields .annotations).filter (·.1 ≠ lastAppliedKey) := by
  rw [bare, noteFields_removeNote hd, Ordered.remove_eq_filter (d.nodup_noteFields _)]

theorem formed_withLastApplied (hd : d.Formed) : d.withLastApplied.Formed :=
  (formed_bare hd).modifyMetadata (withNote_keepsKeys .annotations lastAppliedKey _)

theorem unrecorded_bare (hd : d.Formed) : d.Unrecorded d.bare where
  differs := (changesNotes_removeNote hd .annotations lastAppliedKey).differs
  entries := noteFields_bare hd
  eq_self := bare_eq_self hd

/-- Removing the old record and adding the new one is one change of the metadata. -/
theorem withLastApplied_eq_modifyMetadata (d : Document) :
    d.withLastApplied = d.modifyMetadata (stampedFields d.bare.root.toJson)
      fun _ hms => withNote_keepsKeys .annotations lastAppliedKey _ _
        (withoutNote_keepsKeys .annotations lastAppliedKey _ hms) :=
  d.modifyMetadata_modifyMetadata (withoutNote_keepsKeys .annotations lastAppliedKey)
    (withNote_keepsKeys .annotations lastAppliedKey d.bare.root.toJson)

theorem differsInNotes_withLastApplied (hd : d.Formed) :
    DiffersInNotes .annotations d d.withLastApplied := by
  rw [withLastApplied_eq_modifyMetadata]
  refine differsInNotes_modifyMetadata _ hd fun ms => ?_
  exact (filter_withNote ..).trans (filter_withoutNote ..)

theorem noteFields_withLastApplied (hd : d.Formed) : d.withLastApplied.noteFields .annotations =
    Ordered.put lastAppliedKey (.string d.bare.root.toJson) (d.bare.noteFields .annotations) :=
  noteFields_setNote (formed_bare hd) ..

/-- The record is the text of the document without an earlier one. -/
theorem note?_withLastApplied (hd : d.Formed) :
    d.withLastApplied.note? .annotations lastAppliedKey = some d.bare.root.toJson := by
  rw [note?, noteFields_withLastApplied hd, Ordered.find?_put, if_pos rfl]
  rfl

theorem stamped (hd : d.Formed) : d.Stamped d.withLastApplied where
  differs := differsInNotes_withLastApplied hd
  others := by
    rw [noteFields_withLastApplied hd, Ordered.filter_put, noteFields_bare hd, List.filter_filter]
    simp only [Bool.and_self]
  unrecorded := unrecorded_bare hd
  record := note?_withLastApplied hd
  read hread := by
    rw [lastApplied?, note?_withLastApplied hd]
    exact hread

/-- Annotations without the record, where there are any left, are a mapping with entries. -/
theorem exists_annotations_bare (hd : d.Formed) (h : d.Restampable) {a : Value}
    (ha : d.bare.metadata.field? "annotations" = some a) :
    ∃ es, a = .mapping es ∧ es ≠ [] ∧ lastAppliedKey ∉ Ordered.keys es := by
  obtain ⟨fs, ms, hroot, hms⟩ := hd
  have hwell := wellKeyed_metadata hroot hms
  have hmetadata := metadata_eq hroot hms
  have hbare : d.bare.metadata = .mapping (bareFields ms) := by
    rw [bare, removeNote, metadata_modifyMetadata, hmetadata]
    rfl
  rw [hbare] at ha
  change Ordered.find? "annotations" (bareFields ms) = some a at ha
  rcases find?_annotations_bareFields hwell with ⟨hsame, hnone⟩ | ⟨es, hes, hrest⟩
  · rw [hsame] at ha
    obtain ⟨es, rfl, hne⟩ := h a (by rw [hmetadata]; exact ha)
    rw [annotationEntries, ha] at hnone
    exact ⟨es, rfl, hne, Ordered.find?_eq_none_iff.mp hnone⟩
  · rw [hrest] at ha
    split at ha
    · cases ha
    · next hne =>
        cases ha
        have hnodup := (Value.wellKeyed_mapping.mp (hwell.field? hes)).1
        exact ⟨_, rfl, hne, Ordered.find?_eq_none_iff.mp (Ordered.find?_remove_self hnodup)⟩

/-- Without its record, what was stamped is the document without one. -/
theorem bare_withLastApplied (hd : d.Formed) (h : d.Restampable) :
    d.withLastApplied.bare = d.bare := by
  have hback := removeNote_setNote (n := .annotations) (formed_bare hd)
    (fun _ ha => exists_annotations_bare hd h ha) d.bare.root.toJson
  calc d.withLastApplied.bare
    _ = (d.withLastApplied.removeNote .annotations lastAppliedKey).2 := rfl
    _ = d.bare := by rw [withLastApplied_eq, hback]

theorem exists_annotations_of_not_restampable (h : ¬ d.Restampable) :
    ∃ a, d.metadata.field? "annotations" = some a ∧ d.noteFields .annotations = [] := by
  unfold Restampable at h
  push Not at h
  obtain ⟨a, ha, hempty⟩ := h
  refine ⟨a, ha, ?_⟩
  change ((d.metadata.field? "annotations").bind Value.fields?).getD [] = []
  rw [ha]
  cases a with
  | mapping es => exact hempty es rfl
  | _ => rfl

/-- Where annotations had to be made or replaced, the text of the stamped document without its record
is shorter: it has no annotations at all. -/
theorem length_bare_withLastApplied_lt (hd : d.Formed) (h : ¬ d.Restampable) :
    d.withLastApplied.bare.root.jsonChars.length < d.bare.root.jsonChars.length := by
  obtain ⟨a, ha, hempty⟩ := exists_annotations_of_not_restampable h
  have hbare : d.bare = d := bare_eq_self hd (by rw [hempty]; exact List.not_mem_nil)
  obtain ⟨fs, ms, hroot, hms⟩ := hd
  have hmetadata := metadata_eq hroot hms
  rw [hmetadata] at ha
  rw [noteFields_eq hmetadata] at hempty
  rw [withLastApplied_eq, hbare]
  generalize d.root.toJson = text
  have hstamped : ((d.setNote .annotations lastAppliedKey text).bare).root =
      .mapping (Ordered.modify "metadata" (onFields (bareFields ∘
        withNote .annotations lastAppliedKey text)) fs) := by
    have hboth := d.modifyMetadata_modifyMetadata
      (withNote_keepsKeys .annotations lastAppliedKey text)
      (withoutNote_keepsKeys .annotations lastAppliedKey)
    exact (congrArg Document.root hboth).trans (root_modifyMetadata _ hroot)
  rw [hstamped, hroot]
  refine Value.length_jsonChars_modify_lt hms ?_
  have hremove := withoutNote_withNote_of_noteEntries_eq_nil hempty lastAppliedKey text
  change (Value.mapping (withoutNote _ _ (withNote _ _ _ ms))).jsonChars.length < _
  rw [hremove]
  exact Value.length_jsonChars_remove_lt ha

/-- Stamping again leaves the stamped document as it is, exactly if annotations did not have to be
made or replaced. -/
theorem withLastApplied_withLastApplied_iff (hd : d.Formed) :
    d.withLastApplied.withLastApplied = d.withLastApplied ↔ d.Restampable := by
  constructor
  · intro hsame
    by_contra h
    have hrecord := note?_withLastApplied (formed_withLastApplied hd)
    rw [hsame, note?_withLastApplied hd, Option.some_inj] at hrecord
    have hlt := length_bare_withLastApplied_lt hd h
    rw [← String.ofList_injective hrecord] at hlt
    exact lt_irrefl _ hlt
  · intro h
    rw [withLastApplied_eq, bare_withLastApplied hd h, ← withLastApplied_eq]

/-- Stamping records the document without an earlier record and changes nothing else. Done again it
changes nothing, exactly if there were no annotations, or a mapping with entries. -/
theorem stamped_withLastApplied {t : Tree} (h : ofTree t = .ok d) :
    d.Stamped d.withLastApplied ∧
      (d.withLastApplied.withLastApplied = d.withLastApplied ↔ d.Restampable) :=
  ⟨stamped (formed_of_ofTree h), withLastApplied_withLastApplied_iff (formed_of_ofTree h)⟩

/-- Annotations with a record of an earlier version. -/
def recordedNotes : Tree := .ofEntries [("team", .string "shop"), (lastAppliedKey, .string "old")]

/-- The earlier record gives way to one that can be read, and stays away. -/
theorem stamped_recordedConfig :
    ofTree (annotated recordedNotes) = .ok (annotatedConfig recordedNotes) ∧
      Stamped (annotatedConfig recordedNotes) (annotatedConfig recordedNotes).withLastApplied ∧
      (annotatedConfig recordedNotes).withLastApplied.lastApplied? =
        some (annotated teamNote).1 ∧
      (annotatedConfig recordedNotes).withLastApplied.withLastApplied =
        (annotatedConfig recordedNotes).withLastApplied := by
  have htree := ofTree_annotated recordedNotes
  obtain ⟨hstamped, hagain⟩ := stamped_withLastApplied htree
  have hbare : (annotatedConfig recordedNotes).bare.root = (annotated teamNote).1 := rfl
  have hread : Value.ofJson? (annotated teamNote).1.toJson = some (annotated teamNote).1 := by
    decide +kernel
  refine ⟨htree, hstamped, ?_, hagain.mpr ?_⟩
  · rw [hstamped.read (by rw [hbare, hread]), hbare]
  · rintro a ⟨⟩
    exact ⟨_, rfl, List.cons_ne_nil _ _⟩

/-- An empty mapping is filled by stamping, emptied by the next one and left out of its record. -/
theorem not_forall_stamped_again :
    ¬ ∀ (t : Tree) (d : Document), ofTree t = .ok d →
      Value.ofJson? d.bare.root.toJson = some d.bare.root →
      d.withLastApplied.withLastApplied = d.withLastApplied := by
  intro h
  have hread : Value.ofJson? (annotatedConfig (.ofEntries [])).bare.root.toJson =
      some (annotatedConfig (.ofEntries [])).bare.root := by
    decide +kernel
  have hagain := h _ _ (ofTree_annotated (.ofEntries [])) hread
  rw [withLastApplied_withLastApplied_iff (formed_of_ofTree (ofTree_annotated _))] at hagain
  obtain ⟨es, hes, hne⟩ := hagain _ rfl
  cases hes
  exact hne rfl

end Document

end Rollout
