import Mathlib.Logic.Function.Basic
import Rollout.Proofs.Document.Acceptance
import Rollout.Proofs.Document.Identity
import Rollout.Proofs.Path.Difference
/-!
Labels and annotations as two finite maps of a document: setting and removing an entry changes the
one map at one key, and nothing else of the document.
-/

namespace Rollout

namespace Document

variable {d e : Document} {n m : Note} {k v : String} {ms : Fields}

theorem ext_root (h : e.root = d.root) (hmarkers : e.markers = d.markers) : e = d := by
  obtain ⟨root, markers, hroot⟩ := d
  obtain ⟨root', markers', hroot'⟩ := e
  cases h
  cases hmarkers
  rfl

/-- The notes as a map from keys to texts. -/
def noteMap (d : Document) (n : Note) : String → Option String :=
  fun k => Ordered.find? k (d.notes n)

/-- Documents that are the same but for one field of the metadata. The other fields of the
metadata keep their order. -/
structure DiffersInNotes (n : Note) (d e : Document) : Prop where
  markers : e.markers = d.markers
  root : ∃ ms ms', ms'.filter (·.1 ≠ n.field) = ms.filter (·.1 ≠ n.field) ∧
    Path.DiffersAt (.mapping ms) (.mapping ms') [.key "metadata"] d.root e.root

/-- A change of one of the two maps, and of nothing else. -/
structure ChangesNotes (n : Note) (d e : Document) (map : String → Option String) : Prop where
  noteMap_eq : e.noteMap n = map
  others : ∀ m ≠ n, e.notes m = d.notes m
  key_eq : e.key = d.key
  differs : DiffersInNotes n d e

/-- The entries under a field of the metadata; none where that is no mapping. -/
def noteEntries (n : Note) (ms : Fields) : Fields :=
  ((Ordered.find? n.field ms).bind Value.fields?).getD []

theorem noteFields_eq (h : d.metadata = .mapping ms) : d.noteFields n = noteEntries n ms := by
  rw [noteFields, h]
  rfl

theorem nodup_noteFields (d : Document) (n : Note) : (Ordered.keys (d.noteFields n)).Nodup := by
  rw [noteFields]
  cases hfs : (d.metadata.field? n.field).bind Value.fields? with
  | none => exact List.nodup_nil
  | some fs =>
      obtain ⟨v, hv, hfs⟩ := Option.bind_eq_some_iff.mp hfs
      have hmetadata : d.metadata.WellKeyed := by
        rw [metadata]
        exact Path.wellKeyed_getD_null fun m hm => d.wellKeyed.field? hm
      exact (Value.wellKeyed_mapping.mp ((hmetadata.field? hv).fields? hfs)).1

theorem perm_notes (d : Document) (n : Note) :
    (d.notes n).Perm ((d.noteFields n).filterMap fun e => (e.2.text?).map (e.1, ·)) :=
  List.mergeSort_perm ..

/-- Reading one note is looking it up among all. -/
theorem note?_eq_noteMap (d : Document) (n : Note) (k : String) : d.note? n k = d.noteMap n k := by
  have hnodup := (Ordered.keys_filterMap_sublist Value.text? (d.noteFields n)).nodup
    (d.nodup_noteFields n)
  have hperm := (d.perm_notes n).symm
  rw [noteMap, ← Ordered.find?_eq_of_perm hnodup hperm k,
    Ordered.find?_filterMap _ (d.nodup_noteFields n)]
  rfl

/-- The notes stand in the order of their keys, each key once. -/
theorem pairwise_notes (d : Document) (n : Note) : (d.notes n).Pairwise (·.1 < ·.1) := by
  have hnodup : (Ordered.keys (d.notes n)).Nodup := by
    refine ((d.perm_notes n).map Prod.fst).nodup_iff.mpr ?_
    exact (Ordered.keys_filterMap_sublist Value.text? _).nodup (d.nodup_noteFields n)
  have hle : (d.notes n).Pairwise fun a b => a.1 ≤ b.1 := Text.pairwise_mergeSort Prod.fst _
  refine hle.imp₂ (fun a b hab hne => ?_) (List.pairwise_map.mp hnodup)
  exact lt_of_le_of_ne hab hne

theorem Note.field_ne_field (h : m ≠ n) : n.field ≠ m.field := by
  cases n <;> cases m <;> first | exact absurd rfl h | decide

section Fields

theorem filter_withNote (n : Note) (k v : String) (ms : Fields) :
    (withNote n k v ms).filter (·.1 ≠ n.field) = ms.filter (·.1 ≠ n.field) :=
  Ordered.filter_put ..

theorem filter_withoutNote (n : Note) (k : String) (ms : Fields) :
    (withoutNote n k ms).filter (·.1 ≠ n.field) = ms.filter (·.1 ≠ n.field) := by
  unfold withoutNote
  split
  · split
    · split
      · exact Ordered.filter_remove ..
      · exact Ordered.filter_put ..
    · rfl
  · rfl

theorem noteEntries_withNote (n : Note) (k v : String) (ms : Fields) :
    noteEntries n (withNote n k v ms) = Ordered.put k (.string v) (noteEntries n ms) := by
  rw [noteEntries, withNote, Ordered.find?_put, if_pos rfl]
  rfl

/-- Also where the mapping is left out with its last entry, its entries are those but the one. -/
theorem noteEntries_withoutNote (n : Note) (k : String) (hms : (Ordered.keys ms).Nodup) :
    noteEntries n (withoutNote n k ms) = Ordered.remove k (noteEntries n ms) := by
  unfold withoutNote noteEntries
  split
  · next es hes =>
      rw [hes]
      change _ = Ordered.remove k es
      split
      · split
        · next hempty =>
            rw [Ordered.find?_remove_self hms, hempty]
            rfl
        · rw [Ordered.find?_put, if_pos rfl]
          rfl
      · next hkey =>
          rw [Ordered.has, Option.not_isSome_iff_eq_none] at hkey
          rw [hes, Ordered.remove_eq_self hkey]
          rfl
  · next hnone =>
      cases ha : Ordered.find? n.field ms with
      | none => rfl
      | some a =>
          cases a with
          | mapping es => exact absurd ha (hnone es)
          | _ => rfl

theorem withoutNote_eq_self (h : k ∉ Ordered.keys (noteEntries n ms)) : withoutNote n k ms = ms := by
  unfold withoutNote
  split
  · next es hes =>
      rw [noteEntries, hes] at h
      change k ∉ Ordered.keys es at h
      rw [if_neg (mt Ordered.has_iff.mp h)]
  · rfl

/-- Where there were no entries, the field that was made for one goes with it. -/
theorem withoutNote_withNote_of_noteEntries_eq_nil (h : noteEntries n ms = []) (k v : String) :
    withoutNote n k (withNote n k v ms) = Ordered.remove n.field ms := by
  have hwith : withNote n k v ms = Ordered.put n.field (.mapping [(k, .string v)]) ms := by
    change Ordered.put n.field (.mapping (Ordered.put k (.string v) (noteEntries n ms))) ms = _
    rw [h]
    rfl
  rw [hwith, withoutNote, Ordered.find?_put, if_pos rfl]
  simp only [Ordered.has, Ordered.find?, Ordered.remove, if_true, Option.isSome_some]
  exact Ordered.remove_put ..

/-- What was set is removed again without a trace, where there was no such field, or a mapping with
other entries. -/
theorem withoutNote_withNote
    (h : ∀ a, Ordered.find? n.field ms = some a →
      ∃ es, a = .mapping es ∧ es ≠ [] ∧ k ∉ Ordered.keys es) (v : String) :
    withoutNote n k (withNote n k v ms) = ms := by
  cases ha : Ordered.find? n.field ms with
  | none =>
      have hentries : noteEntries n ms = [] := by rw [noteEntries, ha]; rfl
      rw [withoutNote_withNote_of_noteEntries_eq_nil hentries, Ordered.remove_eq_self ha]
  | some a =>
      obtain ⟨es, rfl, hne, hk⟩ := h a ha
      have hwith : withNote n k v ms =
          Ordered.put n.field (.mapping (Ordered.put k (.string v) es)) ms := by
        rw [withNote, ha]
        rfl
      have hhas : Ordered.has k (Ordered.put k (.string v) es) = true := by
        rw [Ordered.has, Ordered.find?_put, if_pos rfl, Option.isSome_some]
      have hremove := Ordered.remove_put_of_find? (Ordered.find?_eq_none_iff.mpr hk) (.string v)
      rw [hwith, withoutNote, Ordered.find?_put, if_pos rfl]
      dsimp only
      rw [if_pos hhas, hremove]
      cases es with
      | nil => exact absurd rfl hne
      | cons e es => exact Ordered.put_put_of_find? ha _

end Fields

section Metadata

variable {f : Fields → Fields} (hf : KeepsKeys f)

include hf

theorem notes_modifyMetadata
    (h : ∀ ms, Ordered.find? m.field (f ms) = Ordered.find? m.field ms) :
    (d.modifyMetadata f hf).notes m = d.notes m := by
  rw [notes, notes, noteFields, noteFields, metadata_modifyMetadata, field?_onFields h]

theorem noteFields_modifyMetadata (h : d.metadata = .mapping ms) :
    (d.modifyMetadata f hf).noteFields n = noteEntries n (f ms) := by
  refine noteFields_eq ?_
  rw [metadata_modifyMetadata, h]
  rfl

theorem differsInNotes_modifyMetadata (hd : d.Formed)
    (h : ∀ ms : Fields, (f ms).filter (·.1 ≠ n.field) = ms.filter (·.1 ≠ n.field)) :
    DiffersInNotes n d (d.modifyMetadata f hf) := by
  obtain ⟨ms, hdiffers⟩ := hd.differsAt_modifyMetadata hf
  exact ⟨rfl, ms, f ms, h ms, hdiffers⟩

end Metadata

section Rooted

variable {fs : Fields} (hroot : d.root = .mapping fs)
  (hmetadata : Ordered.find? "metadata" fs = some (.mapping ms))

include hroot hmetadata

theorem metadata_eq : d.metadata = .mapping ms := by
  rw [metadata, hroot]
  exact congrArg (·.getD .null) hmetadata

theorem wellKeyed_metadata : (Value.mapping ms).WellKeyed := by
  have hwell := d.wellKeyed
  rw [hroot] at hwell
  exact hwell.field? hmetadata

end Rooted

theorem Formed.exists_metadata (hd : d.Formed) :
    ∃ ms, d.metadata = .mapping ms ∧ (Ordered.keys ms).Nodup := by
  obtain ⟨fs, ms, hroot, hms⟩ := hd
  have hwell := wellKeyed_metadata hroot hms
  exact ⟨ms, metadata_eq hroot hms, (Value.wellKeyed_mapping.mp hwell).1⟩

theorem noteMap_apply (d : Document) (n : Note) (k : String) :
    d.noteMap n k = (Ordered.find? k (d.noteFields n)).bind Value.text? :=
  (d.note?_eq_noteMap n k).symm

theorem noteFields_setNote (hd : d.Formed) (n : Note) (k v : String) :
    (d.setNote n k v).noteFields n = Ordered.put k (.string v) (d.noteFields n) := by
  obtain ⟨ms, hms, -⟩ := hd.exists_metadata
  rw [setNote, noteFields_modifyMetadata _ hms, noteEntries_withNote, noteFields_eq hms]

theorem noteFields_removeNote (hd : d.Formed) (n : Note) (k : String) :
    (d.removeNote n k).2.noteFields n = Ordered.remove k (d.noteFields n) := by
  obtain ⟨ms, hms, hkeys⟩ := hd.exists_metadata
  rw [removeNote, noteFields_modifyMetadata _ hms, noteEntries_withoutNote n k hkeys,
    noteFields_eq hms]

theorem noteMap_setNote (hd : d.Formed) (n : Note) (k v : String) :
    (d.setNote n k v).noteMap n = Function.update (d.noteMap n) k (some v) := by
  funext j
  rw [noteMap_apply, noteFields_setNote hd, Ordered.find?_put, Function.update_apply, noteMap_apply]
  by_cases hj : k = j
  · rw [if_pos hj, if_pos hj.symm]
    rfl
  · rw [if_neg hj, if_neg (Ne.symm hj)]

theorem noteMap_removeNote (hd : d.Formed) (n : Note) (k : String) :
    (d.removeNote n k).2.noteMap n = Function.update (d.noteMap n) k none := by
  funext j
  rw [noteMap_apply, noteFields_removeNote hd, Function.update_apply, noteMap_apply]
  by_cases hj : k = j
  · rw [← hj, Ordered.find?_remove_self (d.nodup_noteFields n), if_pos rfl]
    rfl
  · rw [Ordered.find?_remove_of_ne hj, if_neg (Ne.symm hj)]

theorem changesNotes_setNote (hd : d.Formed) (n : Note) (k v : String) :
    ChangesNotes n d (d.setNote n k v) (Function.update (d.noteMap n) k (some v)) where
  noteMap_eq := noteMap_setNote hd n k v
  others _ hm := notes_modifyMetadata _ (find?_withNote (Note.field_ne_field hm) k v)
  key_eq := d.key_setNote n k v
  differs := differsInNotes_modifyMetadata _ hd (filter_withNote n k v)

theorem changesNotes_removeNote (hd : d.Formed) (n : Note) (k : String) :
    ChangesNotes n d (d.removeNote n k).2 (Function.update (d.noteMap n) k none) where
  noteMap_eq := noteMap_removeNote hd n k
  others _ hm := notes_modifyMetadata (withoutNote_keepsKeys n k)
    (find?_withoutNote (Note.field_ne_field hm) k)
  key_eq := d.key_removeNote n k
  differs := differsInNotes_modifyMetadata (withoutNote_keepsKeys n k) hd (filter_withoutNote n k)

/-- Two changes of the metadata, one after the other, are one change. -/
theorem modifyMetadata_modifyMetadata (d : Document) {f g : Fields → Fields} (hf : KeepsKeys f)
    (hg : KeepsKeys g) : (d.modifyMetadata f hf).modifyMetadata g hg =
      d.modifyMetadata (g ∘ f) fun ms hms => hg _ (hf ms hms) := by
  have hroot : ((d.modifyMetadata f hf).modifyMetadata g hg).root =
      (d.modifyMetadata (g ∘ f) fun ms hms => hg _ (hf ms hms)).root := by
    change onFields _ (onFields _ d.root) = onFields _ d.root
    cases d.root with
    | mapping fs =>
        refine congrArg Value.mapping ((Ordered.modify_modify ..).trans ?_)
        congr 1
        funext v
        cases v <;> rfl
    | _ => rfl
  exact ext_root hroot rfl

theorem modifyMetadata_eq_self (hd : d.Formed) {f : Fields → Fields} (hf : KeepsKeys f)
    (h : ∀ ms, d.metadata = .mapping ms → f ms = ms) : d.modifyMetadata f hf = d := by
  obtain ⟨fs, ms, hroot, hms⟩ := hd
  have hmetadata := metadata_eq hroot hms
  refine ext_root ?_ rfl
  rw [root_modifyMetadata hf hroot, hroot]
  refine congrArg Value.mapping (Ordered.modify_eq_self fun v hv => ?_)
  cases hv.symm.trans hms
  exact congrArg Value.mapping (h ms hmetadata)

/-- What was set is removed again without a trace. -/
theorem removeNote_setNote (hd : d.Formed)
    (h : ∀ a, d.metadata.field? n.field = some a →
      ∃ es, a = .mapping es ∧ es ≠ [] ∧ k ∉ Ordered.keys es) (v : String) :
    (d.setNote n k v).removeNote n k = (some v, d) := by
  refine Prod.ext ?_ ?_
  · have hfind : Ordered.find? k ((d.setNote n k v).noteFields n) = some (.string v) := by
      rw [noteFields_setNote hd, Ordered.find?_put, if_pos rfl]
    rw [removeNote, hfind]
    rfl
  · have hboth := d.modifyMetadata_modifyMetadata (withNote_keepsKeys n k v)
      (withoutNote_keepsKeys n k)
    refine hboth.trans (modifyMetadata_eq_self hd _ fun ms hms => ?_)
    refine withoutNote_withNote (fun a ha => h a ?_) v
    rw [hms]
    exact ha

/-- Labels and annotations are two maps that do not know of each other. Setting an entry and
removing one change one of them at one key, and nothing else of the document. -/
theorem changesNotes_of_formed (hd : d.Formed) (n : Note) (k v : String) :
    ChangesNotes n d (d.setNote n k v) (Function.update (d.noteMap n) k (some v)) ∧
      ChangesNotes n d (d.removeNote n k).2 (Function.update (d.noteMap n) k none) ∧
      d.note? n k = d.noteMap n k ∧ (d.notes n).Pairwise (·.1 < ·.1) ∧
      ((∀ a, d.metadata.field? n.field = some a →
          ∃ es, a = .mapping es ∧ es ≠ [] ∧ k ∉ Ordered.keys es) →
        (d.setNote n k v).removeNote n k = (some v, d)) :=
  ⟨changesNotes_setNote hd n k v, changesNotes_removeNote hd n k, d.note?_eq_noteMap n k,
    d.pairwise_notes n, fun h => removeNote_setNote hd h v⟩

/-- A pod with a label that is no text, and with annotations that are none. -/
def labelledPod : Document where
  root := .mapping [("apiVersion", .string "v1"), ("kind", .string "Pod"),
    ("metadata", .mapping [("labels", .mapping [("tier", .whole 1), ("app", .string "shop")]),
      ("annotations", .null), ("name", .string "web")])]
  wellKeyed := by simp [Ordered.keys, Value.whole]

/-- The label that is no text is hidden and stays; annotations are made for the new one. -/
theorem changesNotes_labelledPod :
    labelledPod.Formed ∧
      ChangesNotes .labels labelledPod (labelledPod.setNote .labels "team" "web")
        (Function.update (labelledPod.noteMap .labels) "team" (some "web")) ∧
      labelledPod.noteMap .labels "tier" = none ∧
      (labelledPod.setNote .labels "team" "web").removeNote .labels "team" =
        (some "web", labelledPod) ∧
      ChangesNotes .annotations labelledPod (labelledPod.setNote .annotations "team" "web")
        (Function.update (labelledPod.noteMap .annotations) "team" (some "web")) := by
  have hd : labelledPod.Formed := ⟨_, _, rfl, rfl⟩
  obtain ⟨hset, -, -, -, hback⟩ := changesNotes_of_formed hd .labels "team" "web"
  obtain ⟨-, -, htier, -, -⟩ := changesNotes_of_formed hd .labels "tier" "front"
  obtain ⟨hnote, -, -, -, -⟩ := changesNotes_of_formed hd .annotations "team" "web"
  refine ⟨hd, hset, htier.symm.trans rfl, hback ?_, hnote⟩
  rintro a ⟨⟩
  exact ⟨_, rfl, by decide, by decide⟩

end Document

end Rollout
