import Rollout.Document.Basic
import Rollout.Proofs.Except
import Rollout.Proofs.Path.Difference
import Rollout.Proofs.Value.Projection
/-!
Which trees are accepted as documents: mappings with texts for `apiVersion` and `kind`, and with
metadata that has a name.
-/

namespace Rollout.Document

/-- Metadata with a name. If there is a namespace in it, that is a string or null. -/
def Named (m : Value) : Prop :=
  ∃ ms name, m = .mapping ms ∧ Ordered.find? "name" ms = some (.string name) ∧ name ≠ "" ∧
    ∀ ns, Ordered.find? "namespace" ms = some ns → ns = .null ∨ ∃ s, ns = .string s

/-- A tree with the given `apiVersion` and `kind`, and with metadata that has a name. -/
structure Identified (apiVersion kind : String) (root : Value) : Prop where
  isMapping : root.isMapping
  apiVersion_eq : root.field? "apiVersion" = some (.string apiVersion)
  apiVersion_ne : apiVersion ≠ ""
  kind_eq : root.field? "kind" = some (.string kind)
  kind_ne : kind ≠ ""
  metadata_eq : ∃ m, root.field? "metadata" = some m ∧ Named m

theorem isNonEmptyText_iff {v : Value} : isNonEmptyText v ↔ ∃ s, v = .string s ∧ s ≠ "" := by
  cases v with
  | string s => simp [isNonEmptyText]
  | _ => simp [isNonEmptyText]

theorem checkTextField_eq_ok_iff {root : Value} {field : String} :
    checkTextField root field = .ok () ↔ ∃ s, root.field? field = some (.string s) ∧ s ≠ "" := by
  rw [checkTextField]
  cases root.field? field with
  | none => simp
  | some v =>
      dsimp only
      split
      · next htext =>
          obtain ⟨s, rfl, hs⟩ := isNonEmptyText_iff.mp htext
          exact iff_of_true rfl ⟨s, rfl, hs⟩
      · next htext =>
          refine iff_of_false nofun ?_
          rintro ⟨s, ⟨⟩, hs⟩
          exact htext (isNonEmptyText_iff.mpr ⟨s, rfl, hs⟩)

theorem checkMetadata_eq_ok_iff {m : Value} : checkMetadata m = .ok () ↔ Named m := by
  constructor
  · intro h
    unfold checkMetadata at h
    split at h
    · cases h
    · next hmapping =>
        split at h
        · cases h
        · next hname =>
            rw [Bool.not_eq_true', Bool.not_eq_false, Option.any_eq_true] at hname
            obtain ⟨v, hv, htext⟩ := hname
            obtain ⟨name, rfl, hne⟩ := isNonEmptyText_iff.mp htext
            cases m with
            | mapping ms =>
                refine ⟨ms, name, rfl, hv, hne, fun ns hns => ?_⟩
                have hfield : (Value.mapping ms).field? "namespace" = some ns := hns
                rw [hfield] at h
                cases ns with
                | null => exact .inl rfl
                | string s => exact .inr ⟨s, rfl⟩
                | _ => cases h
            | _ => cases hv
  · rintro ⟨ms, name, rfl, hname, hne, hns⟩
    have hfield : (Value.mapping ms).field? "name" = some (.string name) := hname
    have htext := isNonEmptyText_iff.mpr ⟨name, rfl, hne⟩
    rw [checkMetadata, hfield, Option.any_some, htext]
    cases hfind : (Value.mapping ms).field? "namespace" with
    | none => rfl
    | some ns =>
        rcases hns ns hfind with rfl | ⟨s, rfl⟩
        · rfl
        · rfl

theorem check_eq_ok_iff {root : Value} :
    check root = .ok () ↔ ∃ apiVersion kind, Identified apiVersion kind root := by
  constructor
  · intro h
    unfold check at h
    cases hm : root.field? "metadata" with
    | none =>
        rw [hm] at h
        dsimp only at h
        split at h
        · cases h
        · obtain ⟨-, -, h⟩ := bind_eq_ok.mp h
          obtain ⟨-, -, h⟩ := bind_eq_ok.mp h
          cases h
    | some m =>
        rw [hm] at h
        dsimp only at h
        split at h
        · cases h
        · next hmapping =>
            rw [Bool.not_eq_true', Bool.not_eq_false] at hmapping
            obtain ⟨⟨⟩, hversion, h⟩ := bind_eq_ok.mp h
            obtain ⟨⟨⟩, hkind, hmetadata⟩ := bind_eq_ok.mp h
            obtain ⟨apiVersion, hversion, hversion_ne⟩ := checkTextField_eq_ok_iff.mp hversion
            obtain ⟨kind, hkind, hkind_ne⟩ := checkTextField_eq_ok_iff.mp hkind
            exact ⟨apiVersion, kind, hmapping, hversion, hversion_ne, hkind, hkind_ne, m, hm,
              checkMetadata_eq_ok_iff.mp hmetadata⟩
  · rintro ⟨apiVersion, kind, h⟩
    obtain ⟨m, hm, hnamed⟩ := h.metadata_eq
    unfold check
    rw [h.isMapping, checkTextField_eq_ok_iff.mpr ⟨_, h.apiVersion_eq, h.apiVersion_ne⟩,
      checkTextField_eq_ok_iff.mpr ⟨_, h.kind_eq, h.kind_ne⟩, hm]
    exact checkMetadata_eq_ok_iff.mpr hnamed

variable {d : Document} {t : Tree}

/-- The document, of which nothing is found out yet. -/
def unmarked (d : Document) : Document := { d with markers := {} }

theorem ofTree_eq_ok_iff :
    ofTree t = .ok d ↔ (∃ apiVersion kind, Identified apiVersion kind t.1) ∧
      d = { root := t, wellKeyed := t.2 } := by
  rw [← check_eq_ok_iff]
  constructor
  · intro h
    obtain ⟨u, hcheck, hd⟩ := bind_eq_ok.mp h
    exact ⟨hcheck, (Except.ok.inj hd).symm⟩
  · rintro ⟨hcheck, rfl⟩
    exact bind_eq_ok.mpr ⟨(), hcheck, rfl⟩

/-- The metadata is a mapping, and so is the whole tree. -/
def Formed (d : Document) : Prop :=
  ∃ fs ms, d.root = .mapping fs ∧ Ordered.find? "metadata" fs = some (.mapping ms)

theorem formed_new (apiVersion kind name : String) : (new apiVersion kind name).Formed :=
  ⟨_, _, rfl, rfl⟩

theorem Identified.formed {apiVersion kind : String} (h : Identified apiVersion kind d.root) :
    d.Formed := by
  obtain ⟨m, hm, ms, -, rfl, -⟩ := h.metadata_eq
  obtain ⟨fs, hroot, hm⟩ := Option.bind_eq_some_iff.mp hm
  exact ⟨fs, ms, Value.eq_mapping_of_fields? hroot, hm⟩

/-- What is accepted as a document is a mapping, and so is its metadata. -/
theorem formed_of_ofTree (h : ofTree t = .ok d) : d.Formed := by
  obtain ⟨⟨apiVersion, kind, hroot⟩, rfl⟩ := ofTree_eq_ok_iff.mp h
  exact Identified.formed hroot

theorem name_ne_of_ofTree (h : ofTree t = .ok d) : d.name ≠ "" := by
  obtain ⟨⟨apiVersion, kind, hroot⟩, rfl⟩ := ofTree_eq_ok_iff.mp h
  obtain ⟨m, hm, ms, name, rfl, hname, hne, -⟩ := hroot.metadata_eq
  have hfield : (Value.mapping ms).field? "name" = some (.string name) := hname
  rw [Document.name, metadata, hm, Option.getD_some, Value.fieldText?, hfield]
  exact hne

section Metadata

variable {f : Fields → Fields} (hf : KeepsKeys f)

theorem root_modifyMetadata {fs : Fields} (hroot : d.root = .mapping fs) :
    (d.modifyMetadata f hf).root = .mapping (Ordered.modify "metadata" (onFields f) fs) := by
  change onFields _ d.root = _
  rw [hroot]
  rfl

theorem Formed.modifyMetadata (hd : d.Formed) : (d.modifyMetadata f hf).Formed := by
  obtain ⟨fs, ms, hroot, hms⟩ := hd
  refine ⟨_, f ms, root_modifyMetadata hf hroot, ?_⟩
  rw [Ordered.find?_modify, if_pos rfl, hms]
  rfl

/-- A change of the metadata changes nothing else of a document. -/
theorem Formed.differsAt_modifyMetadata (hd : d.Formed) :
    ∃ ms, Path.DiffersAt (.mapping ms) (.mapping (f ms)) [.key "metadata"] d.root
      (d.modifyMetadata f hf).root := by
  obtain ⟨fs, ms, hroot, hms⟩ := hd
  have hget : Path.get? [.key "metadata"] d.root = some (.mapping ms) := by
    rw [hroot, Path.get?_singleton]
    exact hms
  have hmodify : (d.modifyMetadata f hf).root =
      Path.modify (onFields f) [.key "metadata"] d.root := by
    rw [root_modifyMetadata hf hroot, hroot]
    rfl
  refine ⟨ms, ?_⟩
  rw [hmodify]
  exact Path.differsAt_modify (onFields f) hget

end Metadata

end Rollout.Document
