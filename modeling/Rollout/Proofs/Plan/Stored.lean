import Rollout.Proofs.Cluster.Writing
import Rollout.Proofs.Plan.Reapplied
/-!
What a cluster holds of a document that was written to it, created or merged into a live object.
Planned again, the document changes nothing exactly if there was room for its record.
-/

namespace Rollout

namespace Document

variable {d l : Document}

/-- The object of a document that was written: the document with its record, or a live object of
the same identity with that merged into it. -/
inductive Stored (d : Document) : Document → Prop
  | created : Stored d d.withLastApplied
  | updated {live made : Document} : live.key = d.key →
      MemoryCluster.merged live d.withLastApplied = .ok made → Stored d made

theorem Stored.covers (h : d.Stored l) : l.root.Covers d.withLastApplied.root := by
  cases h with
  | created => exact Value.project_self _ d.withLastApplied.wellKeyed
  | updated _ hmerged =>
      rw [MemoryCluster.root_of_merged hmerged]
      exact Value.covers_merge _ d.withLastApplied.wellKeyed _

theorem metadata_field?_of_not_formed (h : ¬ d.Formed) (k : String) :
    d.metadata.field? k = none := by
  by_contra hsome
  obtain ⟨v, hv⟩ := Option.ne_none_iff_exists'.mp hsome
  obtain ⟨ms, hms, -⟩ := Option.bind_eq_some_iff.mp hv
  cases hm : d.root.field? "metadata" with
  | none =>
      rw [metadata, hm] at hms
      cases hms
  | some m =>
      rw [metadata, hm] at hms
      obtain ⟨fs, hfs, hfind⟩ := Option.bind_eq_some_iff.mp hm
      refine h ⟨fs, ms, Value.eq_mapping_of_fields? hfs, ?_⟩
      rw [hfind]
      exact congrArg some (Value.eq_mapping_of_fields? hms)

theorem name_of_not_formed (h : ¬ d.Formed) : d.name = "" := by
  rw [name, Value.fieldText?, metadata_field?_of_not_formed h]
  rfl

theorem root_modifyMetadata_of_not_formed (h : ¬ d.Formed) {f : Fields → Fields}
    (hf : KeepsKeys f) : (d.modifyMetadata f hf).root = d.root := by
  change onFields (Ordered.modify "metadata" (onFields f)) d.root = d.root
  cases hroot : d.root with
  | mapping fs =>
      refine congrArg Value.mapping (Ordered.modify_eq_self fun v hv => ?_)
      cases v with
      | mapping ms => exact absurd ⟨fs, ms, hroot, hv⟩ h
      | _ => rfl
  | _ => rfl

/-- Where there is no metadata, there is nothing to keep a record in. -/
theorem root_withLastApplied_of_not_formed (h : ¬ d.Formed) :
    d.withLastApplied.root = d.root := by
  have hbare : d.bare.root = d.root :=
    root_modifyMetadata_of_not_formed h (withoutNote_keepsKeys .annotations lastAppliedKey)
  have hnot : ¬ d.bare.Formed := by
    rw [Formed, hbare]
    exact h
  refine Eq.trans (root_modifyMetadata_of_not_formed hnot ?_) hbare
  exact withNote_keepsKeys .annotations lastAppliedKey d.bare.root.toJson

theorem not_formed_withLastApplied (h : ¬ d.Formed) : ¬ d.withLastApplied.Formed := by
  rw [Formed, root_withLastApplied_of_not_formed h]
  exact h

theorem stampable_of_not_formed (h : ¬ d.Formed) : d.Stampable := by
  intro a ha
  rw [metadata_field?_of_not_formed h] at ha
  cases ha

end Document

open Document

variable {d l : Document}

/-- Planned again after it was written, a document changes nothing, exactly if there was room for
the record. -/
theorem unchanged_stored_iff (h : d.Stored l) (context : Nat) :
    (planChange d (some l) context).action = .unchanged ↔ d.Stampable := by
  by_cases hformed : d.Formed
  · obtain ⟨fs, ms, hroot, hmetadata⟩ := hformed
    exact ⟨stampable_of_covers hroot hmetadata h.covers,
      fun hstampable => unchanged_of_covers hroot hmetadata h.covers hstampable context⟩
  · refine iff_of_true ?_ (stampable_of_not_formed hformed)
    cases h with
    | created =>
        have hroot := root_withLastApplied_of_not_formed hformed
        have hrecord : d.withLastApplied.lastApplied? = none := by
          rw [lastApplied?, note?, noteFields,
            metadata_field?_of_not_formed (not_formed_withLastApplied hformed)]
          rfl
        have hseen : seen d d.withLastApplied = d.root.canonical := by
          rw [seen, comparedFields, hrecord, hroot]
          exact congrArg Value.canonical (Value.project_self _ d.wellKeyed)
        rw [action_planChange, hseen, if_pos]
        exact Value.same_self _ (Value.wellKeyed_canonicalBy _ _ d.wellKeyed)
    | updated hkey hmerged =>
        -- The merged object would be without a name.
        have hmade := MemoryCluster.key_merged hmerged (hkey.trans d.key_withLastApplied.symm)
        refine absurd ?_ (name_ne_of_ofTree hmerged)
        rw [d.key_withLastApplied] at hmade
        exact (congrArg Key.name hmade).trans (name_of_not_formed hformed)

end Rollout
