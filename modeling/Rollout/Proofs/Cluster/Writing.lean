import Rollout.Proofs.Cluster.Memory
import Rollout.Proofs.Document.Identity
import Rollout.Proofs.Except
import Rollout.Proofs.Value.Merging
/-!
What mutations that succeed make of the objects of a cluster, one after the other. Objects stay
filed under their identity.
-/

namespace Rollout

namespace MemoryCluster

/-- Every object is filed under its identity, and no identity is taken twice. -/
structure Filed (objects : Ordered Key Document) : Prop where
  nodup : (Ordered.keys objects).Nodup
  filed : ∀ e ∈ objects, e.2.key = e.1

/-- What a mutation that succeeds finds in its place, and what it leaves there. -/
inductive Lands : Mutation → Option Document → Option Document → Prop
  | create {d : Document} : Lands (.create d) none (some d)
  | update {d live made : Document} : merged live d = .ok made →
      Lands (.update d) (some live) (some made)
  | delete {r : ObjectRef} {live? : Option Document} : Lands (.delete r) live? none

variable {objects objects' : Ordered Key Document} {m : Mutation} {ms : List Mutation} {k : Key}

theorem root_of_merged {live d made : Document} (h : merged live d = .ok made) :
    made.root = live.root.merge d.root := by
  rw [merged, Document.ofTree] at h
  obtain ⟨⟨⟩, -, h⟩ := bind_eq_ok.mp h
  cases h
  rfl

/-- A text of the metadata after merging is that of the document or that of the object. -/
theorem fieldText?_metadata_merged {live d made : Document} (h : merged live d = .ok made)
    (k : String) : made.metadata.fieldText? k = d.metadata.fieldText? k ∨
      made.metadata.fieldText? k = live.metadata.fieldText? k := by
  rw [Document.metadata, Document.metadata, Document.metadata, root_of_merged h]
  rcases Value.field?_merge_cases live.root d.wellKeyed "metadata" with
    heq | ⟨-, heq⟩ | ⟨x, q, hx, hq, heq⟩
  · exact .inl (by rw [heq])
  · exact .inr (by rw [heq])
  · rw [heq, hx, hq, Option.getD_some, Option.getD_some, Option.getD_some]
    exact (Value.fieldText?_merge_cases x (d.wellKeyed.field? hq) k).imp_right And.right

/-- An object keeps its identity when a document of the same identity is merged into it. -/
theorem key_merged {live d made : Document} (h : merged live d = .ok made)
    (hkey : live.key = d.key) : made.key = d.key := by
  have hkind : made.kind = d.kind := by
    rw [Document.kind, Document.kind, root_of_merged h]
    rcases Value.fieldText?_merge_cases live.root d.wellKeyed "kind" with heq | ⟨-, heq⟩
    · rw [heq]
    · rw [heq]
      exact congrArg Key.kind hkey
  have hname : made.name = d.name := by
    rcases fieldText?_metadata_merged h "name" with heq | heq
    · rw [Document.name, heq, Document.name]
    · rw [Document.name, heq]
      exact congrArg Key.name hkey
  have hns : made.ns? = d.ns? := by
    rcases fieldText?_metadata_merged h "namespace" with heq | heq
    · rw [Document.ns?, heq, Document.ns?]
    · rw [Document.ns?, heq]
      exact congrArg Key.ns hkey
  rw [Document.key, hkind, hname, hns, Document.key]

theorem change_eq_ok (hkeys : (Ordered.keys objects).Nodup) (h : change objects m = .ok objects') :
    Lands m (Ordered.find? m.key objects) (Ordered.find? m.key objects') ∧
      ∀ k ≠ m.key, Ordered.find? k objects' = Ordered.find? k objects := by
  cases m with
  | create d =>
      rw [change] at h
      split at h
      · cases h
      · next hhas =>
          cases h
          rw [Bool.not_eq_true, Ordered.has, Option.isSome_eq_false_iff,
            Option.isNone_iff_eq_none] at hhas
          refine ⟨?_, fun k hk => ?_⟩
          · rw [Mutation.key, hhas, Ordered.find?_put, if_pos rfl]
            exact .create
          · exact (Ordered.find?_put ..).trans (if_neg (Ne.symm hk))
  | update d =>
      rw [change] at h
      split at h
      · cases h
      · next live hlive =>
          split at h
          · next made hmade =>
              cases h
              refine ⟨?_, fun k hk => ?_⟩
              · rw [Mutation.key, hlive, Ordered.find?_put, if_pos rfl]
                exact .update hmade
              · exact (Ordered.find?_put ..).trans (if_neg (Ne.symm hk))
          · cases h
  | delete r =>
      cases h
      refine ⟨?_, fun k hk => Ordered.find?_remove_of_ne (Ne.symm hk) objects⟩
      rw [Mutation.key, Ordered.find?_remove_self hkeys]
      exact .delete

theorem Filed.change (hfiled : Filed objects) (h : change objects m = .ok objects') :
    Filed objects' := by
  cases m with
  | create d =>
      rw [MemoryCluster.change] at h
      split at h
      · cases h
      · cases h
        refine ⟨Ordered.keys_nodup_put hfiled.nodup, fun e he => ?_⟩
        rcases Ordered.mem_put he with rfl | he
        · rfl
        · exact hfiled.filed e he
  | update d =>
      rw [MemoryCluster.change] at h
      split at h
      · cases h
      · next live hlive =>
          split at h
          · next made hmade =>
              cases h
              refine ⟨Ordered.keys_nodup_put hfiled.nodup, fun e he => ?_⟩
              rcases Ordered.mem_put he with rfl | he
              · exact key_merged hmade (hfiled.filed _ (Ordered.mem_of_find?_eq_some hlive))
              · exact hfiled.filed e he
          · cases h
  | delete r =>
      cases h
      have hsub := Ordered.remove_sublist r.key objects
      exact ⟨Ordered.keys_nodup_of_sublist hsub hfiled.nodup,
        fun e he => hfiled.filed e (hsub.mem he)⟩

theorem Filed.foldlM_change (hfiled : Filed objects)
    (h : ms.foldlM MemoryCluster.change objects = .ok objects') : Filed objects' :=
  foldlM_induction (P := Filed) (fun _ _ _ _ hs ht => hs.change ht) hfiled h

theorem filed_ofDocuments (ds : List Document) : Filed (ofDocuments ds).objects where
  nodup := Ordered.keys_nodup_ofList _
  filed e he := by
    obtain ⟨d, -, rfl⟩ := List.mem_map.mp (Ordered.mem_ofList he)
    rfl

/-- Objects are listed once. -/
theorem Filed.nodup_list {c : MemoryCluster} (hfiled : Filed c.objects) (selector : String) :
    ((c.list selector).1.map Document.key).Nodup := by
  have hsorted : (c.sorted.map (·.2)).map Document.key = c.sorted.map (·.1) := by
    rw [List.map_map]
    exact List.map_congr_left fun e he => hfiled.filed e ((List.mergeSort_perm _ _).mem_iff.mp he)
  have hnodup : ((c.sorted.map (·.2)).map Document.key).Nodup := by
    rw [hsorted]
    exact ((List.mergeSort_perm _ _).map _).nodup_iff.mpr hfiled.nodup
  exact hnodup.sublist (List.filter_sublist.map _)

/-- Mutations leave alone what none of them is about. -/
theorem find?_of_foldlM_change (hkeys : Filed objects)
    (h : ms.foldlM change objects = .ok objects') (hk : ∀ m ∈ ms, m.key ≠ k) :
    Ordered.find? k objects' = Ordered.find? k objects := by
  induction ms generalizing objects with
  | nil =>
      cases h
      rfl
  | cons m ms ih =>
      rw [List.foldlM_cons, bind_eq_ok] at h
      obtain ⟨middle, hm, h⟩ := h
      rw [List.forall_mem_cons] at hk
      rw [ih (hkeys.change hm) h hk.2]
      exact (change_eq_ok hkeys.nodup hm).2 k hk.1.symm

/-- A mutation of an object that no other is about lands on what was there at first. -/
theorem lands_of_foldlM_change (hfiled : Filed objects)
    (h : ms.foldlM change objects = .ok objects') (hnodup : (ms.map Mutation.key).Nodup)
    (hm : m ∈ ms) : Lands m (Ordered.find? m.key objects) (Ordered.find? m.key objects') := by
  induction ms generalizing objects with
  | nil => cases hm
  | cons n ms ih =>
      rw [List.foldlM_cons, bind_eq_ok] at h
      obtain ⟨middle, hn, h⟩ := h
      obtain ⟨hout, hnodup⟩ := List.nodup_cons.mp hnodup
      obtain ⟨hlands, hothers⟩ := change_eq_ok hfiled.nodup hn
      rcases List.mem_cons.mp hm with rfl | hm
      · rw [find?_of_foldlM_change (hfiled.change hn) h fun n hn hk => ?_]
        · exact hlands
        · exact hout (hk ▸ List.mem_map_of_mem hn)
      · rw [← hothers m.key fun hk => hout (hk ▸ List.mem_map_of_mem hm)]
        exact ih (hfiled.change hn) h hnodup hm

end MemoryCluster

end Rollout
