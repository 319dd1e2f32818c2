import Rollout.Proofs.Builder.Gathering
import Rollout.Proofs.Document.Identity
import Rollout.Proofs.Document.Order
/-!
Sets whose index agrees with the identities of their documents, from the first document of a
build to its result.
-/

namespace Rollout

namespace DocumentSet

/-- Every document is filed under its identity, and no identity is taken twice. -/
structure Indexed (s : DocumentSet) : Prop where
  nodup : s.keys.Nodup
  filed : ∀ e ∈ s.entries, e.1 = e.2.1.key

variable {s t : DocumentSet}

theorem indexed_empty : Indexed {} := ⟨List.nodup_nil, nofun⟩

theorem Indexed.map_key (h : s.Indexed) : s.documents.map Document.key = s.keys := by
  rw [documents, Ordered.values, List.map_map, List.map_map]
  exact List.map_congr_left fun e he => (h.filed e he).symm

theorem Indexed.exists_entry (h : s.Indexed) {d : Document} (hd : d ∈ s.documents) :
    ∃ source, (d.key, d, source) ∈ s.entries := by
  obtain ⟨⟨d, source⟩, hvalue, rfl⟩ := List.mem_map.mp hd
  obtain ⟨⟨k, d, source⟩, he, ⟨⟩⟩ := List.mem_map.mp hvalue
  obtain rfl : k = d.key := h.filed _ he
  exact ⟨source, he⟩

theorem Indexed.find?_key (h : s.Indexed) {e : Key × Document × String} (he : e ∈ s.entries) :
    s.find? e.2.1.key = some e.2.1 ∧ s.source? e.2.1.key = some e.2.2 := by
  have hfind : Ordered.find? e.2.1.key s.entries = some e.2 := by
    rw [← h.filed e he]
    exact Ordered.find?_eq_some_of_mem h.nodup he
  rw [find?, source?, hfind]
  exact ⟨rfl, rfl⟩

theorem Indexed.insert (h : s.Indexed) {d : Document} {source : String}
    (ht : s.insert d source = .ok t) : t.Indexed := by
  rw [DocumentSet.insert] at ht
  split at ht
  · cases ht
  · cases ht
    refine ⟨Ordered.keys_nodup_put h.nodup, fun e he => ?_⟩
    rcases Ordered.mem_put he with rfl | he
    · rfl
    · exact h.filed e he

theorem Indexed.insertAll (h : s.Indexed) (ds : List (Document × String)) :
    (insertAll ds s).2.Indexed := by
  induction ds generalizing s with
  | nil => exact h
  | cons e ds ih =>
      rw [DocumentSet.insertAll]
      split
      · next t ht => exact ih (h.insert ht)
      · exact h

theorem indexed_rekey (s : DocumentSet) : s.rekey.2.Indexed := indexed_empty.insertAll _

/-- Changes that leave every identity as it is leave the index in order. -/
theorem Indexed.map (h : s.Indexed) {f : Document → Document} (hf : ∀ d, (f d).key = d.key) :
    (s.map f).Indexed := by
  have hkeys : (s.map f).keys = s.keys := by
    rw [keys, keys, DocumentSet.map, Ordered.mapValues, Ordered.keys, Ordered.keys, List.map_map]
    rfl
  refine ⟨hkeys ▸ h.nodup, fun e he => ?_⟩
  obtain ⟨d, hd, rfl⟩ := List.mem_map.mp he
  exact (h.filed d hd).trans (hf d.2.1).symm

theorem key_markCrd (crds : List CrdRef) (d : Document) : (markCrd crds d).key = d.key := by
  rw [markCrd]
  split <;> rfl

theorem Indexed.addNamespaces (h : s.Indexed) (names : List String) :
    (addNamespaces names s).2.Indexed := by
  induction names generalizing s with
  | nil => exact h
  | cons name names ih =>
      rw [DocumentSet.addNamespaces]
      split
      · exact ih h
      · split
        · exact h
        · next t ht => exact ih (h.insert ht)

theorem Indexed.defaultNs (h : s.Indexed) (ns : String) : (s.defaultNs ns).2.Indexed := by
  rw [DocumentSet.defaultNs]
  split
  · exact h
  · exact indexed_rekey _

end DocumentSet

open DocumentSet

theorem Task.indexed_run {s : DocumentSet} (h : s.Indexed) (source : String) (task : Task) :
    (task.run source s).2.Indexed := by
  induction task generalizing s with
  | done | fail e => exact h
  | emit d next ih =>
      rw [Task.run]
      split
      · next t ht => exact ih (h.insert ht)
      · exact h
  | look next ih => exact ih s h

/-- A stage that leaves the index in order, as it must when it changes identities in place. -/
def Stage.KeepsIndex (stage : Stage) : Prop :=
  ∀ cluster s t, s.Indexed → stage.run cluster s = (.ok (), t) → t.Indexed

/-- The stages of a new builder keep the index. -/
theorem keepsIndex_of_mem_defaults {stage : Stage} (h : stage ∈ Stage.defaults) :
    stage.KeepsIndex := by
  intro cluster s t hs ht
  rcases List.mem_cons.mp h with rfl | h
  · cases ht
    exact hs.map (key_markCrd _)
  · rcases List.mem_cons.mp h with rfl | h
    · have hadded := hs.addNamespaces s.namedNamespaces
      have ht : (addNamespaces s.namedNamespaces s).2 = t := congrArg Prod.snd ht
      exact ht ▸ hadded
    · obtain rfl := List.mem_singleton.mp h
      cases ht
      exact hs.map Document.key_canonical

namespace Builder

variable {b : Builder} {s t : DocumentSet}

theorem indexed_gather (h : b.gather = .ok s) : s.Indexed := by
  rw [gather_eq, bind_eq_ok] at h
  obtain ⟨order, -, h⟩ := h
  obtain ⟨direct, hdirect, h⟩ := bind_eq_ok.mp h
  refine foldlM_induction (P := DocumentSet.Indexed) (fun c _ s t hs ht => ?_) ?_ h
  · obtain ⟨-, -, rfl⟩ := map_eq_ok.mp ht
    exact Task.indexed_run hs c.name _
  · obtain ⟨-, -, rfl⟩ := map_eq_ok.mp hdirect
    exact indexed_empty.insertAll _

theorem indexed_giveNamespace {ns : Option String} (hs : s.Indexed)
    (h : giveNamespace ns s = .ok t) : t.Indexed := by
  cases ns with
  | none =>
      cases h
      exact hs
  | some ns =>
      obtain ⟨-, -, rfl⟩ := map_eq_ok.mp h
      exact hs.defaultNs ns

/-- No two documents of a build have the same identity. -/
theorem nodup_keys_of_build (hstages : ∀ stage ∈ b.stages, stage.KeepsIndex) {ns : Option String}
    {build : Build} (h : b.build ns = .ok build) :
    (build.documents.map Document.key).Nodup := by
  rw [Builder.build, bind_eq_ok] at h
  obtain ⟨gathered, hgathered, h⟩ := h
  obtain ⟨given, hgiven, h⟩ := bind_eq_ok.mp h
  obtain ⟨staged, hstaged, h⟩ := bind_eq_ok.mp h
  -- Kept by every step of the build; ordering the documents only permutes them.
  have hindexed : staged.Indexed := by
    refine foldlM_induction (P := DocumentSet.Indexed) (fun stage hstage s t hs ht => ?_)
      (indexed_giveNamespace (indexed_gather hgathered) hgiven) hstaged
    obtain ⟨u, hdone, rfl⟩ := map_eq_ok.mp ht
    exact hstages stage hstage b.cluster s _ hs (Prod.ext hdone rfl)
  have hperm := (perm_of_ofDocuments h).map Document.key
  rw [hperm.nodup_iff, hindexed.map_key]
  exact hindexed.nodup

end Builder

end Rollout
