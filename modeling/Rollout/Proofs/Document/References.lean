import Rollout.Proofs.Document.Placement
/-!
What documents refer to. References that are found in documents, and not written into an
annotation, lead from what is applied late to definitions of types, namespaces, accounts and roles,
and never back.
-/

namespace Rollout

/-- What role bindings refer to, and service accounts are what workloads refer to. -/
def accessKinds : List String := ["ServiceAccount", "Role", "ClusterRole"]

namespace Document

variable {d : Document} {k : Key}

theorem mem_references : k ∈ d.references ↔
    (∃ ns, d.ns? = some ns ∧ k = ⟨"Namespace", none, ns⟩) ∨
    (∃ c, d.markers.requires = some c ∧ k = ⟨"CustomResourceDefinition", none, c.name⟩) ∨
    (∃ a, d.serviceAccount? = some a ∧ k = ⟨"ServiceAccount", d.ns?, a⟩) ∨
    ((d.kind = "RoleBinding" ∨ d.kind = "ClusterRoleBinding") ∧ k ∈ d.bindingReferences) := by
  have hoption {α : Type} {o : Option α} {f : α → Key} :
      k ∈ (o.map f).toList ↔ ∃ a, o = some a ∧ k = f a := by
    rw [Option.mem_toList, Option.map_eq_some_iff]
    exact exists_congr fun a => and_congr_right fun _ => eq_comm
  have hbinding : k ∈ (if d.kind = "RoleBinding" ∨ d.kind = "ClusterRoleBinding" then
      d.bindingReferences else []) ↔
      (d.kind = "RoleBinding" ∨ d.kind = "ClusterRoleBinding") ∧ k ∈ d.bindingReferences := by
    split
    · next h => exact (and_iff_right h).symm
    · next h => exact ⟨nofun, fun hk => absurd hk.1 h⟩
  rw [references, List.mem_append, List.mem_append, List.mem_append, hoption, hoption, hoption,
    hbinding, or_assoc, or_assoc]

theorem kind_of_mem_bindingReferences (h : k ∈ d.bindingReferences) : k.kind ∈ accessKinds := by
  rcases List.mem_append.mp h with h | h
  · obtain ⟨subject, -, hk⟩ := List.mem_filterMap.mp h
    split at hk
    · obtain ⟨n, -, rfl⟩ := Option.map_eq_some_iff.mp hk
      exact List.mem_cons_self
    · cases hk
  · split at h
    · obtain rfl := List.mem_singleton.mp h
      exact (by decide : "Role" ∈ accessKinds)
    · obtain rfl := List.mem_singleton.mp h
      exact (by decide : "ClusterRole" ∈ accessKinds)
    · cases h

/-- Only workloads have a service account. -/
theorem kind_ne_of_serviceAccount? {a kind : String} (h : d.serviceAccount? = some a)
    (hkind : Kind.podSpecPath? kind = none) : d.kind ≠ kind := by
  rintro rfl
  rw [serviceAccount?, podSpec?, hkind] at h
  cases h

theorem mem_references_iff_of_namespace (hk : k.kind = "Namespace") :
    k ∈ d.references ↔ ∃ ns, d.ns? = some ns ∧ k = ⟨"Namespace", none, ns⟩ := by
  rw [mem_references]
  constructor
  · rintro (h | ⟨c, -, rfl⟩ | ⟨a, -, rfl⟩ | ⟨-, h⟩)
    · exact h
    · simp at hk
    · simp at hk
    · exact absurd (hk ▸ kind_of_mem_bindingReferences h) (by decide)
  · exact .inl

theorem mem_references_iff_of_definition (hk : k.kind = "CustomResourceDefinition") :
    k ∈ d.references ↔
      ∃ c, d.markers.requires = some c ∧ k = ⟨"CustomResourceDefinition", none, c.name⟩ := by
  rw [mem_references]
  constructor
  · rintro (⟨ns, -, rfl⟩ | h | ⟨a, -, rfl⟩ | ⟨-, h⟩)
    · simp at hk
    · exact h
    · simp at hk
    · exact absurd (hk ▸ kind_of_mem_bindingReferences h) (by decide)
  · exact fun h => .inr (.inl h)

/-- A document defines the type that another one is an instance of. -/
def Defines (c d : Document) : Prop := ∃ t, c.crd? = some t ∧ t.matches d.apiVersion d.kind

theorem of_crd? {d : Document} {t : CrdRef} (h : d.crd? = some t) :
    d.isCrd = true ∧ t.name = d.name := by
  unfold crd? at h
  split at h
  · cases h
  · next hcrd =>
      obtain ⟨spec, -, h⟩ := Option.bind_eq_some_iff.mp h
      obtain ⟨group, -, h⟩ := Option.bind_eq_some_iff.mp h
      obtain ⟨names, -, h⟩ := Option.bind_eq_some_iff.mp h
      obtain ⟨kind, -, h⟩ := Option.bind_eq_some_iff.mp h
      cases h
      exact ⟨by simpa using hcrd, rfl⟩

/-- The key of a definition that names no namespace. -/
theorem key_of_crd? {d : Document} {t : CrdRef} (h : d.crd? = some t) (hns : d.ns? = none) :
    d.key = ⟨"CustomResourceDefinition", none, t.name⟩ := by
  obtain ⟨hcrd, hname⟩ := of_crd? h
  rw [isCrd, Bool.and_eq_true, beq_iff_eq] at hcrd
  rw [key, hcrd.1, hns, hname]

/-- A document without the annotation refers to what is found in it. -/
theorem targets_of_unannotated {keys : List Key} (h : d.annotatedReferences = []) :
    d.targets keys = d.references.filter (· ∈ keys) := by
  rw [targets, h, List.filterMap_nil, List.append_nil]

end Document

/-- Definitions of types come first, then namespaces, then accounts and roles, then the rest. -/
def referenceRank (definitions : List Key) (k : Key) : Nat :=
  if k ∈ definitions then 0
  else if k.kind = "Namespace" ∧ k.ns = none then 1
  else if k.kind ∈ accessKinds then 2
  else 3

section Rank

variable {definitions : List Key} {k : Key}

theorem referenceRank_definition (h : k ∈ definitions) : referenceRank definitions k = 0 := if_pos h

theorem referenceRank_pos (h : k ∉ definitions) : 0 < referenceRank definitions k := by
  rw [referenceRank, if_neg h]
  split
  · decide
  · split <;> decide

theorem referenceRank_namespace (definitions : List Key) (ns : String) :
    referenceRank definitions ⟨"Namespace", none, ns⟩ ≤ 1 := by
  rw [referenceRank]
  split
  · decide
  · rw [if_pos ⟨rfl, rfl⟩]

theorem referenceRank_access (h : k.kind ∈ accessKinds) : referenceRank definitions k ≤ 2 := by
  rw [referenceRank, if_pos h]
  split
  · decide
  · split <;> decide

theorem lt_referenceRank_of_ns {ns : String} (h : k ∉ definitions) (hns : k.ns = some ns) :
    1 < referenceRank definitions k := by
  rw [referenceRank, if_neg h, hns, if_neg (nofun)]
  split <;> decide

theorem referenceRank_rest (h : k ∉ definitions) (hns : k.kind ≠ "Namespace")
    (haccess : k.kind ∉ accessKinds) : referenceRank definitions k = 3 := by
  rw [referenceRank, if_neg h, if_neg (fun hk => hns hk.1), if_neg haccess]

end Rank

/-- Documents whose references are all found: none has the annotation, definitions of types neither
live in a namespace nor need a type, and a type that is needed is defined by one of them. -/
structure Automatic (docs : List Document) : Prop where
  unannotated : ∀ d ∈ docs, d.annotatedReferences = []
  definitions : ∀ d ∈ docs, d.isCrd → d.ns? = none ∧ d.markers.requires = none
  required : ∀ d ∈ docs, ∀ c, d.markers.requires = some c →
    ∃ e ∈ docs, e.isCrd ∧ e.key = ⟨"CustomResourceDefinition", none, c.name⟩

namespace Automatic

variable {docs : List Document}

/-- The identities of the definitions of types. -/
def definitionKeys (docs : List Document) : List Key := (docs.filter Document.isCrd).map Document.key

theorem mem_definitionKeys {k : Key} :
    k ∈ definitionKeys docs ↔ ∃ d ∈ docs, d.isCrd ∧ d.key = k := by
  rw [definitionKeys, List.mem_map]
  refine exists_congr fun d => ?_
  rw [List.mem_filter, and_assoc]

theorem kind_of_mem_definitionKeys {k : Key} (h : k ∈ definitionKeys docs) :
    k.kind = "CustomResourceDefinition" := by
  obtain ⟨d, -, hcrd, rfl⟩ := mem_definitionKeys.mp h
  rw [Document.isCrd, Bool.and_eq_true, beq_iff_eq] at hcrd
  exact hcrd.1

/-- Every reference lowers the rank. -/
theorem rank_lt_of_needs (h : Automatic docs) (hnodup : (docs.map Document.key).Nodup)
    {d e : Document} (hd : d ∈ docs) (hneeds : d.Needs (docs.map Document.key) e) :
    referenceRank (definitionKeys docs) e.key < referenceRank (definitionKeys docs) d.key := by
  -- A workload or a role binding is none of what is referred to.
  have hrest (hkind : d.kind ∉ "CustomResourceDefinition" :: "Namespace" :: accessKinds) :
      referenceRank (definitionKeys docs) d.key = 3 := by
    rw [List.mem_cons, List.mem_cons, not_or, not_or] at hkind
    refine referenceRank_rest (fun hk => hkind.1 (kind_of_mem_definitionKeys hk)) ?_ ?_
    · exact hkind.2.1
    · exact hkind.2.2
  obtain ⟨htarget, -⟩ := hneeds
  rw [Document.targets_of_unannotated (h.unannotated d hd), List.mem_filter] at htarget
  rcases Document.mem_references.mp htarget.1 with
    ⟨ns, hns, hk⟩ | ⟨c, hc, hk⟩ | ⟨a, ha, hk⟩ | ⟨hbinding, hk⟩
  · rw [hk]
    refine Nat.lt_of_le_of_lt (referenceRank_namespace _ ns) (lt_referenceRank_of_ns ?_ hns)
    intro hdefinition
    obtain ⟨d', hd', hcrd, hkey⟩ := mem_definitionKeys.mp hdefinition
    have hns' : d'.ns? = d.ns? := congrArg Key.ns hkey
    rw [(h.definitions d' hd' hcrd).1, hns] at hns'
    cases hns'
  · obtain ⟨e', he', hcrd, hkey⟩ := h.required d hd c hc
    rw [hk, ← hkey, referenceRank_definition (mem_definitionKeys.mpr ⟨e', he', hcrd, rfl⟩)]
    refine referenceRank_pos fun hdefinition => ?_
    obtain ⟨d', hd', hcrd', hkey'⟩ := mem_definitionKeys.mp hdefinition
    obtain rfl := List.inj_on_of_nodup_map hnodup hd' hd hkey'
    rw [(h.definitions d' hd hcrd').2] at hc
    cases hc
  · rw [hrest, hk]
    · exact Nat.lt_of_le_of_lt (referenceRank_access List.mem_cons_self) (by decide)
    · intro hkind
      have hnone : ∀ kind ∈ "CustomResourceDefinition" :: "Namespace" :: accessKinds,
          Kind.podSpecPath? kind = none := by decide
      exact Document.kind_ne_of_serviceAccount? ha (hnone _ hkind) rfl
  · rw [hrest]
    · exact Nat.lt_of_le_of_lt
        (referenceRank_access (Document.kind_of_mem_bindingReferences hk)) (by decide)
    · rcases hbinding with hkind | hkind <;> rw [hkind] <;> decide

/-- Documents whose references are all found can be ordered. -/
theorem exists_ofDocuments (h : Automatic docs) (hnodup : (docs.map Document.key).Nodup) :
    ∃ r, Build.ofDocuments docs = .ok r :=
  (exists_ofDocuments_iff hnodup).mpr
    ⟨_, fun _ hd _ _ hneeds => h.rank_lt_of_needs hnodup hd hneeds⟩

end Automatic

end Rollout
