import Rollout.Proofs.Builder.Components
import Rollout.Proofs.DocumentSet.Regathered
import Rollout.Proofs.Value.Equivalence
/-!
What a build gives does not depend on the order in which components and documents were
registered, nor on how the trees of the documents were written.
-/

namespace Rollout

theorem forall_mem_iff_of_forall₂ {α β : Type} {r : α → β → Prop} {p : α → Prop} {q : β → Prop}
    {l : List α} {l' : List β} (h : List.Forall₂ r l l') (hpq : ∀ a b, r a b → (p a ↔ q b)) :
    (∀ a ∈ l, p a) ↔ ∀ b ∈ l', q b := by
  induction h with
  | nil => exact ⟨nofun, nofun⟩
  | cons hab _ ih => rw [List.forall_mem_cons, List.forall_mem_cons, hpq _ _ hab, ih]

/-- Two tasks that read nothing and emit the same documents, in any order. -/
structure Task.Alike (t u : Task) : Prop where
  left : t.Blind
  right : u.Blind
  succeeds : t.Succeeds ↔ u.Succeeds
  emitted : Regathered t.emitted u.emitted

/-- Two components of one name with the same dependencies, whose tasks are alike whatever a
build tells them. -/
structure Component.Alike (c d : Component) : Prop where
  name : c.name = d.name
  dependencies : ∀ n, n ∈ c.dependencies ↔ n ∈ d.dependencies
  task : ∃ t u : Task, t.Alike u ∧ (∀ scope, c.task scope = t) ∧ ∀ scope, d.task scope = u

theorem Component.Blind.alike {c : Component} (h : c.Blind) : c.Alike c := by
  obtain ⟨t, ht, hc⟩ := h
  exact ⟨rfl, fun _ => .rfl, t, t, ⟨ht, ht, .rfl, .of_perm (.refl _)⟩, hc, hc⟩

theorem Component.Alike.task_alike {c d : Component} (h : c.Alike d) (scope scope' : Scope) :
    (c.task scope).Alike (d.task scope') := by
  obtain ⟨t, u, htu, hc, hd⟩ := h.task
  rwa [hc, hd]

/-- The text of a build is made of the trees of its documents. -/
theorem render_eq_of_roots {r r' : Build}
    (h : r.documents.map Document.root = r'.documents.map Document.root) :
    r.render = r'.render := by
  have hyaml (b : Build) : b.render =
      "---\n".intercalate ((b.documents.map Document.root).map Value.toYaml) := by
    rw [List.map_map]
    rfl
  rw [hyaml, hyaml, h]

namespace Builder

/-- Two builders with the stages of a new one, in which the same components and documents are
registered, in any order. -/
structure Alike (b b' : Builder) : Prop where
  names : b.componentNames.Nodup
  components : ∃ cs, b.components.Perm cs ∧ List.Forall₂ Component.Alike cs b'.components
  documents : Regathered b.documents b'.documents
  stages : b.stages = Stage.defaults
  stages' : b'.stages = Stage.defaults

variable {b b' : Builder}

/-- The stages of a new builder, one after the other. -/
theorem foldlM_defaults (b : Builder) (s : DocumentSet) :
    Stage.defaults.foldlM b.runStage s =
      DocumentSet.result s.markCrds.2.synthesizeNamespaces >>= fun t =>
        .ok (t.map Document.canonical) := by
  rw [← DocumentSet.result_map _ fun _ => ()]
  rfl

namespace Alike

variable (h : Alike b b')

include h

theorem forall_iff {p q : Component → Prop}
    (hpq : ∀ c d, Component.Alike c d → (p c ↔ q d)) :
    (∀ c ∈ b.components, p c) ↔ ∀ d ∈ b'.components, q d := by
  obtain ⟨cs, hperm, hcs⟩ := h.components
  rw [← forall_mem_iff_of_forall₂ hcs hpq]
  exact forall_congr' fun c => imp_congr_left hperm.mem_iff

theorem componentNames : b.componentNames.Perm b'.componentNames := by
  obtain ⟨cs, hperm, hcs⟩ := h.components
  refine (hperm.map _).trans (.of_eq ?_)
  rw [Builder.componentNames, ← List.forall₂_eq_eq_eq, List.forall₂_map_left_iff,
    List.forall₂_map_right_iff]
  exact hcs.imp fun _ _ hcd => hcd.name

theorem names' : b'.componentNames.Nodup := h.componentNames.nodup_iff.mp h.names

theorem blind : ∀ c ∈ b.components, c.Blind := by
  refine (h.forall_iff (q := fun _ => True) fun c d hcd => ?_).mpr fun _ _ => trivial
  obtain ⟨t, u, htu, hc, -⟩ := hcd.task
  exact iff_true_intro ⟨t, htu.left, hc⟩

theorem blind' : ∀ c ∈ b'.components, c.Blind := by
  refine (h.forall_iff (p := fun _ => True) fun c d hcd => ?_).mp fun _ _ => trivial
  obtain ⟨t, u, htu, -, hd⟩ := hcd.task
  exact (iff_true_intro ⟨u, htu.right, hd⟩).symm

theorem succeeds_iff : b.Succeeds b.components ↔ b'.Succeeds b'.components :=
  h.forall_iff fun _ _ hcd => (hcd.task_alike _ _).succeeds

theorem orderable_iff : b.Orderable ↔ b'.Orderable := by
  have hmem : ∀ n, n ∈ b.dependencies.map Prod.fst ↔ n ∈ b'.dependencies.map Prod.fst := by
    intro n
    rw [map_fst_dependencies, map_fst_dependencies, h.componentNames.mem_iff]
  -- Both conditions on an order speak of each component with what it depends on.
  have hforall {p : String → List String → Prop}
      (hp : ∀ n ns ns', (∀ m, m ∈ ns ↔ m ∈ ns') → (p n ns ↔ p n ns')) :
      (∀ c ∈ b.dependencies, p c.1 c.2) ↔ ∀ c ∈ b'.dependencies, p c.1 c.2 := by
    rw [dependencies, dependencies, List.forall_mem_map, List.forall_mem_map]
    exact h.forall_iff fun c d hcd => hcd.name ▸ hp _ _ _ hcd.dependencies
  rw [Orderable, Orderable,
    Component.exists_order_iff (map_fst_dependencies b ▸ h.names),
    Component.exists_order_iff (map_fst_dependencies b' ▸ h.names')]
  refine and_congr ?_ (exists_congr fun rank => ?_)
  · simp only [Component.Registered, hmem]
    exact hforall (p := fun _ ns => ∀ m ∈ ns, m ∈ b'.dependencies.map Prod.fst)
      fun _ _ _ hns => forall_congr' fun m => imp_congr_left (hns m)
  · exact hforall (p := fun n ns => ∀ m ∈ ns, m ≠ n → rank m < rank n)
      fun n ns ns' hns => forall_congr' fun m => imp_congr_left (hns m)

theorem family : Regathered b.family b'.family := by
  obtain ⟨cs, hperm, hcs⟩ := h.components
  have hemitted := Regathered.flatMap hcs fun c d hcd =>
    (hcd.task_alike (b.scope c) (b'.scope d)).emitted
  exact h.documents.append (hemitted.perm_trans (hperm.flatMap_right _))

/-- Both gather the same documents. -/
theorem gather (htypes : Unambiguous (b.family.filterMap Document.crd?)) :
    Together DocumentSet.Alike b.gather b'.gather := by
  obtain ⟨cs, hcs, hyields⟩ := b.yields_gather h.blind
  obtain ⟨cs', hcs', hyields'⟩ := b'.yields_gather h.blind'
  have hperm := (hcs.flatMap_right b.emitted).append_left b.documents
  have hperm' := (hcs'.flatMap_right b'.emitted).append_left b'.documents
  refine DocumentSet.together_of_yields hyields hyields' ?_
    ((h.family.trans_perm hperm'.symm).perm_trans hperm) ?_
  · rw [h.orderable_iff, h.succeeds_iff, h.family.distinct_iff]
  · exact htypes.of_perm (hperm.symm.filterMap _)

end Alike

/-- Two builders in which the same is registered both fail, or both give the same documents in
the same order, and so the same text. -/
theorem together_build_of_alike (h : Alike b b')
    (htypes : Unambiguous (b.family.filterMap Document.crd?)) (ns : Option String) :
    Together (fun r r' : Build =>
        r.documents.map Document.root = r'.documents.map Document.root ∧ r.render = r'.render)
      (b.build ns) (b'.build ns) := by
  rw [Builder.build, Builder.build, h.stages, h.stages']
  refine (h.gather htypes).bind fun s t hst => (hst.giveNamespace ns).bind fun s t hst => ?_
  rw [foldlM_defaults, foldlM_defaults, bind_assoc, bind_assoc]
  refine hst.markCrds.synthesizeNamespaces.bind fun s t hst => ?_
  have hdistinct : ((s.map Document.canonical).documents.map Document.key).Nodup :=
    (hst.left.map Document.key_canonical).distinct
  have hplain := hst.canonical
  rw [← DocumentSet.documents_map s, ← DocumentSet.documents_map t] at hplain
  refine (together_ofDocuments hdistinct hplain).mono fun r r' hr => ?_
  have hroots : r.documents.map Document.root = r'.documents.map Document.root := by
    have hmap := congrArg (List.map Document.root) hr
    rwa [List.map_map, List.map_map] at hmap
  exact ⟨hroots, render_eq_of_roots hroots⟩

/-- The component that emits one document. -/
def emitter (name : String) (dependencies : List String) (d : Document) : Component where
  name := name
  dependencies := dependencies
  task _ := .emit d .done

theorem blind_emitter (name : String) (dependencies : List String) (d : Document) :
    (emitter name dependencies d).Blind := ⟨.emit d .done, trivial, fun _ => rfl⟩

/-- A definition of a type. -/
def widgets : Document where
  root := .mapping [
    ("apiVersion", .string "apiextensions.k8s.io/v1"),
    ("kind", .string "CustomResourceDefinition"),
    ("metadata", .mapping [("name", .string "widgets.example.com")]),
    ("spec", .mapping [
      ("group", .string "example.com"),
      ("names", .mapping [("kind", .string "Widget")]),
      ("versions", .sequence [.mapping [("name", .string "v1")]])])]
  wellKeyed := by simp [Ordered.keys]

def reader : Document where
  root := .mapping [
    ("apiVersion", .string "rbac.authorization.k8s.io/v1"),
    ("kind", .string "ClusterRole"),
    ("metadata", .mapping [("name", .string "reader")]),
    ("rules", .sequence [.mapping [
      ("apiGroups", .sequence [.string "example.com"]),
      ("verbs", .sequence [.string "get", .string "list"])]])]
  wellKeyed := by simp [Ordered.keys]

/-- The same role with its keys and its verbs in other orders. -/
def reader' : Document where
  root := .mapping [
    ("kind", .string "ClusterRole"),
    ("apiVersion", .string "rbac.authorization.k8s.io/v1"),
    ("rules", .sequence [.mapping [
      ("verbs", .sequence [.string "list", .string "get"]),
      ("apiGroups", .sequence [.string "example.com"])]]),
    ("metadata", .mapping [("name", .string "reader")])]
  wellKeyed := by simp [Ordered.keys]

theorem agree_reader : Document.Agree reader reader' := by
  have hequivalent : reader.root.Equivalent reader'.root := by
    have hverbs := @Value.Equivalent.elements
      [("apiGroups", .sequence [.string "example.com"])] "verbs" [] _ _ (.inl (by decide))
      (List.Perm.swap (.string "list") (.string "get") [])
    have hrule := hverbs.trans (.keys (.swap ..))
    have hrules := @Value.Equivalent.item _ _ [] [] hrule
    exact .trans (@Value.Equivalent.field _ _ [_, _, _] _ _ hrules) (.keys (by decide))
  have hnormal : reader.root.Normal := by simp [reader]
  exact ⟨(Value.equivalent_iff reader.wellKeyed hnormal).mp hequivalent, rfl⟩

def settings : Document := .new "v1" "ConfigMap" "settings"

def gadget : Document := .new "example.com/v1" "Widget" "gadget"

def forward : Builder where
  components := [emitter "gadgets" ["settings"] gadget, emitter "settings" [] settings]
  documents := [widgets, reader]

def reverse : Builder where
  components := [emitter "settings" [] settings, emitter "gadgets" ["settings"] gadget]
  documents := [reader', widgets]

theorem together_build_forward_reverse :
    Alike forward reverse ∧ Unambiguous (forward.family.filterMap Document.crd?) ∧
      Together (fun r r' : Build =>
          r.documents.map Document.root = r'.documents.map Document.root ∧ r.render = r'.render)
        (forward.build (some "shop")) (reverse.build (some "shop")) := by
  have halike : Alike forward reverse := by
    refine ⟨by decide, ⟨_, .swap .., ?_⟩, ⟨_, .swap .., ?_⟩, rfl, rfl⟩
    · exact .cons (blind_emitter ..).alike (.cons (blind_emitter ..).alike .nil)
    · exact .cons agree_reader (.cons ⟨rfl, rfl⟩ .nil)
  have htypes : Unambiguous (forward.family.filterMap Document.crd?) := by decide +kernel
  exact ⟨halike, htypes, together_build_of_alike halike htypes _⟩

end Builder

end Rollout
