import Rollout.Proofs.Builder.Staging
import Rollout.Proofs.Graph.Acyclic
/-!
The run of the components of a build. None is run where a dependency is not registered or where
dependencies form a cycle; else each is run once, and finds what the ones that it depends on have
emitted.
-/

namespace Rollout

open Relation

theorem exists_append_of_filterMap_eq {α β : Type} {f : α → Option β} {l : List α}
    {pre post : List β} {b : β} (h : l.filterMap f = pre ++ b :: post) :
    ∃ l₁ a l₂, l = l₁ ++ a :: l₂ ∧ l₁.filterMap f = pre ∧ f a = some b := by
  obtain ⟨l₁, l₂, rfl, hpre, hrest⟩ := List.filterMap_eq_append_iff.mp h
  obtain ⟨m₁, a, m₂, rfl, hnone, ha, -⟩ := List.filterMap_eq_cons_iff.mp hrest
  refine ⟨l₁ ++ m₁, a, m₂, (List.append_assoc ..).symm, ?_, ha⟩
  rw [List.filterMap_append, hpre, List.filterMap_eq_nil_iff.mpr hnone, List.append_nil]

/-- What a task emits on a set is determined. -/
theorem Task.Emits.unique {source : String} {task : Task} {s t u : DocumentSet}
    {ds es : List Document} (h : task.Emits source s ds t) (h' : task.Emits source s es u) :
    ds = es ∧ t = u := by
  induction h generalizing es with
  | done =>
      cases h'
      exact ⟨rfl, rfl⟩
  | emit ht _ ih =>
      cases h' with
      | emit ht' h' =>
          obtain rfl := Except.ok.inj (ht.symm.trans ht')
          obtain ⟨rfl, rfl⟩ := ih h'
          exact ⟨rfl, rfl⟩
  | look _ ih =>
      cases h' with
      | look h' => exact ih h'

namespace Builder

variable (b : Builder)

/-- The execution of a component that ended, with the documents that it emitted. -/
def Emitted (x : Execution) (ds : List Document) : Prop :=
  ∃ t, (x.component.task (b.scope x.component)).Emits x.component.name x.found ds t

/-- One component depends on another one. Where it names itself, that says nothing. -/
def DependsOn (n m : String) : Prop :=
  ∃ c ∈ b.components, c.name = n ∧ m ∈ c.dependencies ∧ m ≠ n

/-- Some component depends on itself through others. -/
def Cyclic : Prop := ∃ n, TransGen b.DependsOn n n

variable {b}

theorem Emitted.unique {x : Execution} {ds es : List Document} (h : b.Emitted x ds)
    (h' : b.Emitted x es) : ds = es := by
  obtain ⟨t, ht⟩ := h
  obtain ⟨u, hu⟩ := h'
  exact (ht.unique hu).1

section Dependencies

variable {c : Component} {n : String} {order : List Nat} {pre post : List Component}

/-- The graph of the dependencies is sorted unless there is a cycle. -/
theorem orderable_iff_acyclic (hnames : b.componentNames.Nodup) :
    b.Orderable ↔ Component.Registered b.dependencies ∧ ¬ b.Cyclic := by
  have hrank (rank : String → Nat) :
      (∀ c ∈ b.dependencies, ∀ n ∈ c.2, n ≠ c.1 → rank n < rank c.1) ↔
        ∀ n m, b.DependsOn n m → rank m < rank n := by
    rw [dependencies, List.forall_mem_map]
    constructor
    · rintro h n m ⟨c, hc, rfl, hm, hne⟩
      exact h c hc m hm hne
    · intro h c hc m hm hne
      exact h c.name m ⟨c, hc, rfl, hm, hne⟩
  have hmem : ∀ n m, b.DependsOn n m → n ∈ b.componentNames := by
    rintro n m ⟨c, hc, rfl, -⟩
    exact List.mem_map_of_mem hc
  rw [Orderable, Component.exists_order_iff (map_fst_dependencies b ▸ hnames), exists_congr hrank,
    exists_rank_iff_acyclic hmem, Cyclic, not_exists]

/-- In the order of a build a component comes after those it depends on. -/
theorem exists_before_of_dependsOn (hnames : b.componentNames.Nodup)
    (horder : Component.order b.dependencies = .ok order)
    (hcs : order.filterMap (b.components[·]?) = pre ++ c :: post) (hn : b.DependsOn c.name n) :
    ∃ d ∈ pre, d.name = n := by
  obtain ⟨before, i, after, rfl, hpre, hi⟩ := exists_append_of_filterMap_eq hcs
  obtain ⟨hregistered, hsorts⟩ := Component.sorts_of_order horder
  obtain ⟨c', hc', hname, hdepends, hne⟩ := hn
  obtain rfl : c' = c := List.inj_on_of_nodup_map hnames hc' (List.mem_of_getElem? hi) hname
  have hn := hregistered _ (List.mem_map_of_mem hc') n hdepends
  rw [map_fst_dependencies] at hn
  obtain ⟨d, hd, rfl⟩ := List.mem_map.mp hn
  obtain ⟨j, hj⟩ := List.mem_iff_getElem?.mp hd
  have hat {k : Nat} {e : Component} (hk : b.components[k]? = some e) :
      b.dependencies[k]? = some (e.name, e.dependencies) := by
    rw [dependencies, List.getElem?_map, hk, Option.map_some]
  have hneeds := (Component.mem_needs_graph (map_fst_dependencies b ▸ hnames) (hat hi) (hat hj)).mpr
    ⟨hdepends, hne⟩
  refine ⟨d, ?_, rfl⟩
  rw [← hpre]
  exact List.mem_filterMap.mpr ⟨j, hsorts.mem_of_needs hneeds, hj⟩

/-- It also comes after those that they depend on. -/
theorem exists_before_of_transGen (hnames : b.componentNames.Nodup)
    (horder : Component.order b.dependencies = .ok order)
    (hcs : order.filterMap (b.components[·]?) = pre ++ c :: post)
    (hn : TransGen b.DependsOn c.name n) : ∃ d ∈ pre, d.name = n := by
  induction hn with
  | single hn => exact exists_before_of_dependsOn hnames horder hcs hn
  | tail _ hstep ih =>
      obtain ⟨d, hd, rfl⟩ := ih
      obtain ⟨early, late, rfl⟩ := List.append_of_mem hd
      rw [List.append_assoc, List.cons_append] at hcs
      obtain ⟨e, he, hname⟩ := exists_before_of_dependsOn hnames horder hcs hstep
      exact ⟨e, List.mem_append_left _ he, hname⟩

end Dependencies

/-- A component that ended has emitted something on top of what it found. -/
theorem exists_emitted {x : Execution} {t : DocumentSet}
    (h : b.runComponent x.found x.component = .ok t) (hx : x.found.Indexed) :
    ∃ ds, b.Emitted x ds ∧ t.Indexed ∧ t.documents = x.found.documents ++ ds := by
  obtain ⟨⟨⟩, hrun, rfl⟩ := map_eq_ok.mp h
  obtain ⟨ds, hds⟩ := Task.exists_emits (Prod.ext hrun rfl)
  exact ⟨ds, ⟨_, hds⟩, hds.documents hx⟩

/-- Components only add documents, at the end. -/
theorem prefix_of_foldlM {cs : List Component} {s t : DocumentSet}
    (h : cs.foldlM b.runComponent s = .ok t) (hs : s.Indexed) :
    t.Indexed ∧ s.documents <+: t.documents := by
  obtain ⟨ds, hds⟩ := exists_emitting h
  obtain ⟨ht, hdocs⟩ := hds.documents hs
  exact ⟨ht, ds, hdocs.symm⟩

/-- What holds of the executions of a builder that starts from a set of documents. -/
structure Orderly (b : Builder) (direct : DocumentSet) (xs : List Execution) : Prop where
  /-- No component is run twice. -/
  once : (xs.map (·.component.name)).Nodup
  registered : ∀ x ∈ xs, x.component ∈ b.components
  /-- Unless one of them fails, all components are run. -/
  all : (∀ x ∈ xs, ∃ t, b.runComponent x.found x.component = .ok t) →
    (xs.map Execution.component).Perm b.components
  gathered : (xs.map Execution.component).foldlM b.runComponent direct = b.gather
  found : ∀ pre x post, xs = pre ++ x :: post →
    (pre.map Execution.component).foldlM b.runComponent direct = .ok x.found
  direct : ∀ x ∈ xs, direct.documents <+: x.found.documents
  /-- A component is run after those it depends on, and finds all that they emitted. -/
  after : ∀ pre x post, xs = pre ++ x :: post → ∀ n, TransGen b.DependsOn x.component.name n →
    ∃ y ∈ pre, y.component.name = n ∧ ∃ ds, b.Emitted y ds ∧ ∀ d ∈ ds, d ∈ x.found.documents

/-- What was emitted before an execution is found by it. -/
theorem mem_found_of_emitted {direct : DocumentSet} {xs pre post : List Execution}
    {x y : Execution} (hdirect : direct.Indexed)
    (hfound : ∀ pre x post, xs = pre ++ x :: post →
      (pre.map Execution.component).foldlM b.runComponent direct = .ok x.found)
    (hx : xs = pre ++ x :: post) (hy : y ∈ pre) :
    ∃ ds, b.Emitted y ds ∧ ∀ d ∈ ds, d ∈ x.found.documents := by
  obtain ⟨early, late, rfl⟩ := List.append_of_mem hy
  have hyx := hx
  rw [List.append_assoc, List.cons_append] at hyx
  have hyfound := hfound _ _ _ hyx
  have hxfound := hfound _ _ _ hx
  rw [List.map_append, List.foldlM_append] at hxfound
  obtain ⟨s, hs, hxfound⟩ := bind_eq_ok.mp hxfound
  obtain rfl := Except.ok.inj (hyfound.symm.trans hs)
  rw [List.map_cons, List.foldlM_cons] at hxfound
  obtain ⟨t, ht, hrest⟩ := bind_eq_ok.mp hxfound
  obtain ⟨ds, hds, htindexed, htdocs⟩ :=
    exists_emitted ht (prefix_of_foldlM hyfound hdirect).1
  refine ⟨ds, hds, fun d hd => (prefix_of_foldlM hrest htindexed).2.subset ?_⟩
  rw [htdocs]
  exact List.mem_append_right _ hd

/-- Where components can be ordered, they are run from the direct documents on. -/
theorem orderly_executions (hnames : b.componentNames.Nodup) (horderable : b.Orderable)
    (hdocs : Distinct b.documents) :
    ∃ direct, b.directDocuments = .ok direct ∧ direct.documents = b.documents ∧
      b.Orderly direct b.executions := by
  obtain ⟨order, horder⟩ := horderable
  obtain ⟨direct, hdirect, hindexed, hdirects⟩ := b.yields_directDocuments.ok hdocs
  have hrun : b.runComponents = b.runAll (order.filterMap (b.components[·]?)) direct := by
    rw [runComponents, horder]
    dsimp only
    rw [hdirect]
  have hperm : (order.filterMap (b.components[·]?)).Perm b.components := by
    refine perm_filterMap_getElem? ((Component.perm_of_order horder).trans (.of_eq ?_))
    rw [dependencies, List.length_map]
  have hbegin := components_runAll (b := b) (order.filterMap (b.components[·]?)) direct
  have hfound {pre post : List Execution} {x : Execution}
      (h : b.executions = pre ++ x :: post) :
      (pre.map Execution.component).foldlM b.runComponent direct = .ok x.found := by
    rw [executions, hrun] at h
    exact found_runAll h
  rw [← hrun, ← executions] at hbegin
  refine ⟨direct, hdirect, hdirects, ?_, fun x hx => ?_, fun h => ?_, ?_, fun pre x post => hfound,
    fun x hx => ?_, fun pre x post hx n hn => ?_⟩
  · have hnodup := (hperm.map Component.name).nodup_iff.mpr hnames
    refine hnodup.sublist ?_
    have hsublist := hbegin.sublist.map Component.name
    rwa [List.map_map] at hsublist
  · exact hperm.mem_iff.mp (hbegin.subset (List.mem_map_of_mem hx))
  · rw [executions, hrun] at h ⊢
    rwa [components_runAll_of_succeeds h]
  · rw [gather, executions, hrun]
    exact foldlM_runAll _ direct
  · obtain ⟨pre, post, hx⟩ := List.append_of_mem hx
    exact (prefix_of_foldlM (hfound hx) hindexed).2
  · obtain ⟨rest, hrest⟩ := hbegin
    rw [hx, List.map_append, List.map_cons, List.append_assoc, List.cons_append] at hrest
    obtain ⟨c, hc, rfl⟩ := exists_before_of_transGen hnames horder hrest.symm hn
    obtain ⟨y, hy, rfl⟩ := List.mem_map.mp hc
    exact ⟨y, hy, rfl, mem_found_of_emitted hindexed (fun _ _ _ => hfound) hx hy⟩

theorem build_eq_error {e : BuildError} (h : Component.order b.dependencies = .error e)
    (ns : Option String) : b.executions = [] ∧ b.build ns = .error e := by
  constructor
  · rw [executions, runComponents, h]
  · rw [build, gather_eq, h]
    rfl

theorem build_eq_error_of_not_distinct (horderable : b.Orderable) (ns : Option String)
    (h : ¬ Distinct b.documents) : b.executions = [] ∧ ∃ e, b.build ns = .error e := by
  obtain ⟨order, horder⟩ := horderable
  obtain ⟨e, he⟩ := b.yields_directDocuments.error h
  constructor
  · rw [executions, runComponents, horder]
    dsimp only
    rw [he]
  · refine ⟨e, ?_⟩
    rw [build, gather_eq, horder]
    change (b.directDocuments >>= _) >>= _ = _
    rw [he]
    rfl

/-- No component is run where a dependency is not registered, the first of which is the error, or
where dependencies form a cycle. Otherwise each component is run once, unless one fails, and finds
the direct documents and all that was emitted by those it depends on. (A builder into which
documents of one identity were put past the checks builds nothing.) -/
theorem executions_cases (hnames : b.componentNames.Nodup) (ns : Option String) :
    (¬ Component.Registered b.dependencies → ∃ c n, Component.FirstMissing b.dependencies c n ∧
      b.executions = [] ∧ b.build ns = .error (.missingDependency c.1 n)) ∧
    (Component.Registered b.dependencies → b.Cyclic →
      b.executions = [] ∧ ∃ members, b.build ns = .error (.dependencyCycle members)) ∧
    (Component.Registered b.dependencies → ¬ b.Cyclic →
      (Distinct b.documents → ∃ direct, b.directDocuments = .ok direct ∧
        direct.documents = b.documents ∧ b.Orderly direct b.executions) ∧
      (¬ Distinct b.documents → b.executions = [] ∧ ∃ e, b.build ns = .error e)) := by
  refine ⟨fun hmissing => ?_, fun hregistered hcyclic => ?_, fun hregistered hacyclic => ?_⟩
  · obtain ⟨c, n, hfirst⟩ := Component.exists_firstMissing hmissing
    exact ⟨c, n, hfirst, build_eq_error (Component.order_eq_error hfirst) ns⟩
  · have hunorderable : ¬ b.Orderable := fun h =>
      ((orderable_iff_acyclic hnames).mp h).2 hcyclic
    cases hsort : (Component.graph b.dependencies).sort with
    | ok order =>
        refine absurd ⟨order, ?_⟩ hunorderable
        rw [Component.order_eq hregistered, hsort]
        rfl
    | error members =>
        have horder := Component.order_eq hregistered
        rw [hsort] at horder
        obtain ⟨hnone, hbuild⟩ := build_eq_error horder ns
        exact ⟨hnone, _, hbuild⟩
  · have horderable := (orderable_iff_acyclic hnames).mpr ⟨hregistered, hacyclic⟩
    exact ⟨orderly_executions hnames horderable, build_eq_error_of_not_distinct horderable ns⟩

example : build { components := [emitter "web" ["db"] gadget, emitter "db" ["web"] settings] }
    none = .error (.dependencyCycle ["web", "db"]) := by decide +kernel

theorem orderly_forward :
    forward.componentNames.Nodup ∧ Component.Registered forward.dependencies ∧
      ¬ forward.Cyclic ∧ Distinct forward.documents ∧
      ∃ direct, forward.directDocuments = .ok direct ∧ direct.documents = forward.documents ∧
        forward.Orderly direct forward.executions := by
  have hnames : forward.componentNames.Nodup := by decide
  have horderable : forward.Orderable := ⟨[1, 0], by decide⟩
  obtain ⟨hregistered, hacyclic⟩ := (orderable_iff_acyclic hnames).mp horderable
  have hdocs : Distinct forward.documents := by
    rw [Distinct]
    decide +kernel
  exact ⟨hnames, hregistered, hacyclic, hdocs,
    ((executions_cases hnames none).2.2 hregistered hacyclic).1 hdocs⟩

end Builder

end Rollout
