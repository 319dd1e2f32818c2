import Rollout.Builder
import Rollout.Proofs.Document.Placement
import Rollout.Proofs.DocumentSet.Collected
/-!
Components that do not read what a build tells them: what they emit, and when they can be
ordered.
-/

namespace Rollout

theorem mapM_eq_ok {ε α β : Type} {f : α → Except ε β} {g : α → β} {l : List α}
    (h : ∀ a ∈ l, f a = .ok (g a)) : l.mapM f = .ok (l.map g) := by
  induction l with
  | nil => rfl
  | cons a l ih =>
      rw [List.forall_mem_cons] at h
      rw [List.mapM_cons, h.1, ih h.2]
      rfl

/-- The first step that fails gives the error. -/
theorem mapM_eq_error {ε α β : Type} {f : α → Except ε β} {pre post : List α} {a : α} {e : ε}
    (hpre : ∀ b ∈ pre, ∃ c, f b = .ok c) (ha : f a = .error e) :
    (pre ++ a :: post).mapM f = .error e := by
  induction pre with
  | nil =>
      rw [List.nil_append, List.mapM_cons, ha]
      rfl
  | cons b pre ih =>
      rw [List.forall_mem_cons] at hpre
      obtain ⟨⟨c, hc⟩, hpre⟩ := hpre
      rw [List.cons_append, List.mapM_cons, hc, ih hpre]
      rfl

/-- Mapping a list fails with the error of the first item that fails. -/
theorem mapM_eq_error_iff {ε α β : Type} {f : α → Except ε β} {l : List α} {e : ε} :
    l.mapM f = .error e ↔
      ∃ pre a post, l = pre ++ a :: post ∧ (∀ b ∈ pre, ∃ c, f b = .ok c) ∧ f a = .error e := by
  constructor
  · intro h
    induction l with
    | nil => cases h
    | cons a l ih =>
        rw [List.mapM_cons] at h
        cases ha : f a with
        | error e' =>
            rw [ha] at h
            cases h
            exact ⟨[], a, l, rfl, fun _ hb => absurd hb List.not_mem_nil, ha⟩
        | ok c =>
            rw [ha] at h
            cases hl : l.mapM f with
            | ok cs =>
                rw [hl] at h
                cases h
            | error e' =>
                rw [hl] at h
                cases h
                obtain ⟨pre, b, post, rfl, hpre, hb⟩ := ih hl
                exact ⟨a :: pre, b, post, rfl, List.forall_mem_cons.mpr ⟨⟨c, ha⟩, hpre⟩, hb⟩
  · rintro ⟨pre, a, post, rfl, hpre, ha⟩
    exact mapM_eq_error hpre ha

/-- Where not all items of a list have a property, there is a first one without it. -/
theorem exists_first {α : Type} {p : α → Prop} [DecidablePred p] {l : List α}
    (h : ¬ ∀ a ∈ l, p a) :
    ∃ pre a post, l = pre ++ a :: post ∧ ¬ p a ∧ ∀ b ∈ pre, p b := by
  push Not at h
  obtain ⟨a, ha, hpa⟩ := h
  have hsome : (l.find? fun b => ¬ p b).isSome :=
    List.find?_isSome.mpr ⟨a, ha, decide_eq_true hpa⟩
  obtain ⟨b, hb⟩ := Option.isSome_iff_exists.mp hsome
  obtain ⟨hpb, pre, post, rfl, hpre⟩ := List.find?_eq_some_iff_append.mp hb
  refine ⟨pre, b, post, rfl, of_decide_eq_true hpb, fun c hc => ?_⟩
  simpa using hpre c hc

namespace Component

variable {cs : List (String × List String)} {n : String} {i : Nat}

theorem isSome_indexOf? : (indexOf? cs n).isSome ↔ n ∈ cs.map Prod.fst := isSome_lastPlace?

theorem indexOf?_eq_some_iff (hnodup : (cs.map Prod.fst).Nodup) :
    indexOf? cs n = some i ↔ (cs.map Prod.fst)[i]? = some n := lastPlace?_eq_some_iff hnodup

/-- Edges from each component to those it depends on. -/
def edges (cs : List (String × List String)) : List (Nat × Nat) :=
  cs.zipIdx.flatMap fun (c, i) => (c.2.filterMap (indexOf? cs)).map fun j => (i, j)

def graph (cs : List (String × List String)) : Graph Nat :=
  Graph.ofEdges (List.range cs.length) (edges cs)

/-- Every component depends on registered ones only. -/
def Registered (cs : List (String × List String)) : Prop :=
  ∀ c ∈ cs, ∀ n ∈ c.2, n ∈ cs.map Prod.fst

theorem resolve_eq_ok {name : String} {dependencies : List String}
    (h : ∀ n ∈ dependencies, n ∈ cs.map Prod.fst) :
    resolve cs name dependencies = .ok (dependencies.filterMap (indexOf? cs)) := by
  have hsome : ∀ n ∈ dependencies, indexOf? cs n = some ((indexOf? cs n).getD 0) := by
    intro n hn
    obtain ⟨i, hi⟩ := Option.isSome_iff_exists.mp (isSome_indexOf?.mpr (h n hn))
    rw [hi, Option.getD_some]
  have hmap : dependencies.map (fun n => (indexOf? cs n).getD 0) =
      dependencies.filterMap (indexOf? cs) := by
    rw [← List.filterMap_eq_map]
    exact (List.filterMap_congr hsome).symm
  rw [resolve, ← hmap]
  refine mapM_eq_ok fun n hn => ?_
  rw [hsome n hn]
  rfl

/-- The dependencies of one component with its index, as edges. -/
def resolveAt (cs : List (String × List String)) (c : (String × List String) × Nat) :
    Except BuildError (List (Nat × Nat)) := do
  return (← resolve cs c.1.1 c.1.2).map fun j => (c.2, j)

theorem order_eq_bind (cs : List (String × List String)) :
    order cs = cs.zipIdx.mapM (resolveAt cs) >>= fun es =>
      (Graph.ofEdges (List.range cs.length) es.flatten).sort.mapError fun members =>
        .dependencyCycle (members.map fun i => (cs[i]?.map (·.1)).getD "") := rfl

theorem resolveAt_eq_ok {c : (String × List String) × Nat}
    (h : ∀ n ∈ c.1.2, n ∈ cs.map Prod.fst) :
    resolveAt cs c = .ok ((c.1.2.filterMap (indexOf? cs)).map fun j => (c.2, j)) := by
  rw [resolveAt, resolve_eq_ok h]
  rfl

/-- Registered dependencies are sorted as a graph. -/
theorem order_eq (h : Registered cs) :
    order cs = (graph cs).sort.mapError fun members =>
      .dependencyCycle (members.map fun i => (cs[i]?.map (·.1)).getD "") := by
  have hedges := mapM_eq_ok fun c hc =>
    resolveAt_eq_ok (h _ (List.mem_of_getElem? (List.mem_zipIdx_iff_getElem?.mp hc)))
  rw [order_eq_bind, hedges]
  rfl

/-- A dependency of a component that is not registered, with none before it: neither of a
component that was registered before, nor of the component itself. -/
structure FirstMissing (cs : List (String × List String)) (c : String × List String)
    (n : String) : Prop where
  before : ∃ pre post, cs = pre ++ c :: post ∧ ∀ d ∈ pre, ∀ m ∈ d.2, m ∈ cs.map Prod.fst
  dependency : ∃ ns ms, c.2 = ns ++ n :: ms ∧ ∀ m ∈ ns, m ∈ cs.map Prod.fst
  missing : n ∉ cs.map Prod.fst

theorem exists_firstMissing (h : ¬ Registered cs) : ∃ c n, FirstMissing cs c n := by
  obtain ⟨pre, c, post, hcs, hc, hpre⟩ := exists_first h
  obtain ⟨ns, n, ms, hns, hn, hfirst⟩ := exists_first hc
  exact ⟨c, n, ⟨pre, post, hcs, hpre⟩, ⟨ns, ms, hns, hfirst⟩, hn⟩

theorem resolve_eq_error {name : String} {ns ms : List String}
    (hns : ∀ m ∈ ns, m ∈ cs.map Prod.fst) (hn : n ∉ cs.map Prod.fst) :
    resolve cs name (ns ++ n :: ms) = .error (.missingDependency name n) := by
  refine mapM_eq_error (fun m hm => ?_) ?_
  · obtain ⟨i, hi⟩ := Option.isSome_iff_exists.mp (isSome_indexOf?.mpr (hns m hm))
    rw [hi]
    exact ⟨i, rfl⟩
  · have hnone : indexOf? cs n = none := by
      rw [← Option.not_isSome_iff_eq_none, isSome_indexOf?]
      exact hn
    rw [hnone]

/-- The first dependency that is not registered is the error. -/
theorem order_eq_error {c : String × List String} (h : FirstMissing cs c n) :
    order cs = .error (.missingDependency c.1 n) := by
  obtain ⟨⟨pre, post, hcs, hpre⟩, ⟨ns, ms, hdependencies, hns⟩, hn⟩ := h
  have hplaces : cs.zipIdx =
      pre.zipIdx ++ (c, 0 + pre.length) :: post.zipIdx (0 + pre.length + 1) := by
    rw [hcs, List.zipIdx_append, List.zipIdx_cons]
  have hedges : cs.zipIdx.mapM (resolveAt cs) = .error (.missingDependency c.1 n) := by
    rw [hplaces]
    refine mapM_eq_error (fun d hd => ?_) ?_
    · obtain ⟨i, hi⟩ := d
      exact ⟨_, resolveAt_eq_ok (hpre _ (List.mem_of_getElem? (List.mem_zipIdx_iff_getElem?.mp hd)))⟩
    · rw [resolveAt, hdependencies, resolve_eq_error hns hn]
      rfl
  rw [order_eq_bind, hedges]
  rfl

theorem mem_edges_iff (hnodup : (cs.map Prod.fst).Nodup) {j : Nat} {c c' : String × List String}
    (hi : cs[i]? = some c) (hj : cs[j]? = some c') : (i, j) ∈ edges cs ↔ c'.1 ∈ c.2 := by
  have hplace {n : String} : indexOf? cs n = some j ↔ c'.1 = n := by
    rw [indexOf?_eq_some_iff hnodup, List.getElem?_map, hj, Option.map_some, Option.some.injEq]
  rw [edges, List.mem_flatMap]
  constructor
  · rintro ⟨⟨d, k⟩, hmem, hedge⟩
    obtain ⟨j', hj', heq⟩ := List.mem_map.mp hedge
    obtain ⟨rfl, rfl⟩ := Prod.mk.inj heq
    obtain rfl : d = c := Option.some.inj ((List.mem_zipIdx_iff_getElem?.mp hmem).symm.trans hi)
    obtain ⟨n, hn, hnj⟩ := List.mem_filterMap.mp hj'
    rwa [hplace.mp hnj]
  · intro hn
    refine ⟨(c, i), List.mem_zipIdx_iff_getElem?.mpr hi, List.mem_map.mpr ⟨j, ?_, rfl⟩⟩
    exact List.mem_filterMap.mpr ⟨c'.1, hn, hplace.mpr rfl⟩

theorem wellFormed_graph (cs : List (String × List String)) : (graph cs).WellFormed := by
  refine Graph.wellFormed_ofEdges _ fun e he => ?_
  obtain ⟨⟨c, i⟩, -, he⟩ := List.mem_flatMap.mp he
  obtain ⟨j, hj, rfl⟩ := List.mem_map.mp he
  obtain ⟨n, -, hn⟩ := List.mem_filterMap.mp hj
  have hlt := (List.getElem?_eq_some_iff.mp (getElem?_of_lastPlace? hn)).1
  rw [List.length_map] at hlt
  exact hlt.trans_eq List.length_range.symm

theorem size_graph (cs : List (String × List String)) : (graph cs).size = cs.length :=
  List.length_range

theorem mem_needs_graph (hnodup : (cs.map Prod.fst).Nodup) {j : Nat} {c c' : String × List String}
    (hi : cs[i]? = some c) (hj : cs[j]? = some c') :
    j ∈ (graph cs).needs i ↔ c'.1 ∈ c.2 ∧ c'.1 ≠ c.1 := by
  have hne : j ≠ i ↔ c'.1 ≠ c.1 := by
    rw [not_iff_not]
    constructor
    · rintro rfl
      rw [Option.some.inj (hi.symm.trans hj)]
    · exact eq_of_label_eq hnodup hj hi
  rw [graph, Graph.mem_needs_ofEdges, mem_edges_iff hnodup hi hj, hne, List.length_range]
  exact and_iff_right (List.getElem?_eq_some_iff.mp hi).1

/-- Components can be ordered exactly if their dependencies are registered and have lower ranks. -/
theorem exists_order_iff (hnodup : (cs.map Prod.fst).Nodup) :
    (∃ is, order cs = .ok is) ↔ Registered cs ∧
      ∃ rank : String → Nat, ∀ c ∈ cs, ∀ n ∈ c.2, n ≠ c.1 → rank n < rank c.1 := by
  by_cases h : Registered cs
  · have hsort : (∃ is, order cs = .ok is) ↔ ∃ is, (graph cs).sort = .ok is := by
      simp only [order_eq h, mapError_eq_ok]
    rw [hsort, Graph.exists_sort_iff (wellFormed_graph cs),
      Graph.exists_rank_iff hnodup (size_graph cs) (wellFormed_graph cs)
        fun i j c c' => mem_needs_graph hnodup, and_iff_right h]
    refine exists_congr fun rank => forall₂_congr fun c hc => ?_
    constructor
    · intro hrank n hn hne
      obtain ⟨c', hc', rfl⟩ := List.mem_map.mp (h c hc n hn)
      exact hrank c' hc' ⟨hn, hne⟩
    · rintro hrank c' - ⟨hn, hne⟩
      exact hrank c'.1 hn hne
  · obtain ⟨c, n, hmissing⟩ := exists_firstMissing h
    refine ⟨fun ⟨is, his⟩ => ?_, fun hregistered => absurd hregistered.1 h⟩
    rw [order_eq_error hmissing] at his
    cases his

/-- An order of components sorts their graph. -/
theorem sorts_of_order {is : List Nat} (h : order cs = .ok is) :
    Registered cs ∧ (graph cs).Sorts is := by
  by_cases hregistered : Registered cs
  · rw [order_eq hregistered, mapError_eq_ok] at h
    exact ⟨hregistered, Graph.sorts_of_sort (wellFormed_graph cs) h⟩
  · obtain ⟨c, n, hmissing⟩ := exists_firstMissing hregistered
    rw [order_eq_error hmissing] at h
    cases h

theorem perm_of_order {is : List Nat} (h : order cs = .ok is) : is.Perm (List.range cs.length) :=
  size_graph cs ▸ (sorts_of_order h).2.perm

end Component

namespace Task

/-- A task that does not read the documents emitted so far. -/
def Blind : Task → Prop
  | done => True
  | fail _ => True
  | emit _ next => next.Blind
  | look _ => False

/-- A task that ends without a failure of its own. -/
def Succeeds : Task → Prop
  | done => True
  | fail _ => False
  | emit _ next => next.Succeeds
  | look _ => False

/-- What a task emits that does not read what there is. -/
def emitted : Task → List Document
  | done | fail _ | look _ => []
  | emit d next => d :: next.emitted

theorem blind_emitAll (ds : List Document) {next : Task} (h : next.Blind) :
    (emitAll ds next).Blind := by
  induction ds with
  | nil => exact h
  | cons d ds ih => exact ih

/-- Such a task adds what it emits, if that leaves all identities distinct. -/
theorem yields_run {s : DocumentSet} (hs : s.Indexed) {task : Task} (h : task.Blind)
    (source : String) :
    Yields (DocumentSet.result (task.run source s))
      (task.Succeeds ∧ Distinct (s.documents ++ task.emitted)) (s.documents ++ task.emitted) := by
  induction task generalizing s with
  | done =>
      rw [emitted, List.append_nil]
      exact ⟨fun _ => ⟨s, rfl, hs, rfl⟩, fun hfails => absurd ⟨trivial, hs.distinct⟩ hfails⟩
  | fail e => exact ⟨fun hsucceeds => hsucceeds.1.elim, fun _ => ⟨e, rfl⟩⟩
  | emit d next ih =>
      have hstep : DocumentSet.result ((emit d next).run source s) =
          s.insert d source >>= fun t => DocumentSet.result (next.run source t) := by
        rw [run]
        cases s.insert d source <;> rfl
      rw [hstep]
      exact hs.yields_cons fun t ht _ => ih ht h
  | look next => exact h.elim

end Task

/-- A component that does not read what a build tells it. -/
def Component.Blind (c : Component) : Prop :=
  ∃ task : Task, task.Blind ∧ ∀ scope, c.task scope = task

theorem ManifestSource.blind_emit (name : String) (source : ManifestSource) {next : Task}
    (h : next.Blind) : (source.emit name next).Blind := by
  rw [emit]
  split
  · next content _ =>
      rw [Task.emitManifest]
      split
      · exact Task.blind_emitAll _ h
      · trivial
  · trivial

/-- Manifests are emitted whatever the build. -/
theorem Component.blind_ofManifests (name : String) (dependencies : List String)
    (sources : List ManifestSource) : (ofManifests name dependencies sources).Blind := by
  refine ⟨sources.foldr (ManifestSource.emit name) .done, ?_, fun _ => rfl⟩
  induction sources with
  | nil => trivial
  | cons source sources ih => exact source.blind_emit name ih

namespace Builder

variable (b : Builder)

/-- What a component emits. -/
def emitted (c : Component) : List Document := (c.task (b.scope c)).emitted

/-- The documents that are added directly and those that the components emit. -/
def family : List Document := b.documents ++ b.components.flatMap b.emitted

/-- No component fails of its own. -/
def Succeeds (cs : List Component) : Prop := ∀ c ∈ cs, (c.task (b.scope c)).Succeeds

theorem yields_foldlM {s : DocumentSet} (hs : s.Indexed) {cs : List Component}
    (h : ∀ c ∈ cs, c.Blind) :
    Yields (cs.foldlM b.runComponent s)
      (b.Succeeds cs ∧ Distinct (s.documents ++ cs.flatMap b.emitted))
      (s.documents ++ cs.flatMap b.emitted) := by
  induction cs generalizing s with
  | nil =>
      rw [List.flatMap_nil, List.append_nil]
      exact ⟨fun _ => ⟨s, rfl, hs, rfl⟩, fun hfails => absurd ⟨nofun, hs.distinct⟩ hfails⟩
  | cons c cs ih =>
      rw [List.forall_mem_cons] at h
      obtain ⟨⟨task, hblind, htask⟩, hcs⟩ := h
      have hrun : Yields (b.runComponent s c)
          ((c.task (b.scope c)).Succeeds ∧ Distinct (s.documents ++ b.emitted c))
          (s.documents ++ b.emitted c) := by
        refine Task.yields_run hs ?_ c.name
        rwa [htask]
      rw [List.foldlM_cons, List.flatMap_cons, ← List.append_assoc]
      refine (hrun.bind fun t ht hdocs => hdocs ▸ ih ht hcs).congr ?_
      rw [Succeeds, Succeeds, List.forall_mem_cons]
      constructor
      · rintro ⟨⟨hc, -⟩, hcs, hdistinct⟩
        exact ⟨⟨hc, hcs⟩, hdistinct⟩
      · rintro ⟨⟨hc, hcs⟩, hdistinct⟩
        exact ⟨⟨hc, hdistinct.of_append⟩, hcs, hdistinct⟩

theorem map_fst_dependencies : b.dependencies.map Prod.fst = b.componentNames :=
  List.map_map

/-- The components can be ordered. -/
def Orderable : Prop := ∃ is, Component.order b.dependencies = .ok is

theorem yields_directDocuments :
    Yields b.directDocuments (Distinct b.documents) b.documents := by
  have hinsert := DocumentSet.indexed_empty.yields_insertAll
    (b.documents.map fun d => (d, directSource))
  rwa [List.map_map, show ((·.1) ∘ fun d => (d, directSource)) = id from rfl, List.map_id]
    at hinsert

/-- What is gathered is the family, if it has an order, no failure and no identity twice. -/
theorem yields_gather (h : ∀ c ∈ b.components, c.Blind) :
    ∃ cs : List Component, cs.Perm b.components ∧
      Yields b.gather (b.Orderable ∧ b.Succeeds b.components ∧ Distinct b.family)
        (b.documents ++ cs.flatMap b.emitted) := by
  cases horder : Component.order b.dependencies with
  | error e =>
      refine ⟨b.components, .refl _, ?_, fun _ => ⟨e, ?_⟩⟩
      · rintro ⟨⟨is, his⟩, -⟩
        cases horder.symm.trans his
      · rw [gather_eq, horder]
        rfl
  | ok is =>
      have hperm : (is.filterMap (b.components[·]?)).Perm b.components := by
        refine perm_filterMap_getElem? ((Component.perm_of_order horder).trans (.of_eq ?_))
        rw [dependencies, List.length_map]
      have hrun := b.yields_directDocuments.bind fun s hs hdocs =>
        hdocs ▸ b.yields_foldlM hs fun c hc => h c (hperm.mem_iff.mp hc)
      have hgather : b.gather =
          b.directDocuments >>= (is.filterMap (b.components[·]?)).foldlM b.runComponent := by
        rw [gather_eq, horder]
        rfl
      refine ⟨_, hperm, hgather ▸ hrun.congr ?_⟩
      have hsucceeds : b.Succeeds (is.filterMap (b.components[·]?)) ↔ b.Succeeds b.components :=
        forall_congr' fun c => imp_congr_left hperm.mem_iff
      have hfamily : Distinct (b.documents ++ (is.filterMap (b.components[·]?)).flatMap b.emitted) ↔
          Distinct b.family :=
        (((hperm.flatMap_right _).append_left _).map _).nodup_iff
      rw [hsucceeds, hfamily]
      constructor
      · rintro ⟨-, hcs, hdistinct⟩
        exact ⟨⟨is, horder⟩, hcs, hdistinct⟩
      · rintro ⟨-, hcs, hdistinct⟩
        exact ⟨hdistinct.of_append, hcs, hdistinct⟩

end Builder

end Rollout
