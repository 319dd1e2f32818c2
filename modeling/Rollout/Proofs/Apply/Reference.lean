import Rollout.Proofs.Apply.Accounted
import Rollout.Proofs.Builder.Composition
import Rollout.Proofs.Plan.Reversed
/-!
Applying a build gives the report of its plan carried out one by one, and leaves the same objects,
whatever the limit and whatever the order in which calls end. Each operation must have an object of
its own: what two operations get that share one depends on that order.
-/

namespace Rollout

theorem subject_planChange (d : Document) (live : Option Document) (context : Nat) :
    (planChange d live context).subject = d := by
  cases live with
  | none => rfl
  | some l =>
      rw [planChange]
      split <;> rfl

/-- A plan for a build: it has a change for each document, and deletes of some objects. -/
structure Plan.For (p : Plan) (b : Build) : Prop where
  changes : p.changes.map Change.subject = b.documents
  deletes : ∃ live : List Document, planDeletes live = .ok (p.deletes, p.deleteDependencies)

namespace Server

variable {S : Type} {server : Server S}

theorem subject_planDocument (crds : List CrdRef) (context : Nat) (s : S) (d : Document) :
    (server.planDocument crds context s d).1.subject = d := by
  rw [planDocument]
  dsimp only
  split
  · exact subject_planChange d _ context
  · split
    · exact subject_planChange d none context
    · rfl
  · rfl

theorem subject_planDocuments (crds : List CrdRef) (context : Nat) (s : S) (ds : List Document) :
    (server.planDocuments crds context s ds).1.map Change.subject = ds := by
  induction ds generalizing s with
  | nil => rfl
  | cons d ds ih =>
      rw [planDocuments, List.map_cons, subject_planDocument, ih]

/-- What is deleted was listed. -/
theorem exists_live_of_plan {b : Build} {o : ApplyOptions} {s t : S} {p : Plan}
    (h : server.plan b o s = (.ok p, t)) :
    p.changes = (server.planDocuments (b.documents.filterMap Document.crd?) o.diffContext s
      b.documents).1 ∧
      ∃ live, planDeletes live = .ok (p.deletes, p.deleteDependencies) ∧
        (live = [] ∨ ∃ selector listed, (server.list (server.planDocuments
          (b.documents.filterMap Document.crd?) o.diffContext s b.documents).2 selector).1 =
            .ok listed ∧ live.Sublist listed) := by
  rw [plan] at h
  dsimp only at h
  split at h
  · cases h
    exact ⟨rfl, [], rfl, .inl rfl⟩
  · next selector _ =>
      have h := congrArg Prod.fst h
      obtain ⟨listed, hlisted, h⟩ := bind_eq_ok.mp h
      obtain ⟨⟨deletes, before⟩, hdeletes, h⟩ := bind_eq_ok.mp h
      cases h
      exact ⟨rfl, _, hdeletes, .inr ⟨selector, listed, hlisted, List.filter_sublist⟩⟩

/-- What a server plans for a build is a plan for it. -/
theorem for_of_plan {b : Build} {o : ApplyOptions} {s t : S} {p : Plan}
    (h : server.plan b o s = (.ok p, t)) : p.For b := by
  obtain ⟨hchanges, live, hdeletes, -⟩ := exists_live_of_plan h
  exact ⟨hchanges ▸ subject_planDocuments _ _ _ _, live, hdeletes⟩

/-- If objects are listed once, no two deletes are of the same one. -/
theorem nodup_keys_deletes_of_plan {b : Build} {o : ApplyOptions} {s t : S} {p : Plan}
    (hlist : ∀ selector ds, (server.list (server.planDocuments
      (b.documents.filterMap Document.crd?) o.diffContext s b.documents).2 selector).1 = .ok ds →
        (ds.map Document.key).Nodup)
    (h : server.plan b o s = (.ok p, t)) : (p.deletes.map (·.subject.key)).Nodup := by
  obtain ⟨-, live, hdeletes, hlive⟩ := exists_live_of_plan h
  have hnodup : (live.map Document.key).Nodup := by
    rcases hlive with rfl | ⟨selector, listed, hlisted, hsublist⟩
    · exact List.nodup_nil
    · exact (hlist selector listed hlisted).sublist (hsublist.map Document.key)
  have hperm := ((deletes_of_planDeletes hdeletes).1.map Document.key).nodup_iff.mpr hnodup
  rwa [List.map_map] at hperm

end Server

theorem Builder.exists_ofDocuments_of_build {builder : Builder} {ns : Option String} {b : Build}
    (h : builder.build ns = .ok b) : ∃ docs, Build.ofDocuments docs = .ok b := by
  rw [Builder.build, bind_eq_ok] at h
  obtain ⟨_, _, h⟩ := h
  obtain ⟨_, _, h⟩ := bind_eq_ok.mp h
  obtain ⟨staged, _, h⟩ := bind_eq_ok.mp h
  exact ⟨staged.documents, h⟩

namespace Plan

variable {p : Plan} {b : Build}

theorem backward_changeWork {builder : Builder} {ns : Option String}
    (hb : builder.build ns = .ok b) (o : ApplyOptions) : (p.changeWork b o).Backward := by
  obtain ⟨docs, hdocs⟩ := Builder.exists_ofDocuments_of_build hb
  exact fun i _ d hd => lt_of_mem_dependencies hdocs hd

theorem backward_deleteWork (hp : p.For b) (o : ApplyOptions) : (p.deleteWork o).Backward := by
  obtain ⟨live, hdeletes⟩ := hp.deletes
  exact fun i _ d hd => (deletes_of_planDeletes hdeletes).2 i d hd

theorem ascending_changeWork {builder : Builder} {ns : Option String}
    (hb : builder.build ns = .ok b) (o : ApplyOptions) (i : Nat) :
    ((p.changeWork b o).needs i).Pairwise (· < ·) := by
  obtain ⟨docs, hdocs⟩ := Builder.exists_ofDocuments_of_build hb
  obtain ⟨order, horder⟩ := exists_orders_of_ofDocuments hdocs
  exact horder.ascending i

theorem ascending_deleteWork (hp : p.For b) (o : ApplyOptions) (i : Nat) :
    ((p.deleteWork o).needs i).Pairwise (· < ·) := by
  obtain ⟨live, hdeletes⟩ := hp.deletes
  obtain ⟨order, hreverses⟩ := exists_reverses_of_planDeletes hdeletes
  exact hreverses.ascending i

theorem nodup_keys_changes {builder : Builder} {ns : Option String}
    (hstages : ∀ stage ∈ builder.stages, stage.KeepsIndex) (hb : builder.build ns = .ok b)
    (hp : p.For b) : (p.changes.map (·.subject.key)).Nodup := by
  have hkeys := Builder.nodup_keys_of_build hstages hb
  rwa [← hp.changes, List.map_map] at hkeys

end Plan

namespace Work

/-- The entries of changes that are carried out one by one, and the objects after them. -/
def oneByOne (w : Work) (effects : Effects) (objects : Objects) : List Entry × Objects :=
  let (outcomes, objects) := w.sequential (answering effects) objects
  (List.zipWith entry w.changes outcomes, objects)

end Work

/-- The report of a plan that is carried out one by one, and the objects after it. -/
def Plan.oneByOne (p : Plan) (b : Build) (effects : Effects) (objects : Objects) : Report × Objects :=
  let (changed, objects) := (p.changeWork b { concurrency := 1 }).oneByOne effects objects
  let (deleted, objects) := (p.deleteWork { concurrency := 1 }).oneByOne effects objects
  ({ entries := changed ++ deleted }, objects)

/-- It does not depend on the limit. -/
theorem Plan.oneByOne_of_works {p : Plan} {b : Build} {effects : Effects}
    {objects middle last : Objects} {o : ApplyOptions} {changed deleted : List Entry}
    (hchanged : (p.changeWork b o).oneByOne effects objects = (changed, middle))
    (hdeleted : (p.deleteWork o).oneByOne effects middle = (deleted, last)) :
    p.oneByOne b effects objects = ({ entries := changed ++ deleted }, last) := by
  have hfirst : (p.changeWork b { concurrency := 1 }).oneByOne effects objects =
    (changed, middle) := hchanged
  have hsecond : (p.deleteWork { concurrency := 1 }).oneByOne effects middle =
    (deleted, last) := hdeleted
  rw [oneByOne, hfirst]
  dsimp only
  rw [hsecond]

namespace Server

variable {S : Type} {server : Server S} {valid : S → Prop} {objects : S → Objects}
  {effects : Effects} {w : Work} {s : S}

theorem oneByOne_carryOut (hserver : server.Local valid objects effects) (hs : valid s)
    (hw : w.Backward) (hlimit : 0 < w.limit) (hapart : effects.Apart w.changes) :
    w.oneByOne effects (objects s) =
      (w.entries (server.carryOut w s).1, objects (server.carryOut w s).2) := by
  obtain ⟨houtcomes, hobjects⟩ := carryOut_eq_sequential hserver hs hw hlimit hapart
  refine Prod.ext (List.ext_getElem? fun i => ?_) hobjects.symm
  change (List.zipWith Work.entry w.changes
    (w.sequential (Work.answering effects) (objects s)).1)[i]? = (w.entries _)[i]?
  rw [List.getElem?_zipWith, w.getElem?_entries, houtcomes i]
  cases hc : w.changes[i]? with
  | none => rfl
  | some c =>
      have hi : i < (w.sequential (Work.answering effects) (objects s)).1.length := by
        rw [w.length_sequential]
        exact (List.getElem?_eq_some_iff.mp hc).1
      rw [List.getElem?_eq_getElem hi]
      rfl

/-- The result of each operation of a plan depends on its object alone, and no two operations that
may be in flight at one time have the same object. Applying is not cancelled. -/
structure Separate (server : Server S) (p : Plan) (valid : S → Prop) (objects : S → Objects)
    (effects : Effects) : Prop where
  acts : server.Local valid objects effects
  changes : effects.Apart p.changes
  deletes : effects.Apart p.deletes

/-- Applying a build gives the report of its plan carried out one by one and leaves the same
objects, whatever the limit, and whatever the order in which calls end. The report has the entries
of the changes and then those of the deletes, each with the outcome that it is to have: calls of
changes answer as their objects are at first, and those of deletes as the changes leave them. -/
theorem execute_eq_oneByOne {builder : Builder} {ns : Option String} {b : Build} {p : Plan}
    (hb : builder.build ns = .ok b) (hp : p.For b)
    (hserver : server.Separate p valid objects effects) (hs : valid s) (o : ApplyOptions) :
    ∃ changed deleted : List Entry,
      (server.execute b p o s).result = .ok { entries := changed ++ deleted } ∧
      p.oneByOne b effects (objects s) =
        ({ entries := changed ++ deleted }, objects (server.execute b p o s).state) ∧
      (p.changeWork b o).Accounted (effects.answer (objects s)) changed ∧
      (p.deleteWork o).Accounted
        (effects.answer ((p.changeWork b o).oneByOne effects (objects s)).2) deleted ∧
      ∀ e ∈ changed ++ deleted, e.outcome ≠ .cancelled := by
  have hlocal := hserver.acts
  have hlimit : 0 < o.limit := Nat.lt_of_lt_of_le Nat.one_pos (le_max_right _ _)
  have hvalid := (follows_carryOut (w := p.changeWork b o) hlocal.fair hs).valid_right
  have hdone := (follows_carryOut (w := p.deleteWork o) hlocal.fair hvalid).valid_right
  have hfirst := p.backward_changeWork hb o
  have hsecond := Plan.backward_deleteWork hp o
  have hchanged := oneByOne_carryOut hlocal hs hfirst hlimit hserver.changes
  have hdeleted := oneByOne_carryOut hlocal hvalid hsecond hlimit hserver.deletes
  have hchanges := accounted_carryOut hlocal hs hfirst hlimit hserver.changes
    (p.ascending_changeWork hb o)
  have hdeletes := accounted_carryOut hlocal hvalid hsecond hlimit hserver.deletes
    (Plan.ascending_deleteWork hp o)
  have hmiddle : ((p.changeWork b o).oneByOne effects (objects s)).2 =
      objects (server.carryOut (p.changeWork b o) s).2 := by rw [hchanged]
  rw [← hmiddle] at hdeletes
  refine ⟨_, _, ?_, ?_, hchanges, hdeletes, ?_⟩
  · rw [execute]
    dsimp only
    rw [(hlocal.ask _ hdone).1, Bool.false_and]
  · rw [Plan.oneByOne_of_works hchanged hdeleted]
    exact Prod.ext rfl (hlocal.ask _ hdone).2.2.symm
  · intro e he
    exact (List.mem_append.mp he).elim (hchanges.ne_cancelled e) (hdeletes.ne_cancelled e)

def settingsBuilder : Builder where
  documents := (configuration "apps").reverse
  stages := [.crds, .namespaces]

def quota : List (Key × String) := [(⟨"Namespace", none, "apps"⟩, "quota exceeded")]

def limited : Simulation := { cluster := { refused := quota }, latency := some 5 }

theorem undisturbed_limited : limited.Undisturbed quota :=
  ⟨List.nodup_nil, rfl, rfl, rfl, rfl, rfl⟩

theorem separate_settings : Simulation.server.Separate settingsPlan (Simulation.Undisturbed quota)
    (fun s => s.cluster.find?) (MemoryCluster.effects quota) where
  acts := Simulation.server_local quota
  changes := by decide +kernel
  deletes := by decide +kernel

/-- A namespace is refused, so the configuration in it is skipped. -/
theorem execute_limited_eq_oneByOne :
    settingsBuilder.build none = .ok settingsBuild ∧ settingsPlan.For settingsBuild ∧
      Simulation.server.Separate settingsPlan (Simulation.Undisturbed quota)
        (fun s => s.cluster.find?) (MemoryCluster.effects quota) ∧
      limited.Undisturbed quota ∧
      ∃ entries, (Simulation.server.execute settingsBuild settingsPlan {} limited).result =
          .ok { entries := entries } ∧
        (settingsPlan.oneByOne settingsBuild (MemoryCluster.effects quota)
          limited.cluster.find?).1 = { entries := entries } ∧
        ∀ e ∈ entries, e.outcome ≠ .cancelled := by
  have hbuild : settingsBuilder.build none = .ok settingsBuild := by decide +kernel
  have hplan : settingsPlan.For settingsBuild :=
    ⟨by decide +kernel, configuration "old", by decide +kernel⟩
  refine ⟨hbuild, hplan, separate_settings, undisturbed_limited, ?_⟩
  obtain ⟨changed, deleted, hresult, hreference, -, -, hnone⟩ :=
    execute_eq_oneByOne hbuild hplan separate_settings undisturbed_limited {}
  exact ⟨_, hresult, congrArg Prod.fst hreference, hnone⟩

/-- The skipped entry names the namespace. -/
example :
    (Simulation.server.execute settingsBuild settingsPlan {} limited).result.map
      (fun r => r.entries.map (·.outcome)) =
      .ok [.failed (MemoryCluster.internalError "quota exceeded").message,
        .skipped "Namespace/apps", .deleted, .deleted] := by
  decide +kernel

end Server

namespace MemoryCluster

/-- A stage that moves every document to one namespace, and leaves the index as it is. -/
def shopOnly : Stage where
  name := "shop-only"
  run _ s := (.ok (), s.map fun d => d.setNs (some "shop"))

def settingsIn (ns : String) : Document := (Document.new "v1" "ConfigMap" "settings").setNs (some ns)

/-- Two documents, until the stage gives them one identity. -/
def twins : Builder where
  documents := [settingsIn "left", settingsIn "right"]
  stages := [shopOnly]

def sharedBuild : Build := ⟨[settingsIn "shop", settingsIn "shop"], [[], []]⟩

def sharedPlan : Plan := { changes := sharedBuild.documents.map .create }

/-- Of two documents that share an object, the one whose call ends first is created. The other one
fails. -/
theorem execute_sharedBuild :
    ((server List.head?).plan sharedBuild {} {}).1.map Plan.changes = .ok sharedPlan.changes ∧
      ((server List.head?).execute sharedBuild sharedPlan {} {}).result.map
        (fun r => r.entries.map (·.outcome)) =
          .ok [.created, .failed (alreadyExists (settingsIn "shop").key).message] ∧
      ((server List.getLast?).execute sharedBuild sharedPlan {} {}).result.map
        (fun r => r.entries.map (·.outcome)) =
          .ok [.failed (alreadyExists (settingsIn "shop").key).message, .created] := by
  refine ⟨?_, ?_, ?_⟩
  · decide +kernel
  · decide +kernel
  · decide +kernel

/-- So what a plan comes to can depend on the order in which calls end, if two operations share an
object. -/
theorem not_forall_execute_eq_oneByOne :
    ¬ ∀ (S : Type) (server : Server S) (valid : S → Prop) (objects : S → Objects)
        (effects : Effects) (builder : Builder) (ns : Option String) (b : Build) (p : Plan) (s : S)
        (o : ApplyOptions),
      builder.build ns = .ok b → p.For b → server.Local valid objects effects → valid s →
        (server.execute b p o s).result = .ok (p.oneByOne b effects (objects s)).1 := by
  intro h
  have hbuild : twins.build none = .ok sharedBuild := by decide +kernel
  have hplan : sharedPlan.For sharedBuild := ⟨by decide +kernel, [], rfl⟩
  have hresult (next : List (Nat × Mutation) → Option (Nat × Mutation))
      (hnext : ∀ calls, calls ≠ [] → ∃ e ∈ calls, next calls = some e) :=
    h MemoryCluster (server next) _ find? (effects []) twins none sharedBuild sharedPlan {} {}
      hbuild hplan (server_local hnext) ⟨List.nodup_nil, rfl⟩
  have hfirst := hresult List.head? fun calls hcalls =>
    ⟨_, List.head_mem hcalls, List.head?_eq_some_head hcalls⟩
  have hlast := hresult List.getLast? fun calls hcalls =>
    ⟨_, List.getLast_mem hcalls, List.getLast?_eq_some_getLast hcalls⟩
  obtain ⟨-, hahead, hbehind⟩ := execute_sharedBuild
  rw [hfirst] at hahead
  rw [hlast, hahead] at hbehind
  cases hbehind

end MemoryCluster

end Rollout
