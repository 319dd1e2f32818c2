import Rollout.Proofs.Apply.Soundness
import Rollout.Proofs.Builder.Registration
import Rollout.Proofs.Plan.Reversed
/-!
The order in which objects are deleted. What lives in a namespace goes before it; what is of a type
goes before the definition only where a build has marked it.
-/

namespace Rollout

/-- A call is launched only when all that its change comes after has been done. -/
theorem Work.outcome?_of_call {w : Work} {cancelled : Bool} {history : List Event}
    {pre post : List Act} {i j : Nat} {m : Mutation} {c : Change}
    (htrace : w.trace (w.start cancelled) history = pre ++ .call j m :: post) (hi : i ∈ w.needs j)
    (hc : w.changes[i]? = some c) :
    ((w.start cancelled).after pre).outcome? i = some (.ofAction c.action) := by
  have hlegal : w.Legal history (w.start cancelled) (w.trace (w.start cancelled) history) :=
    legal_trace fun _ he => he
  rw [htrace] at hlegal
  obtain ⟨hpre, hcall, -⟩ := hlegal.split
  have hsound := hpre.sound (sound_start cancelled)
  cases hcall with
  | call _ _ _ _ _ happlied =>
      obtain ⟨o, ho, hsuccess⟩ := happlied i hi
      rw [ho, hsound.eq_ofAction hc ho hsuccess]

variable {live : List Document} {deletes : List Change} {before : List (List Nat)}
  {x y : Document}

/-- An object comes before the namespace that it lives in; it comes before the definition of its
type only if it is marked with it; either way also if its annotation says so. What comes before an
object has been deleted when the call to delete that object is launched. -/
theorem exists_places_of_planDeletes (hdistinct : Distinct live)
    (h : planDeletes live = .ok (deletes, before)) (hx : x ∈ live) (hy : y ∈ live) (hxy : x ≠ y) :
    ∃ i j : Nat, deletes[i]? = some (.delete x) ∧ deletes[j]? = some (.delete y) ∧
      (y.Hosts x →
        (i ∈ before[j]?.getD [] ↔ y.ns? = none ∨ x.Awaits (live.map Document.key) y)) ∧
      (y.Defines x →
        (i ∈ before[j]?.getD [] ↔
          (y.ns? = none ∧ ∃ c, x.markers.requires = some c ∧ c.name = y.name) ∨
            x.Awaits (live.map Document.key) y)) ∧
      (i ∈ before[j]?.getD [] → ∀ (w : Work), w.changes = deletes → w.dependencies = before →
        ∀ cancelled history pre m post,
          w.trace (w.start cancelled) history = pre ++ .call j m :: post →
          ((w.start cancelled).after pre).outcome? i = some .deleted) := by
  obtain ⟨order, hreverses⟩ := exists_reverses_of_planDeletes h
  obtain ⟨i, hi⟩ := hreverses.exists_place hx
  obtain ⟨j, hj⟩ := hreverses.exists_place hy
  have hkey : y.key ≠ x.key := fun hk => hxy (List.inj_on_of_nodup_map hdistinct hx hy hk.symm)
  have hbefore : i ∈ before[j]?.getD [] ↔
      y.key ∈ x.references ∨ x.Awaits (live.map Document.key) y := by
    rw [hreverses.mem_before_iff hdistinct hi hj]
    exact Document.needs_iff (List.mem_map_of_mem hy) hkey
  refine ⟨i, j, hi, hj, fun hhosts => ?_, fun hdefines => ?_, fun hmem => ?_⟩
  · rw [hbefore, hhosts.key_mem_references]
  · rw [hbefore, hdefines.key_mem_references]
  · intro w hchanges hdependencies cancelled history pre m post htrace
    have hneeds : i ∈ w.needs j := by
      rw [Work.needs, hdependencies]
      exact hmem
    exact Work.outcome?_of_call htrace hneeds (hchanges ▸ hi)

open DocumentSet Builder

/-- A namespace and what lives in it. -/
def hosted : List Document := [synthesized "shop", settings.setNs (some "shop")]

def hostedWork : Work where
  changes := [.delete (settings.setNs (some "shop")), .delete (synthesized "shop")]
  dependencies := [[], [0]]
  limit := 4

theorem deleted_of_call_hosted :
    Distinct hosted ∧ planDeletes hosted = .ok (hostedWork.changes, hostedWork.dependencies) ∧
      (synthesized "shop").Hosts (settings.setNs (some "shop")) ∧
      ∀ cancelled history pre m post,
        hostedWork.trace (hostedWork.start cancelled) history = pre ++ .call 1 m :: post →
        ((hostedWork.start cancelled).after pre).outcome? 0 = some .deleted := by
  have hdistinct : Distinct hosted := by
    rw [Distinct]
    decide +kernel
  have hplan : planDeletes hosted = .ok (hostedWork.changes, hostedWork.dependencies) := by
    decide +kernel
  have hhosts : (synthesized "shop").Hosts (settings.setNs (some "shop")) :=
    ⟨by decide +kernel, by decide +kernel⟩
  obtain ⟨i, j, hi, hj, hnamespace, -, hdeleted⟩ := exists_places_of_planDeletes hdistinct hplan
    (List.mem_cons_of_mem _ List.mem_cons_self) List.mem_cons_self (by decide +kernel)
  have hmem := (hnamespace hhosts).mpr (.inl rfl)
  obtain rfl : j = 1 := by
    rcases j with - | - | j
    · cases hmem
    · rfl
    · cases hmem
  obtain rfl : i = 0 := List.mem_singleton.mp hmem
  exact ⟨hdistinct, hplan, hhosts, hdeleted hmem hostedWork rfl rfl⟩

/-- An object that was read from a cluster is not marked, and its definition may go first. -/
theorem not_forall_before :
    ¬ ∀ (live : List Document) (deletes : List Change) (before : List (List Nat))
      (x y : Document), Distinct live → planDeletes live = .ok (deletes, before) → x ∈ live →
      y ∈ live → x ≠ y → y.Hosts x ∨ y.Defines x →
      ∃ i j : Nat, deletes[i]? = some (.delete x) ∧ deletes[j]? = some (.delete y) ∧
        i ∈ before[j]?.getD [] := by
  intro h
  have hdistinct : Distinct [gadget, widgets] := by
    rw [Distinct]
    decide +kernel
  have hplan : planDeletes [gadget, widgets] =
      .ok ([.delete gadget, .delete widgets], [[], []]) := by decide +kernel
  have hdefines : widgets.Defines gadget :=
    ⟨⟨"widgets.example.com", "example.com", "Widget", ["v1"], true⟩, by decide +kernel,
      by decide +kernel⟩
  obtain ⟨i, j, -, -, hmem⟩ := h _ _ _ gadget widgets hdistinct hplan List.mem_cons_self
    (List.mem_cons_of_mem _ List.mem_cons_self) (by decide +kernel) (.inr hdefines)
  rcases j with - | - | j <;> cases hmem

/-- So the definition is deleted although deleting the object fails. -/
example :
    let w : Work := ⟨[.delete gadget, .delete widgets], [[], []], 4⟩
    (w.replay (w.start false) [.ended 0 (.error .cancelled), .ended 1 (.ok ())]).outcomes =
      [some (.failed ClusterError.cancelled.message), some .deleted] := by decide +kernel

end Rollout
