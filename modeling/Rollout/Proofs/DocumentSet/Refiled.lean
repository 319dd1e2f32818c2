import Rollout.Proofs.DocumentSet.Collected
/-!
Filing the documents of a set anew after they were changed in place. Whatever the index has come
to, the documents are filed under the identities that they have now, if these are distinct, and
otherwise up to the first that repeats one.
-/

namespace Rollout

namespace DocumentSet

variable {s t : DocumentSet}

/-- The documents in order, each with its source. -/
def sourced (s : DocumentSet) : List (Document × String) := Ordered.values s.entries

/-- A set of these documents, each of which is found under its identity, and nothing else. -/
structure Holds (t : DocumentSet) (docs : List (Document × String)) : Prop where
  sourced_eq : t.sourced = docs
  found : ∀ before d source after, docs = before ++ (d, source) :: after →
    t.find? d.key = some d ∧ t.has d.key = true ∧ t.source? d.key = some source ∧
      (t.remove d.key).1 = some d ∧ (t.remove d.key).2.sourced = before ++ after
  lost : ∀ k, (∀ e ∈ docs, e.1.key ≠ k) →
    t.find? k = none ∧ t.has k = false ∧ t.source? k = none ∧ t.remove k = (none, t)

/-- What comes of filing documents one after the other in a new set. -/
inductive Refiled (docs : List (Document × String)) : Except BuildError Unit × DocumentSet → Prop
  | done {t : DocumentSet} : Distinct (docs.map (·.1)) → t.Holds docs → Refiled docs (.ok (), t)
  | stopped {before after : List (Document × String)} {d first : Document}
      {source firstSource : String} {t : DocumentSet} :
      docs = before ++ (d, source) :: after → Distinct (before.map (·.1)) →
      (first, firstSource) ∈ before → first.key = d.key → t.Holds before →
      Refiled docs (.error (.duplicateDocument d.key [firstSource, source]), t)

/-- Where the index agrees with the identities, documents are found by them. -/
theorem Indexed.holds (ht : t.Indexed) : t.Holds t.sourced where
  sourced_eq := rfl
  found := by
    intro before d source after hdocs
    obtain ⟨es, fs, hentries, rfl, hfs⟩ := List.map_eq_append_iff.mp hdocs
    obtain ⟨e, fs, rfl, he, rfl⟩ := List.map_eq_cons_iff.mp hfs
    obtain ⟨k, d, source⟩ := e
    cases he
    have hmem : (k, d, source) ∈ t.entries := by
      rw [hentries]
      exact List.mem_append_right _ List.mem_cons_self
    obtain rfl : k = d.key := ht.filed _ hmem
    obtain ⟨hfind, hsource⟩ := ht.find?_key hmem
    have hbefore : d.key ∉ Ordered.keys es := by
      have hnodup := ht.nodup
      rw [keys, hentries, Ordered.keys, List.map_append, List.map_cons] at hnodup
      exact fun hin => List.disjoint_of_nodup_append hnodup hin List.mem_cons_self
    refine ⟨hfind, ?_, hsource, hfind, ?_⟩
    · exact Ordered.has_iff.mpr (Ordered.mem_keys_of_mem hmem)
    · rw [sourced, remove, hentries, Ordered.remove_append_cons hbefore, Ordered.values,
        List.map_append]
  lost := by
    intro k hk
    have hnone : Ordered.find? k t.entries = none := by
      rw [Ordered.find?_eq_none_iff]
      intro hin
      obtain ⟨e, he, rfl⟩ := List.mem_map.mp hin
      exact hk e.2 (List.mem_map_of_mem he) (ht.filed e he).symm
    have hfind : t.find? k = none := by rw [find?, hnone, Option.map_none]
    refine ⟨hfind, ?_, ?_, ?_⟩
    · rw [has, Ordered.has, hnone, Option.isSome_none]
    · rw [source?, hnone, Option.map_none]
    · rw [remove, hfind, Ordered.remove_eq_self hnone]

theorem insertAll_append {as : List (Document × String)}
    (h : insertAll as s = (.ok (), t)) (bs : List (Document × String)) :
    insertAll (as ++ bs) s = insertAll bs t := by
  induction as generalizing s with
  | nil =>
      cases h
      rfl
  | cons e as ih =>
      rw [insertAll] at h
      rw [List.cons_append, insertAll]
      split at h
      · exact ih h
      · cases h

theorem insertAll_cons_of_source? {d : Document} {source first : String}
    (h : s.source? d.key = some first) (ds : List (Document × String)) :
    insertAll ((d, source) :: ds) s =
      (.error (.duplicateDocument d.key [first, source]), s) := by
  rw [insertAll, insert, h]

/-- The set that holds documents of distinct identities. -/
theorem exists_insertAll_empty {docs : List (Document × String)}
    (h : Distinct (docs.map (·.1))) :
    ∃ t, insertAll docs {} = (.ok (), t) ∧ t.Holds docs := by
  have hall := indexed_empty.insertAll_eq_ok docs h
  have hindexed := indexed_empty.insertAll docs
  rw [hall] at hindexed
  refine ⟨_, hall, ?_⟩
  have hholds := hindexed.holds
  have hsourced : sourced ⟨[] ++ docs.map fun e => (e.1.key, e.1, e.2)⟩ = docs := by
    rw [sourced, Ordered.values, List.nil_append, List.map_map]
    exact List.map_id docs
  rwa [hsourced] at hholds

theorem refiled_insertAll (docs : List (Document × String)) :
    Refiled docs (insertAll docs {}) := by
  by_cases h : Distinct (docs.map (·.1))
  · obtain ⟨t, hall, hholds⟩ := exists_insertAll_empty h
    rw [hall]
    exact .done h hholds
  · rw [Distinct, List.map_map] at h
    have hnone : (([] : List (Document × String)).map (Document.key ∘ Prod.fst)).Nodup :=
      List.nodup_nil
    obtain ⟨before, ⟨d, source⟩, after, rfl, hdistinct, htaken⟩ := exists_first_repeat hnone h
    rw [List.nil_append] at hdistinct htaken
    rw [← List.map_map] at hdistinct
    obtain ⟨t, hall, hholds⟩ := exists_insertAll_empty hdistinct
    obtain ⟨⟨first, firstSource⟩, hfirst, hkey⟩ := List.mem_map.mp htaken
    obtain ⟨pre, post, hpre⟩ := List.append_of_mem hfirst
    obtain ⟨-, -, hsource, -, -⟩ := hholds.found pre first firstSource post hpre
    change first.key = d.key at hkey
    rw [hkey] at hsource
    rw [insertAll_append hall, insertAll_cons_of_source? hsource]
    exact .stopped rfl hdistinct hfirst hkey hholds

theorem Refiled.ok_iff {docs : List (Document × String)}
    {r : Except BuildError Unit × DocumentSet} (h : Refiled docs r) :
    r.1 = .ok () ↔ Distinct (docs.map (·.1)) := by
  cases h with
  | done hdistinct _ => exact iff_of_true rfl hdistinct
  | @stopped before after d first source firstSource t hdocs _ hfirst hkey _ =>
      refine iff_of_false nofun fun hdistinct => ?_
      rw [hdocs, Distinct, List.map_append, List.map_cons, List.map_append, List.map_cons]
        at hdistinct
      refine List.disjoint_of_nodup_append hdistinct ?_ List.mem_cons_self
      exact List.mem_map.mpr ⟨first, List.mem_map_of_mem hfirst, hkey⟩

/-- However a set was filled and whatever became of its documents in place, they can be filed anew
exactly if the identities that they have now are distinct. They are then found by these and by
nothing else. -/
theorem refiled_rekey (s : DocumentSet) :
    (s.rekey.1 = .ok () ↔ Distinct s.documents) ∧ Refiled s.sourced s.rekey :=
  have h := refiled_insertAll s.sourced
  ⟨h.ok_iff, h⟩

/-- Two configurations, `a` and `b`, that were given these names in place. -/
def renamedTo (a b : String) : DocumentSet where
  entries := [(⟨"ConfigMap", none, "a"⟩, .new "v1" "ConfigMap" a, "one"),
    (⟨"ConfigMap", none, "b"⟩, .new "v1" "ConfigMap" b, "two")]

/-- Documents may exchange their identities. -/
example : (renamedTo "b" "a").rekey.1 = .ok () ∧
    (renamedTo "b" "a").rekey.2.source? ⟨"ConfigMap", none, "b"⟩ = some "one" := by decide

/-- The second of two documents of one name is refused. -/
example : (renamedTo "b" "b").rekey.1 =
      .error (.duplicateDocument ⟨"ConfigMap", none, "b"⟩ ["one", "two"]) ∧
    (renamedTo "b" "b").rekey.2.documents = [.new "v1" "ConfigMap" "b"] := by decide

end DocumentSet

end Rollout
