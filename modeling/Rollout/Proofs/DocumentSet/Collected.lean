import Mathlib.Data.List.Induction
import Rollout.Proofs.Document.Agreement
import Rollout.Proofs.DocumentSet.Indexed
/-!
What the passes over a set of documents come to: which documents they leave, and whether they
fail. Sets that hold the same documents in another order, up to the canonical form, still do
after every pass.
-/

namespace Rollout

/-- No two documents have the same identity. -/
def Distinct (docs : List Document) : Prop := (docs.map Document.key).Nodup

instance (docs : List Document) : Decidable (Distinct docs) :=
  inferInstanceAs (Decidable (docs.map Document.key).Nodup)

theorem Distinct.of_append {docs more : List Document} (h : Distinct (docs ++ more)) :
    Distinct docs := by
  rw [Distinct, List.map_append] at h
  exact h.of_append_left

/-- Where labels repeat, there is a first item with the label of an earlier one. -/
theorem exists_first_repeat {α β : Type} {f : α → β} {given l : List α}
    (hgiven : (given.map f).Nodup) (h : ¬ ((given ++ l).map f).Nodup) :
    ∃ as a bs, l = as ++ a :: bs ∧ ((given ++ as).map f).Nodup ∧ f a ∈ (given ++ as).map f := by
  induction l using List.reverseRecOn with
  | nil =>
      rw [List.append_nil] at h
      exact absurd hgiven h
  | append_singleton l a ih =>
      by_cases hl : ((given ++ l).map f).Nodup
      · refine ⟨l, a, [], rfl, hl, ?_⟩
        by_contra ha
        rw [← List.append_assoc, List.map_append, List.map_singleton,
          ← List.concat_eq_append] at h
        exact h (hl.concat ha)
      · obtain ⟨as, b, bs, rfl, hnodup, hb⟩ := ih hl
        exact ⟨as, b, bs ++ [a], by simp, hnodup, hb⟩

/-- A result is the set of these documents, where the condition holds, and otherwise none. -/
structure Yields (x : Except BuildError DocumentSet) (p : Prop) (docs : List Document) : Prop where
  ok : p → ∃ s, x = .ok s ∧ s.Indexed ∧ s.documents = docs
  error : ¬ p → ∃ e, x = .error e

namespace Yields

variable {x : Except BuildError DocumentSet} {f : DocumentSet → Except BuildError DocumentSet}
  {p q : Prop} {docs more : List Document}

theorem congr (h : Yields x p docs) (hpq : p ↔ q) : Yields x q docs :=
  ⟨fun hq => h.ok (hpq.mpr hq), fun hq => h.error fun hp => hq (hpq.mp hp)⟩

/-- Steps one after the other; the second is told what the first leaves. -/
theorem bind (h : Yields x p docs)
    (hf : ∀ s, s.Indexed → s.documents = docs → Yields (f s) q more) :
    Yields (x >>= f) (p ∧ q) more := by
  constructor
  · rintro ⟨hp, hq⟩
    obtain ⟨s, rfl, hs, hdocs⟩ := h.ok hp
    exact (hf s hs hdocs).ok hq
  · intro hpq
    by_cases hp : p
    · obtain ⟨s, rfl, hs, hdocs⟩ := h.ok hp
      exact (hf s hs hdocs).error fun hq => hpq ⟨hp, hq⟩
    · obtain ⟨e, rfl⟩ := h.error hp
      exact ⟨e, rfl⟩

end Yields

namespace DocumentSet

/-- The set after a step, if the step did not fail. -/
def result {α : Type} (r : Except BuildError α × DocumentSet) : Except BuildError DocumentSet :=
  r.1.map fun _ => r.2

variable {s : DocumentSet}

theorem documents_append (s : DocumentSet) (es : Ordered Key (Document × String)) :
    (DocumentSet.mk (s.entries ++ es)).documents = s.documents ++ es.map (·.2.1) := by
  simp [documents, Ordered.values]

namespace Indexed

variable (hs : s.Indexed)

include hs

theorem has_iff {k : Key} : s.has k = true ↔ k ∈ s.documents.map Document.key := by
  rw [has, Ordered.has_iff, hs.map_key]
  rfl

/-- A document with an identity of its own is added at the end. -/
theorem insert_eq_ok {d : Document} (hd : d.key ∉ s.documents.map Document.key) (source : String) :
    s.insert d source = .ok ⟨s.entries ++ [(d.key, d, source)]⟩ := by
  rw [hs.map_key] at hd
  have hsource : s.source? d.key = none := by
    rw [source?, Option.map_eq_none_iff, Ordered.find?_eq_none_iff]
    exact hd
  rw [DocumentSet.insert, hsource, ← Ordered.put_eq_append hd]

theorem insert_eq_error {d : Document} (hd : d.key ∈ s.documents.map Document.key)
    (source : String) :
    ∃ first, s.insert d source = .error (.duplicateDocument d.key [first, source]) := by
  rw [hs.map_key] at hd
  cases hsource : s.source? d.key with
  | none =>
      rw [source?, Option.map_eq_none_iff, Ordered.find?_eq_none_iff] at hsource
      exact absurd hd hsource
  | some first => exact ⟨first, by rw [DocumentSet.insert, hsource]⟩

theorem yields_insert (d : Document) (source : String) :
    Yields (s.insert d source) (d.key ∉ s.documents.map Document.key) (s.documents ++ [d]) := by
  constructor
  · intro hd
    have hok := hs.insert_eq_ok hd source
    exact ⟨_, hok, hs.insert hok, documents_append s _⟩
  · intro hd
    obtain ⟨first, herror⟩ := hs.insert_eq_error (not_not.mp hd) source
    exact ⟨_, herror⟩

theorem distinct : Distinct s.documents := by
  rw [Distinct, hs.map_key]
  exact hs.nodup

/-- Documents that are added one by one, as a step and the rest. -/
theorem yields_cons {d : Document} {source : String} {f : DocumentSet → Except BuildError DocumentSet}
    {p : Prop} {rest : List Document}
    (hf : ∀ t, t.Indexed → t.documents = s.documents ++ [d] →
      Yields (f t) (p ∧ Distinct (t.documents ++ rest)) (t.documents ++ rest)) :
    Yields (s.insert d source >>= f) (p ∧ Distinct (s.documents ++ d :: rest))
      (s.documents ++ d :: rest) := by
  have hrest : ∀ t, t.Indexed → t.documents = s.documents ++ [d] →
      Yields (f t) (p ∧ Distinct (s.documents ++ d :: rest)) (s.documents ++ d :: rest) := by
    intro t ht hdocs
    have hyields := hf t ht hdocs
    rwa [hdocs, List.append_assoc, List.singleton_append] at hyields
  refine ((hs.yields_insert d source).bind hrest).congr
    (and_iff_right_of_imp fun h hd => ?_)
  have hdistinct := h.2
  rw [Distinct, List.map_append, List.map_cons] at hdistinct
  exact List.disjoint_of_nodup_append hdistinct hd List.mem_cons_self

/-- Documents with identities of their own are added in their order. -/
theorem insertAll_eq_ok (ds : List (Document × String))
    (h : Distinct (s.documents ++ ds.map (·.1))) :
    DocumentSet.insertAll ds s =
      (.ok (), ⟨s.entries ++ ds.map fun e => (e.1.key, e.1, e.2)⟩) := by
  induction ds generalizing s with
  | nil => rw [DocumentSet.insertAll, List.map_nil, List.append_nil]
  | cons e ds ih =>
      have hdistinct := h
      rw [Distinct, List.map_append, List.map_cons, List.map_cons] at hdistinct
      have hnew : e.1.key ∉ s.documents.map Document.key := fun he =>
        List.disjoint_of_nodup_append hdistinct he List.mem_cons_self
      have hok := hs.insert_eq_ok hnew e.2
      rw [DocumentSet.insertAll, hok]
      dsimp only
      rw [ih (hs.insert hok) (by simpa [documents_append] using h)]
      simp

/-- The first document whose identity is taken is refused. -/
theorem insertAll_eq_error (ds : List (Document × String))
    (h : ¬ Distinct (s.documents ++ ds.map (·.1))) :
    ∃ k sources, (DocumentSet.insertAll ds s).1 = .error (.duplicateDocument k sources) := by
  induction ds generalizing s with
  | nil =>
      rw [List.map_nil, List.append_nil] at h
      exact absurd hs.distinct h
  | cons e ds ih =>
      rw [DocumentSet.insertAll]
      by_cases hnew : e.1.key ∈ s.documents.map Document.key
      · obtain ⟨first, herror⟩ := hs.insert_eq_error hnew e.2
        exact ⟨_, _, by rw [herror]⟩
      · have hok := hs.insert_eq_ok hnew e.2
        rw [hok]
        exact ih (hs.insert hok) (by simpa [documents_append] using h)

theorem yields_insertAll (ds : List (Document × String)) :
    Yields (result (DocumentSet.insertAll ds s)) (Distinct (s.documents ++ ds.map (·.1)))
      (s.documents ++ ds.map (·.1)) := by
  constructor
  · intro h
    have hall := hs.insertAll_eq_ok ds h
    have hindexed := hs.insertAll ds
    rw [hall] at hindexed
    refine ⟨_, by rw [hall]; rfl, hindexed, ?_⟩
    rw [documents_append, List.map_map]
    rfl
  · intro h
    obtain ⟨k, sources, herror⟩ := hs.insertAll_eq_error ds h
    exact ⟨_, map_eq_error.mpr herror⟩

end Indexed

theorem documents_map (s : DocumentSet) (f : Document → Document) :
    (s.map f).documents = s.documents.map f := by
  simp [documents, DocumentSet.map, Ordered.mapValues, Ordered.values]

/-- A document in a namespace, if it lacks one. -/
def placed (crds : List CrdRef) (ns : String) (d : Document) : Document :=
  if lacksNs crds d then d.setNs (some ns) else d

theorem crd?_placed (crds : List CrdRef) (ns : String) (d : Document) :
    (placed crds ns d).crd? = d.crd? := by
  rw [placed]
  split
  · exact d.crd?_setNs (some ns)
  · rfl

theorem result_map {α β : Type} (r : Except BuildError α × DocumentSet) (f : α → β) :
    result (r.1.map f, r.2) = result r := by
  obtain ⟨x, s⟩ := r
  cases x <;> rfl

/-- The set with every document in its place, and in the namespace if it lacks one. -/
def inNs (s : DocumentSet) (ns : String) : DocumentSet where
  entries := s.entries.map fun e =>
    ((placed s.crds ns e.2.1).key, placed s.crds ns e.2.1, e.2.2)

theorem documents_inNs (s : DocumentSet) (ns : String) :
    (s.inNs ns).documents = s.documents.map (placed s.crds ns) := by
  simp [documents, inNs, Ordered.values]

theorem placed_eq_self {ns : String}
    (h : (s.documents.filter (lacksNs s.crds)).length = 0) :
    ∀ d ∈ s.documents, placed s.crds ns d = d := by
  intro d hd
  exact if_neg (List.filter_eq_nil_iff.mp (List.length_eq_zero_iff.mp h) d hd)

namespace Indexed

variable (hs : s.Indexed) {ns : String}

include hs

/-- The default namespace files every document under its new identity. -/
theorem defaultNs_eq_ok (h : Distinct (s.documents.map (placed s.crds ns))) :
    s.defaultNs ns = (.ok (s.documents.filter (lacksNs s.crds)).length, s.inNs ns) := by
  rw [DocumentSet.defaultNs]
  dsimp only
  split
  · next hcount =>
      have hsame : ∀ e ∈ s.entries,
          ((placed s.crds ns e.2.1).key, placed s.crds ns e.2.1, e.2.2) = id e := by
        intro e he
        have hd : e.2.1 ∈ s.documents := List.mem_map_of_mem (List.mem_map_of_mem he)
        rw [placed_eq_self hcount _ hd, ← hs.filed e he]
        rfl
      rw [hcount, inNs, List.map_congr_left hsame, List.map_id]
  · have hrekey := indexed_empty.insertAll_eq_ok
      (Ordered.values (s.map (placed s.crds ns)).entries)
      (by rwa [← documents_map] at h)
    change (Except.map _ (DocumentSet.rekey (s.map (placed s.crds ns))).1,
      (DocumentSet.rekey (s.map (placed s.crds ns))).2) = _
    rw [rekey, hrekey]
    simp [inNs, Ordered.values, DocumentSet.map, Ordered.mapValues, Except.map]

theorem defaultNs_eq_error (h : ¬ Distinct (s.documents.map (placed s.crds ns))) :
    ∃ k sources, (s.defaultNs ns).1 = .error (.duplicateDocument k sources) := by
  rw [DocumentSet.defaultNs]
  dsimp only
  split
  · next hcount =>
      have hplaced : ∀ d ∈ s.documents, placed s.crds ns d = id d := placed_eq_self hcount
      rw [List.map_congr_left hplaced, List.map_id] at h
      exact absurd hs.distinct h
  · have hrekey := indexed_empty.insertAll_eq_error
      (Ordered.values (s.map (placed s.crds ns)).entries)
      (by rwa [← documents_map] at h)
    obtain ⟨k, sources, herror⟩ := hrekey
    exact ⟨k, sources, map_eq_error.mpr herror⟩

/-- The default namespace, where no two documents get the same identity by it. -/
theorem yields_defaultNs (ns : String) :
    Yields (result (s.defaultNs ns)) (Distinct (s.documents.map (placed s.crds ns)))
      (s.documents.map (placed s.crds ns)) := by
  constructor
  · intro h
    have hdone := hs.defaultNs_eq_ok h
    have hindexed := hs.defaultNs ns
    rw [hdone] at hindexed
    exact ⟨_, by rw [hdone]; rfl, hindexed, documents_inNs s ns⟩
  · intro h
    obtain ⟨k, sources, herror⟩ := hs.defaultNs_eq_error h
    exact ⟨_, map_eq_error.mpr herror⟩

end Indexed

theorem key_synthesized (name : String) : (synthesized name).key = namespaceKey name := rfl

/-- The names whose namespace is not among the documents. -/
def missing (docs : List Document) (names : List String) : List String :=
  names.filter fun n => namespaceKey n ∉ docs.map Document.key

theorem missing_append {docs : List Document} {name : String} {names : List String}
    (h : name ∉ names) : missing (docs ++ [synthesized name]) names = missing docs names := by
  refine List.filter_congr fun n hn => ?_
  have hne : namespaceKey n ≠ namespaceKey name := by
    intro heq
    obtain rfl : n = name := congrArg Key.name heq
    exact h hn
  simp [key_synthesized, hne]

/-- The set with a namespace added at the end for each name. -/
def withNamespaces (s : DocumentSet) (names : List String) : DocumentSet where
  entries := s.entries ++ names.map fun n => (namespaceKey n, synthesized n, synthesizedSource)

theorem documents_withNamespaces (s : DocumentSet) (names : List String) :
    (s.withNamespaces names).documents = s.documents ++ names.map synthesized := by
  rw [withNamespaces, documents_append, List.map_map]
  rfl

/-- Namespaces are added without fail, each once. -/
theorem Indexed.addNamespaces_eq (hs : s.Indexed) {names : List String} (hnames : names.Nodup) :
    DocumentSet.addNamespaces names s =
      (.ok (missing s.documents names), s.withNamespaces (missing s.documents names)) := by
  induction names generalizing s with
  | nil => simp [DocumentSet.addNamespaces, missing, withNamespaces]
  | cons name names ih =>
      obtain ⟨hname, hnames⟩ := List.nodup_cons.mp hnames
      rw [DocumentSet.addNamespaces]
      split
      · next hhas =>
          have hmem := hs.has_iff.mp hhas
          have hmissing : missing s.documents (name :: names) = missing s.documents names :=
            List.filter_cons_of_neg (by simpa using hmem)
          rw [hmissing]
          exact ih hs hnames
      · next hhas =>
          have hmem := mt hs.has_iff.mpr hhas
          have hmissing : missing s.documents (name :: names) =
              name :: missing s.documents names :=
            List.filter_cons_of_pos (by simpa using hmem)
          have hok : s.insert (synthesized name) synthesizedSource =
              .ok (s.withNamespaces [name]) :=
            hs.insert_eq_ok (d := synthesized name) hmem synthesizedSource
          have hrest := ih (hs.insert hok) hnames
          rw [documents_withNamespaces, List.map_singleton, missing_append hname] at hrest
          rw [hok, hmissing]
          dsimp only
          rw [hrest]
          simp [Except.map, withNamespaces]

theorem Indexed.yields_addNamespaces (hs : s.Indexed) {names : List String} (hnames : names.Nodup) :
    Yields (result (DocumentSet.addNamespaces names s)) True
      (s.documents ++ (missing s.documents names).map synthesized) := by
  have hadded := hs.addNamespaces_eq hnames
  have hindexed := hs.addNamespaces names
  rw [hadded] at hindexed
  exact ⟨fun _ => ⟨_, by rw [hadded]; rfl, hindexed, documents_withNamespaces s _⟩,
    fun h => absurd trivial h⟩

theorem mem_insertName {name n : String} {names : List String} :
    n ∈ insertName name names ↔ n = name ∨ n ∈ names := by
  induction names with
  | nil => exact List.mem_cons
  | cons m names ih =>
      rw [insertName]
      split
      · next h => simp [h]
      · split
        · exact List.mem_cons
        · rw [List.mem_cons, ih, List.mem_cons]
          exact or_left_comm

theorem pairwise_insertName {name : String} {names : List String} (h : names.Pairwise (· < ·)) :
    (insertName name names).Pairwise (· < ·) := by
  induction names with
  | nil => exact List.pairwise_singleton _ name
  | cons m names ih =>
      obtain ⟨hm, hnames⟩ := List.pairwise_cons.mp h
      rw [insertName]
      split
      · exact h
      · next hne =>
          split
          · next hlt =>
              refine List.pairwise_cons.mpr ⟨fun n hn => ?_, h⟩
              rcases List.mem_cons.mp hn with rfl | hn
              · exact hlt
              · exact lt_trans hlt (hm n hn)
          · next hge =>
              refine List.pairwise_cons.mpr ⟨fun n hn => ?_, ih hnames⟩
              rcases mem_insertName.mp hn with rfl | hn
              · exact lt_of_le_of_ne (not_lt.mp hge) (Ne.symm hne)
              · exact hm n hn

theorem foldl_insertName (ns : List String) {names : List String} (h : names.Pairwise (· < ·)) :
    (ns.foldl (fun names n => insertName n names) names).Pairwise (· < ·) ∧
      ∀ n, n ∈ ns.foldl (fun names n => insertName n names) names ↔ n ∈ names ∨ n ∈ ns := by
  induction ns generalizing names with
  | nil => exact ⟨h, fun n => by simp⟩
  | cons m ns ih =>
      obtain ⟨hpairwise, hmem⟩ := ih (pairwise_insertName h)
      refine ⟨hpairwise, fun n => ?_⟩
      rw [List.foldl_cons, hmem, mem_insertName, List.mem_cons, or_assoc, or_left_comm]

/-- The named namespaces, each once and in order. -/
theorem pairwise_namedNamespaces (s : DocumentSet) : s.namedNamespaces.Pairwise (· < ·) :=
  (foldl_insertName _ List.Pairwise.nil).1

theorem mem_namedNamespaces {s : DocumentSet} {n : String} :
    n ∈ s.namedNamespaces ↔
      n ∈ (s.documents.filter (Document.isNamespaced s.crds)).filterMap Document.ns? := by
  rw [namedNamespaces, (foldl_insertName _ List.Pairwise.nil).2]
  exact or_iff_right List.not_mem_nil

end DocumentSet

end Rollout
