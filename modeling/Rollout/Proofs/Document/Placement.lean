import Mathlib.Data.String.Basic
import Rollout.Proofs.Document.Order
import Rollout.Proofs.Graph.Greedy
/-!
The place of a document in the order of application depends on what the documents are, and not
on the order in which they were gathered.
-/

namespace Rollout

namespace Key

theorem compareNs_eq_compare (a b : Option String) : compareNs a b = Ord.compare a b := by
  cases a <;> cases b <;> rfl

theorem compare_eq_compareLex : (Ord.compare : Key → Key → Ordering) =
    compareLex (compareOn Key.kind) (compareLex (compareOn Key.ns) (compareOn Key.name)) := by
  funext a b
  change Key.compare a b = _
  rw [Key.compare, compareNs_eq_compare]
  rfl

instance : Std.TransOrd Key := by
  unfold Std.TransOrd
  rw [compare_eq_compareLex]
  infer_instance

instance : Std.LawfulEqOrd Key where
  compare_self := Std.ReflCmp.compare_self
  eq_of_compare {a b} h := by
    rw [compare_eq_compareLex, compareLex_eq_eq, compareLex_eq_eq] at h
    obtain ⟨hkind, hns, hname⟩ := h
    obtain ⟨kind, ns, name⟩ := a
    obtain rfl := Std.LawfulEqOrd.eq_of_compare hkind
    obtain rfl := Std.LawfulEqOrd.eq_of_compare hns
    obtain rfl := Std.LawfulEqOrd.eq_of_compare hname
    rfl

end Key

namespace Priority

theorem compare_eq_compareLex : (compare : Priority → Priority → Ordering) =
    compareLex (compareOn fun p => p.category.rank) (compareOn Priority.key) := rfl

instance : Std.TransOrd Priority := by
  unfold Std.TransOrd
  rw [compare_eq_compareLex]
  infer_instance

theorem key_eq_of_compare {p q : Priority} (h : compare p q = .eq) : p.key = q.key := by
  rw [compare_eq_compareLex, compareLex_eq_eq] at h
  exact Std.LawfulEqOrd.eq_of_compare h.2

end Priority

section Lookup

variable {α β : Type} [DecidableEq β] {f : α → β} {l : List α} {b : β} {i : Nat}

/-- The last place of an item with a label. -/
def lastPlace? (f : α → β) (l : List α) (b : β) : Option Nat :=
  ((l.zipIdx.filter (f ·.1 = b)).getLast?).map (·.2)

theorem getElem?_of_lastPlace? (h : lastPlace? f l b = some i) : (l.map f)[i]? = some b := by
  obtain ⟨⟨a, j⟩, hlast, rfl⟩ := Option.map_eq_some_iff.mp h
  obtain ⟨hmem, hab⟩ := List.mem_filter.mp (List.mem_of_getLast? hlast)
  rw [List.getElem?_map, List.mem_zipIdx_iff_getElem?.mp hmem]
  exact congrArg some (of_decide_eq_true hab)

theorem isSome_lastPlace? : (lastPlace? f l b).isSome ↔ b ∈ l.map f := by
  constructor
  · intro h
    obtain ⟨i, hi⟩ := Option.isSome_iff_exists.mp h
    exact List.mem_of_getElem? (getElem?_of_lastPlace? hi)
  · intro h
    obtain ⟨a, ha, rfl⟩ := List.mem_map.mp h
    obtain ⟨i, hi⟩ := List.mem_iff_getElem?.mp ha
    have hmem : (a, i) ∈ l.zipIdx.filter (f ·.1 = f a) :=
      List.mem_filter.mpr ⟨List.mem_zipIdx_iff_getElem?.mpr hi, decide_eq_true rfl⟩
    rw [lastPlace?, Option.isSome_map, List.getLast?_eq_some_getLast (List.ne_nil_of_mem hmem)]
    rfl

/-- Where labels are distinct, the last place is the only one. -/
theorem lastPlace?_eq_some_iff (hnodup : (l.map f).Nodup) :
    lastPlace? f l b = some i ↔ (l.map f)[i]? = some b := by
  refine ⟨getElem?_of_lastPlace?, fun h => ?_⟩
  obtain ⟨j, hj⟩ := Option.isSome_iff_exists.mp (isSome_lastPlace?.mpr (List.mem_of_getElem? h))
  obtain ⟨hi, hib⟩ := List.getElem?_eq_some_iff.mp h
  obtain ⟨hlt, hjb⟩ := List.getElem?_eq_some_iff.mp (getElem?_of_lastPlace? hj)
  rw [hj, hnodup.getElem_inj_iff.mp (hjb.trans hib.symm)]

omit [DecidableEq β] in
theorem eq_of_label_eq (hnodup : (l.map f).Nodup) {j : Nat} {a b : α} (hi : l[i]? = some a)
    (hj : l[j]? = some b) (h : f a = f b) : i = j := by
  have hif : (l.map f)[i]? = some (f a) := by rw [List.getElem?_map, hi]; rfl
  have hjf : (l.map f)[j]? = some (f a) := by rw [List.getElem?_map, hj, h]; rfl
  obtain ⟨hilt, hik⟩ := List.getElem?_eq_some_iff.mp hif
  obtain ⟨hjlt, hjk⟩ := List.getElem?_eq_some_iff.mp hjf
  exact hnodup.getElem_inj_iff.mp (hik.trans hjk.symm)

variable {keys : List Key} {k : Key}

theorem isSome_lastIndex? : (lastIndex? keys k).isSome ↔ k ∈ keys := by
  have h := isSome_lastPlace? (f := id) (l := keys) (b := k)
  rwa [List.map_id] at h

theorem lastIndex?_eq_some_iff (hnodup : keys.Nodup) :
    lastIndex? keys k = some i ↔ keys[i]? = some k := by
  have h := lastPlace?_eq_some_iff (f := id) (l := keys) (b := k) (i := i)
  rw [List.map_id] at h
  exact h hnodup

theorem findSome?_lastIndex? (keys candidates : List Key) :
    candidates.findSome? (lastIndex? keys) =
      (candidates.find? (· ∈ keys)).bind (lastIndex? keys) := by
  induction candidates with
  | nil => rfl
  | cons k candidates ih =>
      rw [List.findSome?_cons]
      cases hk : lastIndex? keys k with
      | none =>
          have hout : k ∉ keys := by simp [← isSome_lastIndex?, hk]
          rw [ih, List.find?_cons_of_neg (by simpa using hout)]
      | some i =>
          have hin : k ∈ keys := by simp [← isSome_lastIndex?, hk]
          rw [List.find?_cons_of_pos (by simpa using hin), Option.bind_some, hk]

end Lookup

namespace Document

/-- The identities, of those given, that a document is to come after. -/
def targets (keys : List Key) (d : Document) : List Key :=
  d.references.filter (· ∈ keys) ++ d.annotatedReferences.filterMap (·.find? (· ∈ keys))

theorem targets_congr {keys keys' : List Key} (h : ∀ k, k ∈ keys ↔ k ∈ keys') (d : Document) :
    d.targets keys = d.targets keys' := by
  rw [targets, targets]
  simp only [h]

/-- The dependencies of a document are where its targets are. -/
theorem mem_dependencies_iff {keys : List Key} (hnodup : keys.Nodup) {d : Document} {i : Nat} :
    i ∈ d.dependencies keys ↔ ∃ k ∈ d.targets keys, keys[i]? = some k := by
  simp only [dependencies, targets, List.mem_append, List.mem_filterMap, List.mem_filter,
    findSome?_lastIndex?, Option.bind_eq_some_iff, lastIndex?_eq_some_iff hnodup, decide_eq_true_iff]
  constructor
  · rintro (⟨k, hk, hi⟩ | ⟨candidates, hc, k, hk, hi⟩)
    · exact ⟨k, .inl ⟨hk, List.mem_of_getElem? hi⟩, hi⟩
    · exact ⟨k, .inr ⟨candidates, hc, hk⟩, hi⟩
  · rintro ⟨k, ⟨hk, -⟩ | ⟨candidates, hc, hk⟩, hi⟩
    · exact .inl ⟨k, hk, hi⟩
    · exact .inr ⟨candidates, hc, k, hk, hi⟩

/-- One document is to come after another. -/
def Needs (keys : List Key) (d e : Document) : Prop := e.key ∈ d.targets keys ∧ e.key ≠ d.key

/-- The document without the marks that its place does not depend on. -/
def plain (d : Document) : Document := { d with markers := { requires := d.markers.requires } }

/-- One document comes before another where neither has to. -/
def Before (d e : Document) : Prop := compare d.priority e.priority = .lt

end Document

section Graph

variable {docs docs' : List Document}

theorem mem_needs_documentGraph (hnodup : (docs.map Document.key).Nodup) {i j : Nat}
    {d e : Document} (hi : docs[i]? = some d) (hj : docs[j]? = some e) :
    j ∈ (documentGraph docs).needs i ↔ d.Needs (docs.map Document.key) e := by
  have hkeys {k : Key} : (docs.map Document.key)[j]? = some k ↔ e.key = k := by
    rw [List.getElem?_map, hj, Option.map_some, Option.some.injEq]
  have hne : j ≠ i ↔ e.key ≠ d.key := by
    rw [not_iff_not]
    constructor
    · rintro rfl
      rw [Option.some.inj (hi.symm.trans hj)]
    · exact eq_of_label_eq hnodup hj hi
  rw [documentGraph, Graph.mem_needs_ofEdges, Document.Needs, hne, List.length_map,
    and_iff_right (List.getElem?_eq_some_iff.mp hi).1]
  refine and_congr_left fun _ => ?_
  rw [List.mem_flatMap]
  constructor
  · rintro ⟨⟨d', i'⟩, hmem, hedge⟩
    obtain ⟨j', hj', heq⟩ := List.mem_map.mp hedge
    obtain ⟨rfl, rfl⟩ := Prod.mk.inj heq
    have hd := List.mem_zipIdx_iff_getElem?.mp hmem
    obtain rfl : d' = d := Option.some.inj (hd.symm.trans hi)
    obtain ⟨k, hk, hkj⟩ := (Document.mem_dependencies_iff hnodup).mp hj'
    rwa [hkeys.mp hkj]
  · intro htarget
    refine ⟨(d, i), List.mem_zipIdx_iff_getElem?.mpr hi, List.mem_map.mpr ⟨j, ?_, rfl⟩⟩
    exact (Document.mem_dependencies_iff hnodup).mpr ⟨_, htarget, hkeys.mpr rfl⟩

/-- Documents of different identities never tie. -/
theorem before_of_precedes (hnodup : (docs.map Document.key).Nodup) {i j : Nat} {d e : Document}
    (hi : docs[i]? = some d) (hj : docs[j]? = some e)
    (h : (documentGraph docs).precedes i j) : d.Before e := by
  have hpriority {k : Nat} {c : Document} (hk : docs[k]? = some c) :
      (documentGraph docs).priorities[k]? = some c.priority := by
    rw [documentGraph, Graph.ofEdges, List.getElem?_map, hk, Option.map_some]
  rw [Graph.precedes_iff (hpriority hi) (hpriority hj)] at h
  rcases h with h | ⟨h, hij⟩
  · exact h
  · have heq := eq_of_label_eq hnodup hi hj (Priority.key_eq_of_compare h)
    omega

/-- The documents of a build are in greedy order. -/
theorem greedy_of_ofDocuments (hnodup : (docs.map Document.key).Nodup) {b : Build}
    (h : Build.ofDocuments docs = .ok b) :
    Greedy (Document.Needs (docs.map Document.key)) Document.Before b.documents := by
  rw [Build.ofDocuments, bind_eq_ok] at h
  obtain ⟨order, horder, hb⟩ := h
  cases hb
  have hsort := mapError_eq_ok.mp horder
  have hg := wellFormed_documentGraph docs
  refine (Graph.greedy_of_sort hg hsort).filterMap (fun i hi => ?_) (fun i _ j _ d hd e he => ?_)
    (fun i _ j _ d hd e he hij => before_of_precedes hnodup hd he hij)
  · have hlt := List.mem_range.mp ((Graph.sorts_of_sort hg hsort).perm.mem_iff.mp hi)
    rw [size_documentGraph] at hlt
    rw [List.getElem?_eq_getElem hlt]
    rfl
  · exact (mem_needs_documentGraph hnodup hd he).symm

/-- Documents can be ordered exactly if what each needs can be given a lower rank. -/
theorem exists_ofDocuments_iff (hnodup : (docs.map Document.key).Nodup) :
    (∃ b, Build.ofDocuments docs = .ok b) ↔
      ∃ rank : Key → Nat, ∀ d ∈ docs, ∀ e ∈ docs, d.Needs (docs.map Document.key) e →
        rank e.key < rank d.key := by
  have hsort : (∃ b, Build.ofDocuments docs = .ok b) ↔
      ∃ order, (documentGraph docs).sort = .ok order := by
    constructor
    · rintro ⟨b, h⟩
      rw [Build.ofDocuments, bind_eq_ok] at h
      obtain ⟨order, horder, -⟩ := h
      exact ⟨order, mapError_eq_ok.mp horder⟩
    · rintro ⟨order, horder⟩
      exact ⟨_, bind_eq_ok.mpr ⟨order, mapError_eq_ok.mpr horder, rfl⟩⟩
  rw [hsort, Graph.exists_sort_iff (wellFormed_documentGraph docs)]
  exact Graph.exists_rank_iff hnodup (size_documentGraph docs) (wellFormed_documentGraph docs)
    fun i j d e => mem_needs_documentGraph hnodup

theorem not_needs_self (keys : List Key) (d : Document) : ¬ d.Needs keys d := fun h => h.2 rfl

theorem before_asymm (d e : Document) (h : d.Before e) : ¬ e.Before d := by
  intro h'
  have hswap : compare d.priority e.priority = (compare e.priority d.priority).swap :=
    Std.OrientedCmp.eq_swap
  rw [h, h'] at hswap
  cases hswap

theorem keys_plain (docs : List Document) :
    (docs.map Document.plain).map Document.key = docs.map Document.key := List.map_map

theorem needs_congr (h : (docs.map Document.plain).Perm (docs'.map Document.plain)) :
    Document.Needs (docs.map Document.key) = Document.Needs (docs'.map Document.key) := by
  have hkeys := h.map Document.key
  rw [keys_plain, keys_plain] at hkeys
  have htargets := Document.targets_congr fun k => hkeys.mem_iff (a := k)
  funext d e
  rw [Document.Needs, Document.Needs, htargets]

theorem nodup_keys_of_perm (h : (docs.map Document.plain).Perm (docs'.map Document.plain))
    (hnodup : (docs.map Document.key).Nodup) : (docs'.map Document.key).Nodup := by
  rw [← keys_plain] at hnodup ⊢
  exact (h.map Document.key).nodup_iff.mp hnodup

theorem greedy_plain {keys : List Key} (h : Greedy (Document.Needs keys) Document.Before docs) :
    Greedy (Document.Needs keys) Document.Before (docs.map Document.plain) := by
  rw [← List.filterMap_eq_map]
  refine h.filterMap (fun _ _ => rfl) (fun d _ e _ x hx y hy => ?_)
    (fun d _ e _ x hx y hy hde => ?_)
  · cases hx
    cases hy
    rfl
  · cases hx
    cases hy
    exact hde

/-- Documents that are gathered in another order are applied in the same one. -/
theorem documents_eq_of_perm (hnodup : (docs.map Document.key).Nodup)
    (h : (docs.map Document.plain).Perm (docs'.map Document.plain)) {b b' : Build}
    (hb : Build.ofDocuments docs = .ok b) (hb' : Build.ofDocuments docs' = .ok b') :
    b.documents.map Document.plain = b'.documents.map Document.plain := by
  have hgreedy := greedy_of_ofDocuments (nodup_keys_of_perm h hnodup) hb'
  rw [← needs_congr h] at hgreedy
  refine (greedy_plain (greedy_of_ofDocuments hnodup hb)).eq_of_perm (not_needs_self _) before_asymm
    (greedy_plain hgreedy) ?_
  exact (((perm_of_ofDocuments hb).map _).trans h).trans ((perm_of_ofDocuments hb').map _).symm

theorem rank_plain {keys : List Key} {rank : Key → Nat} :
    (∀ d ∈ docs, ∀ e ∈ docs, d.Needs keys e → rank e.key < rank d.key) ↔
      ∀ d ∈ docs.map Document.plain, ∀ e ∈ docs.map Document.plain, d.Needs keys e →
        rank e.key < rank d.key := by
  rw [List.forall_mem_map]
  refine forall₂_congr fun d _ => ?_
  rw [List.forall_mem_map]
  rfl

/-- Whether documents can be ordered does not depend on the order in which they are gathered. -/
theorem exists_ofDocuments_iff_of_perm (hnodup : (docs.map Document.key).Nodup)
    (h : (docs.map Document.plain).Perm (docs'.map Document.plain)) :
    (∃ b, Build.ofDocuments docs = .ok b) ↔ ∃ b, Build.ofDocuments docs' = .ok b := by
  rw [exists_ofDocuments_iff hnodup, exists_ofDocuments_iff (nodup_keys_of_perm h hnodup),
    needs_congr h]
  refine exists_congr fun rank => ?_
  rw [rank_plain, @rank_plain docs']
  simp only [h.mem_iff]

/-- The same documents give the same build. -/
theorem together_ofDocuments (hnodup : (docs.map Document.key).Nodup)
    (h : (docs.map Document.plain).Perm (docs'.map Document.plain)) :
    Together (fun b b' : Build => b.documents.map Document.plain = b'.documents.map Document.plain)
      (Build.ofDocuments docs) (Build.ofDocuments docs') := by
  have hiff := exists_ofDocuments_iff_of_perm hnodup h
  cases hb : Build.ofDocuments docs with
  | ok b =>
      obtain ⟨b', hb'⟩ := hiff.mp ⟨b, hb⟩
      exact .inr ⟨b, b', rfl, hb', documents_eq_of_perm hnodup h hb hb'⟩
  | error e =>
      cases hb' : Build.ofDocuments docs' with
      | ok b' =>
          obtain ⟨b, hok⟩ := hiff.mpr ⟨b', hb'⟩
          cases hb.symm.trans hok
      | error e' => exact .inl ⟨e, e', rfl, rfl⟩

end Graph

end Rollout
