import Rollout.Proofs.Document.Acceptance
import Rollout.Proofs.DocumentSet.Collected
import Rollout.Proofs.Path.Difference
/-!
The namespaces of the documents of a set: which namespaces are added because documents name them,
and what giving the others a default namespace does to the documents and to their index.
-/

namespace Rollout

namespace Document

variable {crds : List CrdRef} {d e : Document} {n ns : String}

/-- A document that lives in a namespace. So says the first type that it is an instance of; where
there is none, its kind is not one of those without a namespace. -/
inductive Namespaced (d : Document) : List CrdRef → Prop
  | byType {before after : List CrdRef} {c : CrdRef} :
      (∀ b ∈ before, ¬ b.matches d.apiVersion d.kind) → c.matches d.apiVersion d.kind →
      c.namespaced → Namespaced d (before ++ c :: after)
  | byKind {crds : List CrdRef} : (∀ c ∈ crds, ¬ c.matches d.apiVersion d.kind) →
      d.kind ∉ Kind.clusterScoped → Namespaced d crds

/-- The metadata of a document holds the name of a namespace. -/
def Names (d : Document) (n : String) : Prop :=
  Path.get? [.key "metadata", .key "namespace"] d.root = some (.string n) ∧ n ≠ ""

/-- A document that lives in a namespace and names none. -/
def Lacks (crds : List CrdRef) (d : Document) : Prop := d.Namespaced crds ∧ ∀ n, ¬ d.Names n

/-- The document with a namespace in its metadata, and with nothing else changed. -/
structure MovesTo (ns : String) (d e : Document) : Prop where
  markers : e.markers = d.markers
  root : ∃ ms, Path.DiffersAt (.mapping ms)
    (.mapping (Ordered.put "namespace" (.string ns) ms)) [.key "metadata"] d.root e.root

theorem isNamespaced_iff : d.isNamespaced crds = true ↔ d.Namespaced crds := by
  constructor
  · intro h
    rw [isNamespaced] at h
    cases hfind : crds.find? fun c => c.matches d.apiVersion d.kind with
    | none =>
        rw [hfind] at h
        dsimp only at h
        rw [Kind.isClusterScoped, Bool.not_eq_true', List.contains_eq_mem,
          decide_eq_false_iff_not] at h
        exact .byKind (List.find?_eq_none.mp hfind) h
    | some c =>
        rw [hfind] at h
        obtain ⟨hc, before, after, rfl, hbefore⟩ := List.find?_eq_some_iff_append.mp hfind
        exact .byType (by simpa using hbefore) hc h
  · intro h
    cases h with
    | @byType before after c hbefore hc hscope =>
        have hfind : (before ++ c :: after).find? (fun c => c.matches d.apiVersion d.kind) =
            some c :=
          List.find?_eq_some_iff_append.mpr ⟨hc, before, after, rfl, by simpa using hbefore⟩
        rw [isNamespaced, hfind]
        exact hscope
    | byKind hnone hkind =>
        rw [isNamespaced, List.find?_eq_none.mpr hnone]
        dsimp only
        rw [Kind.isClusterScoped, Bool.not_eq_true', List.contains_eq_mem,
          decide_eq_false_iff_not]
        exact hkind

theorem ns?_eq_some_iff : d.ns? = some n ↔ d.Names n := by
  have htext (v : Value) : v.text? = some n ↔ v = .string n := by cases v <;> simp [Value.text?]
  have hfield : d.metadata.fieldText? "namespace" = some n ↔
      Path.get? [.key "metadata", .key "namespace"] d.root = some (.string n) := by
    change ((d.root.field? "metadata").getD .null).fieldText? "namespace" = some n ↔
      (d.root.field? "metadata").bind (Path.get? [.key "namespace"]) = some (.string n)
    cases d.root.field? "metadata" with
    | none => simp [Value.fieldText?, Value.field?, Value.fields?]
    | some m =>
        rw [Option.bind_some, Path.get?_singleton, Option.getD_some, Value.fieldText?,
          Option.bind_eq_some_iff]
        simp only [htext, exists_eq_right]
        rfl
  rw [ns?, Option.filter_eq_some_iff, hfield, Names]
  simp

theorem movesTo_setNs (hd : d.Formed) (ns : String) : d.MovesTo ns (d.setNs (some ns)) :=
  ⟨rfl, hd.differsAt_modifyMetadata (withNs_keepsKeys (some ns))⟩

theorem ns?_setNs (hd : d.Formed) (hns : ns ≠ "") : (d.setNs (some ns)).ns? = some ns := by
  obtain ⟨ms, hdiff⟩ := (movesTo_setNs hd ns).root
  refine ns?_eq_some_iff.mpr ⟨?_, hns⟩
  rw [← List.singleton_append, Path.get?_append_of_get? hdiff.get?_right, Path.get?_key_mapping,
    Ordered.find?_put, if_pos rfl]
  rfl

theorem lacksNs_iff : DocumentSet.lacksNs crds d = true ↔ d.Lacks crds := by
  rw [DocumentSet.lacksNs, Bool.and_eq_true, isNamespaced_iff, Option.isNone_iff_eq_none,
    Option.eq_none_iff_forall_ne_some, and_comm, Lacks]
  simp only [ne_eq, ns?_eq_some_iff]

instance (crds : List CrdRef) (d : Document) : Decidable (d.Lacks crds) :=
  decidable_of_iff _ lacksNs_iff

end Document

namespace DocumentSet

variable {s t : DocumentSet} {ns : String}

/-- The entry of a namespace that was not authored. -/
structure AddsNamespace (n : String) (e : Key × Document × String) : Prop where
  key : e.1 = ⟨"Namespace", none, n⟩
  root : e.2.1.root = .mapping [("apiVersion", .string "v1"), ("kind", .string "Namespace"),
    ("metadata", .mapping [("name", .string n)])]
  markers : e.2.1.markers = { synthesized := true }
  source : e.2.2 = "namespace-synthesis"

/-- What adding the namespaces that documents name makes of a set. -/
structure Synthesizes (s : DocumentSet) (names : List String) (t : DocumentSet) : Prop where
  ascending : names.Pairwise (· < ·)
  /-- Documents that live in no namespace may name one for nothing. -/
  mem_iff : ∀ n, n ∈ names ↔ (∃ d ∈ s.documents, d.Namespaced s.crds ∧ d.Names n) ∧
    ∀ d ∈ s.documents, d.key ≠ ⟨"Namespace", none, n⟩
  /-- All that was there stays as it was. -/
  entries : ∃ added, t.entries = s.entries ++ added ∧ List.Forall₂ AddsNamespace names added
  indexed : t.Indexed

theorem mem_missing_namedNamespaces {n : String} : n ∈ missing s.documents s.namedNamespaces ↔
    (∃ d ∈ s.documents, d.Namespaced s.crds ∧ d.Names n) ∧
      ∀ d ∈ s.documents, d.key ≠ namespaceKey n := by
  rw [missing, List.mem_filter, mem_namedNamespaces, decide_eq_true_iff]
  simp only [List.mem_filterMap, List.mem_filter, List.mem_map, Document.isNamespaced_iff,
    Document.ns?_eq_some_iff, not_exists, not_and, and_assoc, ne_eq]

/-- The namespaces that were added name none, and decide on the scope of no document. -/
theorem namedNamespaces_withNamespaces (s : DocumentSet) (names : List String) :
    (s.withNamespaces names).namedNamespaces = s.namedNamespaces := by
  have hcrd : Document.crd? ∘ synthesized = fun _ => none := rfl
  have hcrds : (s.withNamespaces names).crds = s.crds := by
    rw [crds, documents_withNamespaces, List.filterMap_append, List.filterMap_map, hcrd,
      List.filterMap_none, List.append_nil]
    rfl
  have hnone : ((names.map synthesized).filter (Document.isNamespaced s.crds)).filterMap
      Document.ns? = [] := by
    refine List.filterMap_eq_nil_iff.mpr fun d hd => ?_
    obtain ⟨n, -, rfl⟩ := List.mem_map.mp (List.mem_filter.mp hd).1
    rfl
  rw [namedNamespaces, hcrds, documents_withNamespaces, List.filter_append, List.filterMap_append,
    hnone, List.append_nil]
  rfl

/-- Once they are added, no namespace is missing. -/
theorem missing_append_missing (docs : List Document) (names : List String) :
    missing (docs ++ (missing docs names).map synthesized) names = [] := by
  refine List.filter_eq_nil_iff.mpr fun n hn => ?_
  rw [decide_eq_true_iff, not_not, List.map_append, List.mem_append]
  by_cases hin : namespaceKey n ∈ docs.map Document.key
  · exact .inl hin
  · have hmissing : n ∈ missing docs names :=
      List.mem_filter.mpr ⟨hn, decide_eq_true hin⟩
    exact .inr (List.mem_map_of_mem (List.mem_map_of_mem hmissing))

/-- Adding the namespaces that documents name never fails, adds just those that are not there, and
adds nothing when it is done again. -/
theorem exists_synthesizes (hs : s.Indexed) :
    ∃ names t, s.synthesizeNamespaces = (.ok names, t) ∧ Synthesizes s names t ∧
      t.synthesizeNamespaces = (.ok [], t) := by
  have hnodup : s.namedNamespaces.Nodup := (pairwise_namedNamespaces s).imp ne_of_lt
  have hadded := hs.addNamespaces_eq hnodup
  have hindexed := hs.addNamespaces s.namedNamespaces
  rw [hadded] at hindexed
  have hentries : ∀ n ∈ missing s.documents s.namedNamespaces,
      AddsNamespace n (namespaceKey n, synthesized n, synthesizedSource) :=
    fun n _ => ⟨rfl, rfl, rfl, rfl⟩
  refine ⟨_, _, hadded, ⟨?_, fun n => mem_missing_namedNamespaces, ⟨_, rfl, ?_⟩, hindexed⟩, ?_⟩
  · exact (pairwise_namedNamespaces s).filter _
  · exact List.forall₂_map_right_iff.mpr (List.forall₂_same.mpr hentries)
  · rw [synthesizeNamespaces, namedNamespaces_withNamespaces, hindexed.addNamespaces_eq hnodup,
      documents_withNamespaces, missing_append_missing]
    simp [withNamespaces]

/-- The set of documents of one source. -/
def ofSource (source : String) (docs : List Document) : DocumentSet where
  entries := docs.map fun d => (d.key, d, source)

theorem documents_ofSource (source : String) (docs : List Document) :
    (ofSource source docs).documents = docs := by
  rw [documents, ofSource, Ordered.values, List.map_map, List.map_map]
  exact List.map_id docs

theorem indexed_ofSource {source : String} {docs : List Document} (h : Distinct docs) :
    (ofSource source docs).Indexed := by
  refine ⟨?_, fun e he => ?_⟩
  · rw [keys, ofSource, Ordered.keys, List.map_map]
    exact h
  · obtain ⟨d, -, rfl⟩ := List.mem_map.mp he
    rfl

/-- A type whose instances live in no namespace. -/
def clusterWidgets : Document where
  root := .mapping [("apiVersion", .string "apiextensions.k8s.io/v1"),
    ("kind", .string "CustomResourceDefinition"),
    ("metadata", .mapping [("name", .string "widgets.example.com")]),
    ("spec", .mapping [("group", .string "example.com"),
      ("names", .mapping [("kind", .string "Widget")]), ("scope", .string "Cluster"),
      ("version", .string "v1")])]
  wellKeyed := by simp [Ordered.keys]

/-- An instance that names a namespace for nothing, and two documents in namespaces, of which one
is there. -/
def partlyHosted : DocumentSet := ofSource "shop" [clusterWidgets,
  (Document.new "example.com/v1" "Widget" "wheel").setNs (some "stray"),
  .minimalNamespace "base", (Document.new "v1" "ConfigMap" "settings").setNs (some "base"),
  (Document.new "v1" "Secret" "token").setNs (some "shop")]

theorem exists_synthesizes_partlyHosted :
    partlyHosted.Indexed ∧ ∃ t, partlyHosted.synthesizeNamespaces = (.ok ["shop"], t) ∧
      Synthesizes partlyHosted ["shop"] t ∧ t.synthesizeNamespaces = (.ok [], t) := by
  have hindexed : partlyHosted.Indexed := indexed_ofSource (by decide)
  obtain ⟨names, t, hadded, hsynthesizes, hagain⟩ := exists_synthesizes hindexed
  have hnames : partlyHosted.synthesizeNamespaces.1 = .ok ["shop"] := by decide +kernel
  rw [hadded] at hnames
  obtain rfl : names = ["shop"] := Except.ok.inj hnames
  exact ⟨hindexed, t, hadded, hsynthesizes, hagain⟩

/-- The identity of a document in the default namespace, if it lacks one. -/
def defaultKey (crds : List CrdRef) (ns : String) (d : Document) : Key :=
  if d.Lacks crds then { d.key with ns := some ns } else d.key

/-- An entry of a set, and what the default namespace makes of it. -/
inductive Moved (crds : List CrdRef) (ns : String) :
    Key × Document × String → Key × Document × String → Prop
  | given {d e : Document} {source : String} : d.Lacks crds → d.MovesTo ns e →
      Moved crds ns (d.key, d, source) ({ d.key with ns := some ns }, e, source)
  | kept {d : Document} {source : String} : ¬ d.Lacks crds →
      Moved crds ns (d.key, d, source) (d.key, d, source)

/-- What the default namespace makes of a set. -/
structure Defaulted (ns : String) (s t : DocumentSet) : Prop where
  entries : List.Forall₂ (Moved s.crds ns) s.entries t.entries
  indexed : t.Indexed
  found : ∀ d ∈ s.documents, d.Lacks s.crds → ∃ e, d.MovesTo ns e ∧
    t.find? { d.key with ns := some ns } = some e ∧
    t.source? { d.key with ns := some ns } = s.source? d.key
  gone : ∀ d ∈ s.documents, d.Lacks s.crds → t.find? d.key = none

theorem placed_of_lacks {d : Document} (h : d.Lacks s.crds) :
    placed s.crds ns d = d.setNs (some ns) := if_pos (Document.lacksNs_iff.mpr h)

theorem placed_of_not_lacks {d : Document} (h : ¬ d.Lacks s.crds) : placed s.crds ns d = d :=
  if_neg (mt Document.lacksNs_iff.mp h)

theorem key_placed {d : Document} (hd : d.Formed) (hns : ns ≠ "") :
    (placed s.crds ns d).key = defaultKey s.crds ns d := by
  rw [defaultKey]
  split
  · next h =>
      rw [placed_of_lacks h, Document.key, Document.ns?_setNs hd hns, d.kind_setNs, d.name_setNs]
      rfl
  · next h => rw [placed_of_not_lacks h]

theorem crds_inNs (s : DocumentSet) (ns : String) : (s.inNs ns).crds = s.crds := by
  have hcrd : Document.crd? ∘ placed s.crds ns = Document.crd? := funext (crd?_placed s.crds ns)
  rw [crds, documents_inNs, List.filterMap_map, hcrd]
  rfl

/-- Nothing is left to be given a namespace. -/
theorem not_lacks_of_mem_inNs (hformed : ∀ d ∈ s.documents, d.Formed) (hns : ns ≠ "")
    {e : Document} (he : e ∈ (s.inNs ns).documents) : ¬ e.Lacks s.crds := by
  rw [documents_inNs] at he
  obtain ⟨d, hd, rfl⟩ := List.mem_map.mp he
  by_cases hlacks : d.Lacks s.crds
  · rw [placed_of_lacks hlacks]
    intro h
    exact h.2 ns (Document.ns?_eq_some_iff.mp (Document.ns?_setNs (hformed d hd) hns))
  · rwa [placed_of_not_lacks hlacks]

theorem defaultNs_inNs (hformed : ∀ d ∈ s.documents, d.Formed) (hns : ns ≠ "") :
    (s.inNs ns).defaultNs ns = (.ok 0, s.inNs ns) := by
  have hcount : ((s.inNs ns).documents.filter (lacksNs (s.inNs ns).crds)).length = 0 := by
    rw [crds_inNs, List.length_eq_zero_iff]
    exact List.filter_eq_nil_iff.mpr fun e he h =>
      not_lacks_of_mem_inNs hformed hns he (Document.lacksNs_iff.mp h)
  rw [defaultNs]
  dsimp only
  rw [if_pos hcount]

theorem moved_placed {d : Document} (hd : d.Formed) (hns : ns ≠ "") (source : String) :
    Moved s.crds ns (d.key, d, source)
      ((placed s.crds ns d).key, placed s.crds ns d, source) := by
  rw [key_placed hd hns, defaultKey]
  split
  · next h =>
      rw [placed_of_lacks h]
      exact .given h (Document.movesTo_setNs hd ns)
  · next h =>
      rw [placed_of_not_lacks h]
      exact .kept h

theorem Indexed.defaulted_inNs (hs : s.Indexed) (hformed : ∀ d ∈ s.documents, d.Formed)
    (hns : ns ≠ "") (ht : (s.inNs ns).Indexed) : Defaulted ns s (s.inNs ns) where
  entries := by
    refine List.forall₂_map_right_iff.mpr (List.forall₂_same.mpr fun e he => ?_)
    have hd : e.2.1 ∈ s.documents := List.mem_map_of_mem (List.mem_map_of_mem he)
    have hmoved := moved_placed (s := s) (hformed e.2.1 hd) hns e.2.2
    rwa [← hs.filed e he] at hmoved
  indexed := ht
  found := by
    intro d hd hlacks
    obtain ⟨source, he⟩ := hs.exists_entry hd
    have hin : ((placed s.crds ns d).key, placed s.crds ns d, source) ∈ (s.inNs ns).entries :=
      List.mem_map.mpr ⟨_, he, rfl⟩
    obtain ⟨hfind, hsource⟩ := ht.find?_key hin
    dsimp only at hfind hsource
    rw [key_placed (hformed d hd) hns, defaultKey, if_pos hlacks] at hfind hsource
    rw [placed_of_lacks hlacks] at hfind
    exact ⟨_, Document.movesTo_setNs (hformed d hd) ns, hfind,
      hsource.trans (hs.find?_key he).2.symm⟩
  gone := by
    intro d hd hlacks
    rw [find?, Option.map_eq_none_iff, Ordered.find?_eq_none_iff]
    change d.key ∉ (s.inNs ns).keys
    rw [← ht.map_key, documents_inNs, List.map_map, List.mem_map]
    rintro ⟨e, he, hkey⟩
    rw [Function.comp_apply, key_placed (hformed e he) hns, defaultKey] at hkey
    split at hkey
    · have hnamed : some ns = d.ns? := congrArg Key.ns hkey
      exact hlacks.2 ns (Document.ns?_eq_some_iff.mp hnamed.symm)
    · next hkept =>
        obtain rfl : e = d := List.inj_on_of_nodup_map hs.distinct he hd hkey
        exact hkept hlacks

/-- A set of documents, all of them formed as those that are read or made, is given a default
namespace exactly where that leaves every document an identity of its own. It is given to the
documents that lack one, and only once. -/
theorem defaulted_defaultNs (hs : s.Indexed) (hformed : ∀ d ∈ s.documents, d.Formed)
    (hns : ns ≠ "") :
    ((∃ k sources, (s.defaultNs ns).1 = .error (.duplicateDocument k sources)) ↔
        ¬ (s.documents.map (defaultKey s.crds ns)).Nodup) ∧
      ((s.documents.map (defaultKey s.crds ns)).Nodup →
        ∃ t, s.defaultNs ns = (.ok (s.documents.countP (Document.Lacks s.crds ·)), t) ∧
          Defaulted ns s t ∧ t.defaultNs ns = (.ok 0, t)) := by
  have hdistinct : Distinct (s.documents.map (placed s.crds ns)) ↔
      (s.documents.map (defaultKey s.crds ns)).Nodup := by
    rw [Distinct, List.map_map]
    have hkeys : s.documents.map (Document.key ∘ placed s.crds ns) =
        s.documents.map (defaultKey s.crds ns) :=
      List.map_congr_left fun d hd => key_placed (hformed d hd) hns
    rw [hkeys]
  have hcount : (s.documents.filter (lacksNs s.crds)).length =
      s.documents.countP (Document.Lacks s.crds ·) := by
    rw [← List.countP_eq_length_filter]
    exact List.countP_congr fun d _ => by rw [Document.lacksNs_iff, decide_eq_true_iff]
  rw [← hdistinct, ← hcount]
  have hfine (h : Distinct (s.documents.map (placed s.crds ns))) :
      ∃ t, s.defaultNs ns = (.ok (s.documents.filter (lacksNs s.crds)).length, t) ∧
        Defaulted ns s t ∧ t.defaultNs ns = (.ok 0, t) := by
    have hdone := hs.defaultNs_eq_ok h
    have hindexed := hs.defaultNs ns
    rw [hdone] at hindexed
    exact ⟨_, hdone, hs.defaulted_inNs hformed hns hindexed, defaultNs_inNs hformed hns⟩
  refine ⟨⟨?_, hs.defaultNs_eq_error⟩, hfine⟩
  rintro ⟨k, sources, herror⟩ h
  obtain ⟨t, hdone, -⟩ := hfine h
  rw [hdone] at herror
  cases herror

/-- Two documents of one name, of which one names a namespace, and a document that lives in none. -/
def settingsTwice : DocumentSet := ofSource "shop" [.minimalNamespace "base",
  (Document.new "v1" "ConfigMap" "settings").setNs (some "base"), .new "v1" "ConfigMap" "settings"]

/-- In the namespace of the other, the document would be there twice. -/
theorem defaulted_settingsTwice :
    settingsTwice.Indexed ∧ (∀ d ∈ settingsTwice.documents, d.Formed) ∧
      (∃ k sources, (settingsTwice.defaultNs "base").1 = .error (.duplicateDocument k sources)) ∧
      ∃ t, settingsTwice.defaultNs "shop" = (.ok 1, t) ∧ Defaulted "shop" settingsTwice t ∧
        t.defaultNs "shop" = (.ok 0, t) := by
  have hindexed : settingsTwice.Indexed := indexed_ofSource (by decide)
  have hformed : ∀ d ∈ settingsTwice.documents, d.Formed := by
    rw [settingsTwice, documents_ofSource]
    simp only [List.forall_mem_cons]
    exact ⟨Document.formed_new .., ⟨_, _, rfl, rfl⟩, Document.formed_new .., List.forall_mem_nil _⟩
  have hbase : "base" ≠ "" := by decide
  have hshop : "shop" ≠ "" := by decide
  obtain ⟨hfails, -⟩ := defaulted_defaultNs hindexed hformed hbase
  obtain ⟨-, hdone⟩ := defaulted_defaultNs hindexed hformed hshop
  exact ⟨hindexed, hformed, hfails.mpr (by decide), hdone (by decide)⟩

end DocumentSet

end Rollout
