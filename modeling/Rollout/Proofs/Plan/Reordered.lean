import Rollout.Proofs.Plan.DroppedField
import Rollout.Proofs.Value.Entries
/-!
Live objects that hold what a document holds, in another order. Items of a sequence are looked at by
their places, also where their order means nothing: an item that stands in the place of another one
is seen without the fields that the other does not have.
-/

namespace Rollout

namespace Value

theorem same_canonical_of_equivalent {v w : Value} (h : v.Equivalent w) (hk : v.WellKeyed)
    (hn : v.Normal) : v.canonical.same w.canonical := by
  rw [← (equivalent_iff hk hn).mp h]
  exact same_self _ (wellKeyed_canonicalBy topOrder v hk)

theorem restrictItems_eq_zipWith (vs ws : List Value) :
    restrictItems vs ws = vs.zipWith restrict ws := by
  induction vs generalizing ws with
  | nil => rfl
  | cons v vs ih =>
      cases ws with
      | nil => rfl
      | cons w ws => rw [restrictItems, List.zipWith_cons_cons, ih]

theorem getElem?_restrictItems {vs ws : List Value} {i : Nat} {v w : Value}
    (hv : vs[i]? = some v) (hw : ws[i]? = some w) :
    (restrictItems vs ws)[i]? = some (v.restrict w) := by
  rw [restrictItems_eq_zipWith, List.getElem?_zipWith, hv, hw]

end Value

namespace Path

open Value

/-- What is unseen is left out. -/
theorem get?_restrict_of_unseen {path : Path} {wanted live : Value} (h : Unseen path wanted live) :
    path.get? (live.restrict wanted) = none := by
  induction path generalizing wanted live with
  | nil => exact absurd h not_unseen_nil
  | cons s p ih =>
      cases s with
      | key k =>
          obtain ⟨ws, rfl, hcases⟩ := unseen_key_cases h
          cases live with
          | mapping ls =>
              rw [restrict, get?_key_mapping, find?_restrictFields]
              rcases hcases with hk | ⟨w, v, hk, hv, hun⟩
              · rw [hk, Option.bind_none, Option.bind_none]
              · have hv' : Ordered.find? k ls = some v := hv
                rw [hk, Option.bind_some, hv', Option.map_some, Option.bind_some]
                exact ih hun
          | _ => rfl
      | index i =>
          obtain ⟨ws, vs, w, v, rfl, rfl, hlength, hw, hv, hun⟩ := unseen_index_cases h
          rw [restrict, if_pos hlength.symm, get?_index_of_getElem? (getElem?_restrictItems hv hw)]
          exact ih hun

mutual

/-- A tree of which nothing is unseen is left as it is. -/
theorem restrict_eq_self : (live : Value) → {wanted : Value} → live.WellKeyed →
    (∀ path : Path, (path.get? live).isSome → ¬ path.Unseen wanted live) →
    live.restrict wanted = live
  | .mapping fs, wanted, hwell, h => by
      cases wanted with
      | mapping ws =>
          rw [wellKeyed_mapping] at hwell
          rw [restrict, restrictFields_eq_self ws fs hwell.2 fun e he => ?_]
          have hfind : Ordered.find? e.1 fs = some e.2 := Ordered.find?_eq_some_of_mem hwell.1 he
          cases hk : Ordered.find? e.1 ws with
          | none =>
              refine absurd ?_ (h [.key e.1] (by rw [get?_key_of_find? hfind]; rfl))
              rw [Unseen, hk]
              trivial
          | some w =>
              refine ⟨w, rfl, fun path hp hun => h (.key e.1 :: path) ?_ ?_⟩
              · rwa [get?_key_of_find? hfind]
              · rw [Unseen, hk]
                exact ⟨e.2, hfind, hun⟩
      | _ => rfl
  | .sequence vs, wanted, hwell, h => by
      cases wanted with
      | sequence ws =>
          rw [restrict]
          split
          · next hlength =>
              rw [restrictItems_eq_self vs ws (wellKeyed_sequence.mp hwell) hlength ?_]
              intro i v w hv hw path hp hun
              refine h (.index i :: path) ?_ ⟨hlength.symm, w, v, hw, hv, hun⟩
              rwa [get?_index_of_getElem? hv]
          · rfl
      | _ => rfl
  | .null, wanted, _, _ | .bool _, wanted, _, _ | .number _, wanted, _, _
  | .string _, wanted, _, _ => by cases wanted <;> rfl

theorem restrictItems_eq_self : (vs ws : List Value) → (∀ v ∈ vs, v.WellKeyed) →
    vs.length = ws.length →
    (∀ (i : Nat) (v w : Value), vs[i]? = some v → ws[i]? = some w →
      ∀ path : Path, (path.get? v).isSome → ¬ path.Unseen w v) →
    restrictItems vs ws = vs
  | [], _, _, _, _ => rfl
  | v :: vs, w :: ws, hwell, hlength, h => by
      rw [List.forall_mem_cons] at hwell
      rw [restrictItems, restrict_eq_self v hwell.1 (h 0 v w rfl rfl),
        restrictItems_eq_self vs ws hwell.2 (Nat.succ.inj hlength) fun i => h (i + 1)]

theorem restrictFields_eq_self (ws : Fields) : (fs : List (String × Value)) →
    (∀ e ∈ fs, e.2.WellKeyed) →
    (∀ e ∈ fs, ∃ w, Ordered.find? e.1 ws = some w ∧
      ∀ path : Path, (path.get? e.2).isSome → ¬ path.Unseen w e.2) →
    restrictFields ws fs = fs
  | [], _, _ => rfl
  | (k, v) :: fs, hwell, h => by
      rw [List.forall_mem_cons] at hwell h
      obtain ⟨⟨w, hw, hv⟩, hfs⟩ := h
      rw [restrictFields, hw]
      dsimp only
      rw [restrict_eq_self v hwell.1 hv, restrictFields_eq_self ws fs hwell.2 hfs]

end

theorem restrict_eq_self_iff {live : Value} (hwell : live.WellKeyed) (wanted : Value) :
    live.restrict wanted = live ↔
      ∀ path : Path, (path.get? live).isSome → ¬ path.Unseen wanted live := by
  constructor
  · intro h path hp hun
    rw [← h, get?_restrict_of_unseen hun] at hp
    cases hp
  · exact restrict_eq_self live hwell

/-- Trees with one canonical form have the same paths but for those into sets. -/
theorem throughSet_of_same {path : Path} {v w : Value} {order order' : List String}
    (hv : v.WellKeyed) (hw : w.WellKeyed)
    (h : (canonicalBy order v).same (canonicalBy order' w)) (hsome : (path.get? v).isSome)
    (hnone : path.get? w = none) : ThroughSet path w := by
  induction path generalizing v w order order' with
  | nil => cases hnone
  | cons s p ih =>
      cases s with
      | key k =>
          obtain ⟨fs, x, rfl, hx, hp⟩ := exists_of_get?_key hsome
          have hmapping := isMapping_eq_of_same_canonicalBy h
          cases w with
          | mapping gs =>
              rw [wellKeyed_mapping] at hv hw
              obtain ⟨hhas, hentries⟩ := (same_canonicalBy_mapping_iff hv.1 hw.1).mp h
              have hk : Ordered.has k gs := by rw [← hhas, Ordered.has, hx]; rfl
              obtain ⟨y, hy⟩ := Option.isSome_iff_exists.mp hk
              rw [get?_key_of_find? hy] at hnone
              refine ⟨y, hy, ?_⟩
              rcases same_of_same_canonicalEntry (hentries k x y hx hy) with h | ⟨hset, n, hn, hm⟩
              · exact .inr (ih (hv.2 _ (Ordered.mem_of_find?_eq_some hx))
                  (hw.2 _ (Ordered.mem_of_find?_eq_some hy)) h hp hnone)
              · exact .inl ⟨hset, enters_of_itemCount? hp hnone hn hm⟩
          | _ => cases hmapping
      | index i =>
          obtain ⟨vs, x, rfl, hx, hp⟩ := exists_of_get?_index hsome
          have hcount := itemCount?_eq_of_same_canonicalBy h
          cases w with
          | sequence ws =>
              obtain ⟨hlength, hitems⟩ := same_canonicalBy_sequence_iff.mp h
              have hi : i < ws.length := hlength ▸ (List.getElem?_eq_some_iff.mp hx).1
              have hy : ws[i]? = some ws[i] := List.getElem?_eq_getElem hi
              rw [get?_index_of_getElem? hy] at hnone
              exact ⟨ws[i], hy, ih (wellKeyed_sequence.mp hv x (List.mem_of_getElem? hx))
                (wellKeyed_sequence.mp hw _ (List.getElem_mem hi)) (hitems i x _ hx hy) hp hnone⟩
          | _ => cases hcount

end Path

variable {desired live : Document}

/-- Of an object that holds what the document holds, all is seen or less than that. -/
theorem same_seen_iff (hrecord : live.lastApplied? = none)
    (hsame : live.root.canonical.same desired.root.canonical) :
    (seen desired live).same desired.root.canonical ↔
      live.root.restrict desired.root = live.root := by
  rw [seen_eq_restrict, comparedFields, hrecord]
  constructor
  · intro h
    have hpruned := Value.pruned_restrict live.root desired.root
    have hseen := Value.entries_eq_of_same _ (Value.wellKeyed_canonicalBy Value.topOrder _
      (hpruned.wellKeyed live.wellKeyed)) h
    have hall := Value.entries_eq_of_same _ (Value.wellKeyed_canonicalBy Value.topOrder _
      live.wellKeyed) hsame
    rw [Value.entries_canonicalBy] at hseen hall
    rcases hpruned.eq_or_entries_lt with heq | hlt
    · exact heq
    · omega
  · intro h
    dsimp only
    rwa [h]

/-- An object without a record that holds what the document holds, in whatever order, stays as it is
exactly if no item of a set stands in the place of one that lacks some of its fields. -/
theorem unchanged_iff_of_same_canonical (context : Nat) (hrecord : live.lastApplied? = none)
    (hsame : live.root.canonical.same desired.root.canonical) :
    (planChange desired (some live) context).action = .unchanged ↔
      ∀ path : Path, (path.get? live.root).isSome → path.ThroughSet desired.root →
        ¬ path.Unseen desired.root live.root := by
  rw [unchanged_iff_same_seen, same_seen_iff hrecord hsame,
    Path.restrict_eq_self_iff live.wellKeyed]
  refine forall_congr' fun path => forall_congr' fun hp => ⟨fun h _ => h, fun h hun => ?_⟩
  have hthrough := Path.throughSet_of_same live.wellKeyed desired.wellKeyed hsame hp
    (Path.get?_eq_none_of_unseen hun)
  exact h hthrough hun

/-- A role that allows two verbs. -/
def reader : Document where
  root := .mapping [("apiVersion", .string "rbac.authorization.k8s.io/v1"),
    ("kind", .string "ClusterRole"), ("metadata", .mapping [("name", .string "reader")]),
    ("rules", .sequence [.mapping [("verbs", .sequence [.string "get", .string "list"])]])]
  wellKeyed := by simp [Ordered.keys]

/-- The role as it lives, with its verbs in another order. -/
def liveReader : Document where
  root := .mapping [("apiVersion", .string "rbac.authorization.k8s.io/v1"),
    ("kind", .string "ClusterRole"), ("metadata", .mapping [("name", .string "reader")]),
    ("rules", .sequence [.mapping [("verbs", .sequence [.string "list", .string "get"])]])]
  wellKeyed := by simp [Ordered.keys]

theorem equivalent_liveReader : liveReader.root.Equivalent reader.root := by
  have hverbs := @Value.Equivalent.elements [] "verbs" [] _ _ (.inl (by decide))
    (List.Perm.swap (.string "get") (.string "list") [])
  exact @Value.Equivalent.field _ _ [_, _, _] _ [] (@Value.Equivalent.item _ _ [] [] hverbs)

theorem unchanged_reader : (planChange reader (some liveReader) 3).action = .unchanged := by
  have hsame := Value.same_canonical_of_equivalent equivalent_liveReader liveReader.wellKeyed
    (by simp [liveReader])
  have hall : liveReader.root.restrict reader.root = liveReader.root := by decide +kernel
  refine (unchanged_iff_of_same_canonical 3 (by decide) hsame).mpr fun path hp _ => ?_
  exact (Path.restrict_eq_self_iff liveReader.wellKeyed reader.root).mp hall path hp

/-- A budget for the pods that have a tier and run in production. -/
def budget : Document where
  root := .mapping [("apiVersion", .string "policy/v1"), ("kind", .string "PodDisruptionBudget"),
    ("metadata", .mapping [("name", .string "web")]),
    ("spec", .mapping [("selector", .mapping [("matchExpressions", .sequence [
      .mapping [("key", .string "tier"), ("operator", .string "Exists")],
      .mapping [("key", .string "env"), ("operator", .string "In"),
        ("values", .sequence [.string "prod"])]])])])]
  wellKeyed := by simp [Ordered.keys]

/-- The budget as it lives, with its requirements in another order. -/
def liveBudget : Document where
  root := .mapping [("apiVersion", .string "policy/v1"), ("kind", .string "PodDisruptionBudget"),
    ("metadata", .mapping [("name", .string "web")]),
    ("spec", .mapping [("selector", .mapping [("matchExpressions", .sequence [
      .mapping [("key", .string "env"), ("operator", .string "In"),
        ("values", .sequence [.string "prod"])],
      .mapping [("key", .string "tier"), ("operator", .string "Exists")]])])])]
  wellKeyed := by simp [Ordered.keys]

theorem equivalent_liveBudget : liveBudget.root.Equivalent budget.root := by
  have helements := @Value.Equivalent.elements [] "matchExpressions" [] _ _ (.inl (by decide))
    (List.Perm.swap (.mapping [("key", .string "tier"), ("operator", .string "Exists")])
      (.mapping [("key", .string "env"), ("operator", .string "In"),
        ("values", .sequence [.string "prod"])]) [])
  exact @Value.Equivalent.field _ _ [_, _, _] _ []
    (@Value.Equivalent.field _ _ [] _ [] helements)

/-- An order that means nothing is not always overlooked: the values of the first requirement are
not seen, as the requirement in its place has none. -/
theorem not_forall_unchanged_of_same_canonical :
    ¬ ∀ (desired live : Document) (context : Nat), live.lastApplied? = none →
      live.root.canonical.same desired.root.canonical →
      (planChange desired (some live) context).action = .unchanged := by
  intro h
  have hrecord : liveBudget.lastApplied? = none := by decide
  have hsame := Value.same_canonical_of_equivalent equivalent_liveBudget liveBudget.wellKeyed
    (by simp [liveBudget])
  have hunchanged := h budget liveBudget 3 hrecord hsame
  rw [unchanged_iff_same_seen, same_seen_iff hrecord hsame] at hunchanged
  revert hunchanged
  decide +kernel

end Rollout
