/-!
Finite maps kept in the order their keys were first given. Giving a key again
replaces its value in place; removing one keeps the order of the others.
-/

namespace Rollout

/-- A finite map, as its entries in order of first insertion. -/
abbrev Ordered (κ α : Type) := List (κ × α)

namespace Ordered

variable {κ α β : Type} [DecidableEq κ]

def keys (m : Ordered κ α) : List κ := m.map Prod.fst

def values (m : Ordered κ α) : List α := m.map Prod.snd

def find? (k : κ) : Ordered κ α → Option α
  | [] => none
  | (j, v) :: r => if j = k then some v else find? k r

def has (k : κ) (m : Ordered κ α) : Bool := (find? k m).isSome

/-- A key already there keeps its place and takes the new value. -/
def put (k : κ) (v : α) : Ordered κ α → Ordered κ α
  | [] => [(k, v)]
  | (j, w) :: r => if j = k then (j, v) :: r else (j, w) :: put k v r

def remove (k : κ) : Ordered κ α → Ordered κ α
  | [] => []
  | (j, w) :: r => if j = k then r else (j, w) :: remove k r

/-- Applies `f` to the value of `k`, if there is one. -/
def modify (k : κ) (f : α → α) : Ordered κ α → Ordered κ α
  | [] => []
  | (j, w) :: r => if j = k then (j, f w) :: r else (j, w) :: modify k f r

def mapValues (f : α → β) (m : Ordered κ α) : Ordered κ β := m.map fun e => (e.1, f e.2)

/-- The last value given for a key wins, at the place of the first. -/
def ofList (es : List (κ × α)) : Ordered κ α := es.foldl (fun m e => put e.1 e.2 m) []

theorem find?_put (k j : κ) (v : α) (m : Ordered κ α) :
    find? j (put k v m) = if k = j then some v else find? j m := by
  induction m with
  | nil => simp [put, find?]
  | cons e r ih => grind [put, find?]

theorem keys_put (k : κ) (v : α) (m : Ordered κ α) :
    keys (put k v m) = if k ∈ keys m then keys m else keys m ++ [k] := by
  induction m with
  | nil => simp [put, keys]
  | cons e r ih => grind [put, keys]

omit [DecidableEq κ] in
theorem keys_cons (e : κ × α) (m : Ordered κ α) : keys (e :: m) = e.1 :: keys m := rfl

omit [DecidableEq κ] in
theorem mem_keys_of_mem {e : κ × α} {m : Ordered κ α} (h : e ∈ m) : e.1 ∈ keys m :=
  List.mem_map_of_mem h

theorem mem_of_find?_eq_some {k : κ} {v : α} {m : Ordered κ α} (h : find? k m = some v) :
    (k, v) ∈ m := by
  induction m with
  | nil => cases h
  | cons e r ih => grind [find?]

theorem find?_eq_none_iff {k : κ} {m : Ordered κ α} : find? k m = none ↔ k ∉ keys m := by
  induction m with
  | nil => simp [find?, keys]
  | cons e r ih => grind [find?, keys_cons]

theorem has_iff {k : κ} {m : Ordered κ α} : has k m = true ↔ k ∈ keys m := by
  rw [has, Option.isSome_iff_ne_none, ne_eq, find?_eq_none_iff, Decidable.not_not]

theorem find?_eq_some_of_mem {k : κ} {v : α} {m : Ordered κ α} (hm : (keys m).Nodup)
    (h : (k, v) ∈ m) : find? k m = some v := by
  induction m with
  | nil => cases h
  | cons e r ih =>
      rw [keys_cons, List.nodup_cons] at hm
      rcases List.mem_cons.mp h with rfl | hr
      · simp [find?]
      · have hk : e.1 ≠ k := fun he => hm.1 (he ▸ mem_keys_of_mem hr)
        simpa [find?, hk] using ih hm.2 hr

omit [DecidableEq κ] in
theorem nodup_of_keys {m : Ordered κ α} (h : (keys m).Nodup) : m.Nodup :=
  List.Pairwise.of_map Prod.fst (fun _ _ hne he => hne (congrArg Prod.fst he)) h

/-- Maps with distinct keys that hold the same are the same up to order. -/
theorem perm_of_find?_eq {m n : Ordered κ α} (hm : (keys m).Nodup) (hn : (keys n).Nodup)
    (h : ∀ k, find? k m = find? k n) : m.Perm n := by
  refine (List.perm_ext_iff_of_nodup (nodup_of_keys hm) (nodup_of_keys hn)).mpr ?_
  rintro ⟨k, v⟩
  constructor
  · intro he
    exact mem_of_find?_eq_some ((h k).symm.trans (find?_eq_some_of_mem hm he))
  · intro he
    exact mem_of_find?_eq_some ((h k).trans (find?_eq_some_of_mem hn he))

theorem find?_eq_of_perm {m n : Ordered κ α} (hm : (keys m).Nodup) (h : m.Perm n) (k : κ) :
    find? k m = find? k n := by
  have hn : (keys n).Nodup := (h.map Prod.fst).nodup_iff.mp hm
  cases hf : find? k m with
  | some v => exact (find?_eq_some_of_mem hn (h.mem_iff.mp (mem_of_find?_eq_some hf))).symm
  | none =>
      rw [find?_eq_none_iff] at hf
      exact (find?_eq_none_iff.mpr fun hk => hf ((h.map Prod.fst).mem_iff.mpr hk)).symm

theorem keys_nodup_put {k : κ} {v : α} {m : Ordered κ α} (h : (keys m).Nodup) :
    (keys (put k v m)).Nodup := by
  rw [keys_put]
  split
  · exact h
  · next hk =>
      refine List.nodup_append.mpr ⟨h, by simp, ?_⟩
      rintro a ha b hb rfl
      exact hk (List.mem_singleton.mp hb ▸ ha)

theorem mem_put {k : κ} {v : α} {m : Ordered κ α} {e : κ × α} (h : e ∈ put k v m) :
    e = (k, v) ∨ e ∈ m := by
  induction m with
  | nil => exact .inl (List.mem_singleton.mp h)
  | cons d r ih => grind [put]

theorem put_eq_self {k : κ} {v : α} {m : Ordered κ α} (h : find? k m = some v) :
    put k v m = m := by
  induction m with
  | nil => cases h
  | cons e r ih => grind [put, find?]

theorem put_eq_append {k : κ} {v : α} {m : Ordered κ α} (h : k ∉ keys m) :
    put k v m = m ++ [(k, v)] := by
  induction m with
  | nil => rfl
  | cons e r ih => grind [put, keys_cons]

theorem remove_sublist (k : κ) (m : Ordered κ α) : (remove k m).Sublist m := by
  induction m with
  | nil => exact .slnil
  | cons e r ih =>
      rw [remove]
      split
      · exact List.sublist_cons_self ..
      · exact ih.cons_cons e

omit [DecidableEq κ] in
theorem keys_nodup_of_sublist {m n : Ordered κ α} (h : m.Sublist n) (hn : (keys n).Nodup) :
    (keys m).Nodup := hn.sublist (h.map Prod.fst)

theorem keys_modify (k : κ) (f : α → α) (m : Ordered κ α) : keys (modify k f m) = keys m := by
  induction m with
  | nil => rfl
  | cons e r ih => grind [modify, keys_cons]

theorem mem_modify {k : κ} {f : α → α} {m : Ordered κ α} {e : κ × α} (h : e ∈ modify k f m) :
    e ∈ m ∨ ∃ v, (k, v) ∈ m ∧ e = (k, f v) := by
  induction m with
  | nil => cases h
  | cons d r ih => grind [modify]

theorem find?_modify (k j : κ) (f : α → α) (m : Ordered κ α) :
    find? j (modify k f m) = if k = j then (find? j m).map f else find? j m := by
  induction m with
  | nil => simp [modify, find?]
  | cons e r ih => grind [modify, find?]

theorem modify_eq_self {k : κ} {f : α → α} {m : Ordered κ α}
    (h : ∀ v, find? k m = some v → f v = v) : modify k f m = m := by
  induction m with
  | nil => rfl
  | cons e r ih => grind [modify, find?]

theorem find?_append (k : κ) (m n : Ordered κ α) :
    find? k (m ++ n) = (find? k m).or (find? k n) := by
  induction m with
  | nil => rfl
  | cons e r ih => grind [find?]

theorem find?_append_cons (m n : Ordered κ α) (k j : κ) (v : α) :
    find? j (m ++ (k, v) :: n) = (find? j m).or (if k = j then some v else find? j n) := by
  rw [find?_append, find?]

/-- Other entries stay where one is added or changed. -/
theorem find?_append_cons_of_ne {k j : κ} (h : k ≠ j) (m n : Ordered κ α) (v : α) :
    find? j (m ++ (k, v) :: n) = find? j (m ++ n) := by
  rw [find?_append_cons, if_neg h, find?_append]

theorem find?_append_cons_self {k : κ} {m : Ordered κ α} (h : k ∉ keys m) (v : α)
    (n : Ordered κ α) : find? k (m ++ (k, v) :: n) = some v := by
  rw [find?_append_cons, find?_eq_none_iff.mpr h, Option.none_or, if_pos rfl]

/-- An entry stands between those before it and those after it. -/
theorem exists_append_of_find? {k : κ} {v : α} {m : Ordered κ α} (h : find? k m = some v) :
    ∃ l r, m = l ++ (k, v) :: r ∧ k ∉ keys l := by
  induction m with
  | nil => cases h
  | cons e m ih =>
      rw [find?] at h
      split at h
      · next hk =>
          cases h
          exact ⟨[], m, by rw [← hk]; rfl, List.not_mem_nil⟩
      · next hk =>
          obtain ⟨l, r, rfl, hl⟩ := ih h
          refine ⟨e :: l, r, rfl, ?_⟩
          rw [keys_cons, List.mem_cons]
          exact fun h => h.elim (fun h => hk h.symm) hl

theorem modify_append_cons {k : κ} {l : Ordered κ α} (h : k ∉ keys l) (f : α → α) (v : α)
    (r : Ordered κ α) : modify k f (l ++ (k, v) :: r) = l ++ (k, f v) :: r := by
  induction l with
  | nil => simp [modify]
  | cons e l ih => grind [modify, keys_cons]

theorem remove_append_cons {k : κ} {l : Ordered κ α} (h : k ∉ keys l) (v : α)
    (r : Ordered κ α) : remove k (l ++ (k, v) :: r) = l ++ r := by
  induction l with
  | nil => simp [remove]
  | cons e l ih => grind [remove, keys_cons]

theorem has_append_cons (j : κ) (m n : Ordered κ α) (k : κ) (v w : α) :
    has j (m ++ (k, w) :: n) = has j (m ++ (k, v) :: n) := by
  rw [has, has, find?_append_cons, find?_append_cons]
  cases find? j m <;> by_cases hj : k = j <;> simp [hj]

theorem find?_remove_of_ne {k j : κ} (h : k ≠ j) (m : Ordered κ α) :
    find? j (remove k m) = find? j m := by
  induction m with
  | nil => rfl
  | cons e r ih => grind [remove, find?]

theorem remove_eq_self {k : κ} {m : Ordered κ α} (h : find? k m = none) : remove k m = m := by
  induction m with
  | nil => rfl
  | cons e r ih => grind [remove, find?]

theorem find?_remove_self {k : κ} {m : Ordered κ α} (h : (keys m).Nodup) :
    find? k (remove k m) = none := by
  induction m with
  | nil => rfl
  | cons e r ih =>
      obtain ⟨he, hr⟩ := List.nodup_cons.mp h
      rw [remove]
      split
      · next hek => exact find?_eq_none_iff.mpr (hek ▸ he)
      · next hek => rw [find?, if_neg hek, ih hr]

/-- A value that was put in place of another is undone by putting that one back. -/
theorem put_put_of_find? {k : κ} {v : α} {m : Ordered κ α} (h : find? k m = some v) (w : α) :
    put k v (put k w m) = m := by
  induction m with
  | nil => cases h
  | cons e r ih => grind [put, find?]

theorem remove_put (k : κ) (v : α) (m : Ordered κ α) : remove k (put k v m) = remove k m := by
  induction m with
  | nil => simp [put, remove]
  | cons e r ih => grind [put, remove]

/-- A value that was put where there was none is undone by removing it. -/
theorem remove_put_of_find? {k : κ} {m : Ordered κ α} (h : find? k m = none) (w : α) :
    remove k (put k w m) = m :=
  (remove_put k w m).trans (remove_eq_self h)

theorem modify_eq_put {k : κ} {v : α} {m : Ordered κ α} (h : find? k m = some v) (f : α → α) :
    modify k f m = put k (f v) m := by
  induction m with
  | nil => cases h
  | cons e r ih => grind [put, modify, find?]

theorem filter_put (k : κ) (v : α) (m : Ordered κ α) :
    (put k v m).filter (·.1 ≠ k) = m.filter (·.1 ≠ k) := by
  induction m with
  | nil => simp [put]
  | cons e r ih => grind [put]

theorem filter_remove (k : κ) (m : Ordered κ α) :
    (remove k m).filter (·.1 ≠ k) = m.filter (·.1 ≠ k) := by
  induction m with
  | nil => rfl
  | cons e r ih => grind [remove]

theorem perm_cons_remove {k : κ} {v : α} {m : Ordered κ α} (h : find? k m = some v) :
    m.Perm ((k, v) :: remove k m) := by
  induction m with
  | nil => cases h
  | cons e r ih =>
      rw [find?] at h
      rw [remove]
      split at h
      · next hk =>
          cases h
          rw [if_pos hk, ← hk]
      · next hk =>
          rw [if_neg hk]
          exact ((ih h).cons e).trans (.swap ..)

theorem keys_nodup_ofList (es : List (κ × α)) : (keys (ofList es)).Nodup := by
  suffices h : ∀ m : Ordered κ α, (keys m).Nodup →
      (keys (es.foldl (fun m e => put e.1 e.2 m) m)).Nodup from h [] List.nodup_nil
  induction es with
  | nil => exact fun m hm => hm
  | cons e r ih => exact fun m hm => ih _ (keys_nodup_put hm)

theorem mem_ofList {es : List (κ × α)} {e : κ × α} (h : e ∈ ofList es) : e ∈ es := by
  suffices hs : ∀ m : Ordered κ α, e ∈ es.foldl (fun m e => put e.1 e.2 m) m → e ∈ m ∨ e ∈ es from
    (hs [] h).resolve_left (by simp)
  clear h
  induction es with
  | nil => exact fun m hm => .inl hm
  | cons d r ih =>
      intro m hm
      rcases ih _ hm with hp | hr
      · rcases mem_put hp with rfl | hm'
        · exact .inr List.mem_cons_self
        · exact .inl hm'
      · exact .inr (List.mem_cons_of_mem _ hr)

omit [DecidableEq κ] in
theorem keys_filterMap_sublist (f : α → Option β) (m : Ordered κ α) :
    (keys (m.filterMap fun e => (f e.2).map (e.1, ·))).Sublist (keys m) := by
  induction m with
  | nil => exact .slnil
  | cons e m ih =>
      rw [List.filterMap_cons, keys_cons]
      cases f e.2 with
      | none => exact ih.cons e.1
      | some v => exact ih.cons_cons e.1

/-- Where no key is given twice, an entry that is left out is found no more. -/
theorem find?_filterMap (f : α → Option β) {m : Ordered κ α} (h : (keys m).Nodup) (k : κ) :
    find? k (m.filterMap fun e => (f e.2).map (e.1, ·)) = (find? k m).bind f := by
  induction m with
  | nil => rfl
  | cons e m ih =>
      obtain ⟨hout, hm⟩ := List.nodup_cons.mp h
      rw [List.filterMap_cons, find?]
      by_cases hk : e.1 = k
      · rw [if_pos hk, Option.bind_some]
        cases hf : f e.2 with
        | none =>
            rw [Option.map_none, ih hm, find?_eq_none_iff.mpr (hk ▸ hout), Option.bind_none]
        | some v => rw [Option.map_some, find?, if_pos hk]
      · rw [if_neg hk, ← ih hm]
        cases f e.2 with
        | none => rfl
        | some v => rw [Option.map_some, find?, if_neg hk]

theorem modify_modify (k : κ) (f g : α → α) (m : Ordered κ α) :
    modify k g (modify k f m) = modify k (g ∘ f) m := by
  induction m with
  | nil => rfl
  | cons e m ih => grind [modify]

theorem remove_eq_filter {k : κ} {m : Ordered κ α} (h : (keys m).Nodup) :
    remove k m = m.filter (·.1 ≠ k) := by
  rw [← filter_remove, eq_comm, List.filter_eq_self]
  intro e he
  refine decide_eq_true fun hk => ?_
  exact find?_eq_none_iff.mp (find?_remove_self h) (hk ▸ mem_keys_of_mem he)

end Ordered

end Rollout
