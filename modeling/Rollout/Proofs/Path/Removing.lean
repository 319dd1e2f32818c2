import Rollout.Proofs.Path.Difference
import Rollout.Proofs.Path.Editing
import Rollout.Proofs.Path.Setting
/-!
Removing a value by path: what is given back, how the tree without the value differs from the tree
with it, and that removing undoes setting.
-/

namespace Rollout.Path

open Value

variable {x y : Value} {s : Segment} {p q : Path} {v w c c' : Value} {k : String}

/-- A container, and what is left of it without the entry `y` that a segment leads to. -/
inductive Without (y : Value) : Segment → Value → Value → Prop
  | field {k : String} {fs gs : Fields} : k ∉ Ordered.keys (fs ++ gs) →
      Without y (.key k) (.mapping (fs ++ (k, y) :: gs)) (.mapping (fs ++ gs))
  | item {us vs : List Value} :
      Without y (.index us.length) (.sequence (us ++ y :: vs)) (.sequence (us ++ vs))

/-- What taking `y` from the end of a path makes of `v`. -/
structure Takes (q : Path) (s : Segment) (y v w : Value) : Prop where
  /-- Only the container loses the entry; all else is as it was, in its order. -/
  container : ∃ c c', Without y s c c' ∧ DiffersAt c c' q v w
  gone : ∀ k, s = .key k → get? (q ++ [s]) w = none
  /-- Later items move down by one. -/
  moved : ∀ i, s = .index i → ∀ j r, i ≤ j →
    get? (q ++ .index j :: r) w = get? (q ++ .index (j + 1) :: r) v
  /-- Paths that part before the end read what they read before. -/
  apart : ∀ u a b r r', q = u ++ a :: r → b ≠ a → get? (u ++ b :: r') w = get? (u ++ b :: r') v
  fields : ∀ k l r, s = .key k → l ≠ k → get? (q ++ .key l :: r) w = get? (q ++ .key l :: r) v
  items : ∀ i j r, s = .index i → j < i → get? (q ++ .index j :: r) w = get? (q ++ .index j :: r) v

/-- Taking out what is in a container leaves the container without it. -/
theorem without_removeChild (hc : c.WellKeyed) (h : child? s c = some y) :
    Without y s c (removeChild s c) := by
  cases s with
  | key k =>
      obtain ⟨fs, gs, rfl, hk⟩ := exists_of_child?_key h
      have hgone := Ordered.find?_remove_self (k := k) (wellKeyed_mapping.mp hc).1
      rw [Ordered.remove_append_cons hk] at hgone
      rw [removeChild, Ordered.remove_append_cons hk]
      exact .field (Ordered.find?_eq_none_iff.mp hgone)
  | index i =>
      obtain ⟨us, vs, rfl, rfl⟩ := exists_of_child?_index h
      have hrest : (us ++ y :: vs).eraseIdx us.length = us ++ vs := by
        simp [List.eraseIdx_append_of_length_le]
      rw [removeChild, hrest]
      exact .item

/-- All that taking out an entry does to a tree, it does to the container. -/
theorem takes_of_without (h : Without y s c c') (hd : DiffersAt c c' q v w) :
    Takes q s y v w := by
  have hleft := get?_append_of_get? hd.get?_left
  have hright := get?_append_of_get? hd.get?_right
  refine ⟨⟨c, c', h, hd⟩, ?_, ?_, fun u a b r r' hq hb => hd.get?_of_ne hq hb r', ?_, ?_⟩
  · rintro k rfl
    cases h with
    | field hk =>
        rw [hright, get?_key_mapping, Ordered.find?_eq_none_iff.mpr hk, Option.bind_none]
  · rintro i rfl j r hij
    cases h with
    | @item us vs =>
        have hnext : (us ++ vs)[j]? = (us ++ y :: vs)[j + 1]? := by
          rw [List.getElem?_append_right hij, List.getElem?_append_right (Nat.le_succ_of_le hij),
            Nat.succ_sub hij, List.getElem?_cons_succ]
        rw [hleft, hright, get?, get?, child?_index, child?_index]
        exact congrArg (Option.bind · (get? r)) hnext
  · rintro k l r rfl hl
    cases h with
    | field hk =>
        rw [hleft, hright, get?_key_mapping, get?_key_mapping,
          Ordered.find?_append_cons_of_ne (Ne.symm hl)]
  · rintro i j r rfl hj
    cases h with
    | @item us vs =>
        have hsame : (us ++ vs)[j]? = (us ++ y :: vs)[j]? := by
          rw [List.getElem?_append_left hj, List.getElem?_append_left hj]
        rw [hleft, hright, get?, get?, child?_index, child?_index]
        exact congrArg (Option.bind · (get? r)) hsame

section RoundTrip

theorem not_beyond_of_child? (h : child? s v = some c) : ¬ Beyond s v := by
  cases s with
  | key k => exact id
  | index i =>
      rw [child?_index] at h
      obtain ⟨hlt, -⟩ := List.getElem?_eq_some_iff.mp h
      rw [Beyond]
      omega

/-- Below a segment that leads somewhere, a value is put in place. -/
theorem putUnder_eq_modify (h : child? s v = some c) (d : Value) :
    putUnder s d v = Path.modify (fun _ => d) [s] v := by
  cases s with
  | key k =>
      obtain ⟨fs, gs, rfl, hk⟩ := exists_of_child?_key h
      have hfind : Ordered.find? k (fs ++ (k, c) :: gs) = some c := h
      exact congrArg Value.mapping (Ordered.modify_eq_put hfind fun _ => d).symm
  | index i =>
      obtain ⟨us, vs, rfl, rfl⟩ := exists_of_child?_index h
      have hpad : padTo us.length (us ++ c :: vs) = us ++ c :: vs := by simp [padTo]
      rw [modify_item, putUnder, itemsFor, items?, Option.getD_some, hpad]
      simp [Path.modify]

/-- Setting starts from what is there already. -/
theorem set_append_of_get? (h : get? q v = some c) (hset : set x p c = .ok c') :
    set x (q ++ p) v = .ok (Path.modify (fun _ => c') q v) := by
  induction q generalizing v with
  | nil =>
      cases h
      exact hset
  | cons s q ih =>
      obtain ⟨d, hd, hc⟩ := Option.bind_eq_some_iff.mp h
      rw [List.cons_append, set_cons (not_beyond_of_child? hd), under_of_child? hd, ih hc,
        modify_of_child? hd]
      exact congrArg Except.ok (putUnder_eq_modify hd _)

/-- Removing what was set under a new key of a mapping restores the tree. -/
theorem remove_of_set {fs : Fields} (h : get? q v = some (.mapping fs))
    (hk : Ordered.find? k fs = none) (x : Value) :
    ∃ w, set x (q ++ [.key k]) v = .ok w ∧ remove (q ++ [.key k]) w = (some x, v) := by
  have hset : set x [.key k] (.mapping fs) = .ok (.mapping (Ordered.put k x fs)) := rfl
  have hdiff := differsAt_modify (fun _ => .mapping (Ordered.put k x fs)) h
  refine ⟨_, set_append_of_get? h hset, ?_⟩
  have hget : get? (q ++ [.key k]) (Path.modify (fun _ => .mapping (Ordered.put k x fs)) q v) =
      some x := by
    rw [get?_append_of_get? hdiff.get?_right, get?_key_mapping, Ordered.find?_put, if_pos rfl]
    rfl
  have hback : removeChild (.key k) (.mapping (Ordered.put k x fs)) = .mapping fs :=
    congrArg Value.mapping (Ordered.remove_put_of_find? hk x)
  rw [remove_of_get? hget, hdiff.symm.modify_eq hback]

end RoundTrip

theorem takes_of_get? (hv : v.WellKeyed) (h : get? (q ++ [s]) v = some y) :
    Takes q s y v (remove (q ++ [s]) v).2 := by
  rw [remove_of_get? h]
  rw [get?_append] at h
  obtain ⟨c, hc, hlast⟩ := Option.bind_eq_some_iff.mp h
  rw [get?_singleton] at hlast
  exact takes_of_without (without_removeChild (wellKeyed_get? hv hc) hlast) (differsAt_modify _ hc)

/-- Removing gives what is at a path, which is never empty. It leaves a tree that has nothing there
as it is, takes the entry out of its container otherwise, and undoes setting a new key of a
mapping. -/
theorem takes_remove (q : Path) (s : Segment) (x : Value) (t : Tree) :
    (remove (q ++ [s]) t.1).1 = get? (q ++ [s]) t.1 ∧
      (get? (q ++ [s]) t.1 = none → (remove (q ++ [s]) t.1).2 = t.1) ∧
      (∀ y, get? (q ++ [s]) t.1 = some y → Takes q s y t.1 (remove (q ++ [s]) t.1).2) ∧
      ∀ k fs, s = .key k → get? (q ++ [s]) t.1 = none → get? q t.1 = some (.mapping fs) →
        ∃ w, set x (q ++ [s]) t.1 = .ok w ∧ remove (q ++ [s]) w = (some x, t.1) := by
  refine ⟨?_, fun h => congrArg Prod.snd (remove_of_get?_eq_none h), fun y => takes_of_get? t.2, ?_⟩
  · cases h : get? (q ++ [s]) t.1 with
    | none => exact congrArg Prod.fst (remove_of_get?_eq_none h)
    | some y => exact congrArg Prod.fst (remove_of_get? h)
  · rintro k fs rfl hnone hfs
    rw [get?_append_of_get? hfs, get?_singleton] at hnone
    exact remove_of_set hfs hnone x

/-- An argument that is taken out of three; a key that is not there; and a new key that is set and
removed. -/
theorem takes_remove_args :
    let v := Value.mapping [("args", .sequence [.string "-v", .string "-x", .string "-q"]),
      ("name", .string "app")]
    let w := (remove [.key "args", .index 1] v).2
    (remove [.key "args", .index 1] v).1 = some (.string "-x") ∧
      get? [.key "args", .index 1] w = get? [.key "args", .index 2] v ∧
      get? [.key "args", .index 0] w = get? [.key "args", .index 0] v ∧
      get? [.key "name"] w = get? [.key "name"] v ∧
      (remove [.key "image"] v).2 = v ∧
      ∃ u, set (.string "app:1") [.key "image"] v = .ok u ∧
        remove [.key "image"] u = (some (.string "app:1"), v) := by
  intro v w
  have hv : v.WellKeyed := by simp [v, Ordered.keys]
  obtain ⟨hgot, -, htakes, -⟩ := takes_remove [.key "args"] (.index 1) .null ⟨v, hv⟩
  obtain ⟨-, hsame, -, hback⟩ := takes_remove [] (.key "image") (.string "app:1") ⟨v, hv⟩
  have h := htakes (.string "-x") rfl
  refine ⟨hgot, h.moved 1 rfl 1 [] (Nat.le_refl 1), h.items 1 0 [] rfl (by decide), ?_, hsame rfl,
    hback "image" _ rfl rfl rfl⟩
  exact h.apart [] (.key "args") (.key "name") [] [] rfl (by decide)

end Rollout.Path
