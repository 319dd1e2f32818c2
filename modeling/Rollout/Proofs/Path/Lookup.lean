import Rollout.Path.Edit
/-!
Reading by path, one step at a time: what is below a segment, and what a path reads from there.
-/

namespace Rollout

namespace Value

/-- What is one step further down, null if there is nothing. -/
def under (s : Segment) (v : Value) : Value := (Path.child? s v).getD .null

@[simp] theorem under_null (s : Segment) : Value.null.under s = .null := by cases s <;> rfl

theorem find?_fieldsFor (k : String) (v : Value) :
    Ordered.find? k (Path.fieldsFor v) = v.field? k := by cases v <;> rfl

end Value

namespace Path

variable {s : Segment} {p q : Path} {v c : Value}

open Value

theorem exists_of_get?_key {k : String} {p : Path} {v : Value}
    (h : (get? (.key k :: p) v).isSome) :
    ∃ fs w, v = .mapping fs ∧ Ordered.find? k fs = some w ∧ (get? p w).isSome := by
  obtain ⟨x, hx⟩ := Option.isSome_iff_exists.mp h
  obtain ⟨w, hw, hp⟩ := Option.bind_eq_some_iff.mp hx
  cases v with
  | mapping fs => exact ⟨fs, w, rfl, hw, Option.isSome_of_eq_some hp⟩
  | _ => cases hw

theorem exists_of_get?_index {i : Nat} {p : Path} {v : Value}
    (h : (get? (.index i :: p) v).isSome) :
    ∃ vs w, v = .sequence vs ∧ vs[i]? = some w ∧ (get? p w).isSome := by
  obtain ⟨x, hx⟩ := Option.isSome_iff_exists.mp h
  obtain ⟨w, hw, hp⟩ := Option.bind_eq_some_iff.mp hx
  cases v with
  | sequence vs => exact ⟨vs, w, rfl, hw, Option.isSome_of_eq_some hp⟩
  | _ => cases hw

theorem get?_key_mapping (k : String) (p : Path) (fs : Fields) :
    get? (.key k :: p) (.mapping fs) = (Ordered.find? k fs).bind (get? p) := rfl

theorem get?_key_of_find? {k : String} {p : Path} {fs : Fields} {v : Value}
    (h : Ordered.find? k fs = some v) : get? (.key k :: p) (.mapping fs) = get? p v := by
  rw [get?_key_mapping, h, Option.bind_some]

theorem get?_index_of_getElem? {i : Nat} {p : Path} {vs : List Value} {v : Value}
    (h : vs[i]? = some v) : get? (.index i :: p) (.sequence vs) = get? p v := by
  rw [get?, child?, items?, Option.bind_some, h, Option.bind_some]

theorem child?_key (k : String) (v : Value) :
    child? (.key k) v = Ordered.find? k (fieldsFor v) := (find?_fieldsFor k v).symm

theorem child?_index (i : Nat) (v : Value) : child? (.index i) v = (itemsFor v)[i]? := by
  cases v <;> simp [child?, itemsFor, items?]

/-- The entry of a mapping behind others. -/
theorem child?_field {fs : Fields} {k : String} (hk : k ∉ Ordered.keys fs) (v : Value)
    (gs : Fields) : child? (.key k) (.mapping (fs ++ (k, v) :: gs)) = some v :=
  Ordered.find?_append_cons_self hk v gs

/-- The item of a sequence behind others. -/
theorem child?_item (us : List Value) (v : Value) (vs : List Value) :
    child? (.index us.length) (.sequence (us ++ v :: vs)) = some v := by
  simp [child?, items?]

theorem exists_of_child?_key {k : String} (h : child? (.key k) v = some c) :
    ∃ fs gs, v = .mapping (fs ++ (k, c) :: gs) ∧ k ∉ Ordered.keys fs := by
  cases v with
  | mapping fs =>
      obtain ⟨l, r, rfl, hk⟩ := Ordered.exists_append_of_find? h
      exact ⟨l, r, rfl, hk⟩
  | _ => cases h

theorem exists_of_child?_index {i : Nat} (h : child? (.index i) v = some c) :
    ∃ us vs, v = .sequence (us ++ c :: vs) ∧ us.length = i := by
  cases v with
  | sequence vs =>
      have hi : vs[i]? = some c := h
      obtain ⟨hlt, rfl⟩ := List.getElem?_eq_some_iff.mp hi
      refine ⟨vs.take i, vs.drop (i + 1), ?_, List.length_take_of_le (Nat.le_of_lt hlt)⟩
      simp
  | _ => cases h

theorem get?_append (p q : Path) (v : Value) : get? (p ++ q) v = (get? p v).bind (get? q) := by
  induction p generalizing v with
  | nil => rfl
  | cons s p ih =>
      rw [List.cons_append, get?, get?, Option.bind_assoc]
      congr 1
      funext c
      exact ih c

theorem get?_append_of_get? (h : get? q v = some c) (p : Path) :
    get? (q ++ p) v = get? p c := by
  rw [get?_append, h, Option.bind_some]

theorem get?_null (hp : p ≠ []) : get? p .null = none := by
  cases p with
  | nil => exact absurd rfl hp
  | cons s p => cases s <;> rfl

theorem get?_of_child? (h : child? s v = some c) (p : Path) : get? (s :: p) v = get? p c := by
  rw [get?, h, Option.bind_some]

theorem under_of_child? (h : child? s v = some c) : v.under s = c := by
  rw [under, h, Option.getD_some]

theorem get?_singleton (s : Segment) (v : Value) : get? [s] v = child? s v := by
  rw [get?]
  cases child? s v <;> rfl

theorem wellKeyed_get? (hv : v.WellKeyed) (h : get? p v = some c) : c.WellKeyed := by
  induction p generalizing v with
  | nil =>
      cases h
      exact hv
  | cons s p ih =>
      obtain ⟨d, hd, hc⟩ := Option.bind_eq_some_iff.mp h
      exact ih (wellKeyed_child? hv hd) hc

/-- Further down, nothing is read from what is not there. -/
theorem get?_cons_of_ne_nil (hp : p ≠ []) (s : Segment) (v : Value) :
    get? (s :: p) v = get? p (v.under s) := by
  rw [get?, under]
  cases child? s v with
  | none => exact (get?_null hp).symm
  | some c => rfl

end Path

end Rollout
