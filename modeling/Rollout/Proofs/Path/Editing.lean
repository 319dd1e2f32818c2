import Rollout.Proofs.Path.Lookup
/-!
What setting and removing by path do to the top of a tree, whatever the rest of the path is.
-/

namespace Rollout.Path

variable {x : Value} {k : String} {i : Nat} {s : Segment} {p : Path} {v : Value} {fs : Fields}

/-- The tree after setting a value, also where that fails on the way. -/
def afterSet (x : Value) (p : Path) (v : Value) : Value :=
  match set x p v with
  | .ok w => w
  | .error w => w

/-- Setting below a key leaves a mapping, in which only that key may differ. -/
theorem afterSet_key (x : Value) (k : String) (p : Path) (v : Value) :
    afterSet x (.key k :: p) v = .mapping (Ordered.put k
      (afterSet x p ((Ordered.find? k (fieldsFor v)).getD .null)) (fieldsFor v)) := by
  rw [afterSet, afterSet, set]
  cases set x p ((Ordered.find? k (fieldsFor v)).getD .null) <;> rfl

/-- What is under the key then is what setting makes of what was there. -/
theorem field?_afterSet (x : Value) (k : String) (p : Path) (v : Value) :
    (afterSet x (.key k :: p) v).field? k =
      some (afterSet x p ((v.field? k).getD .null)) := by
  have hbefore : Ordered.find? k (fieldsFor v) = v.field? k := by cases v <;> rfl
  rw [afterSet_key, hbefore]
  exact (Ordered.find?_put ..).trans (if_pos rfl)

/-- Setting below an index leaves a sequence, or fails with nothing done. -/
theorem afterSet_index (x : Value) (i : Nat) (p : Path) (v : Value) :
    afterSet x (.index i :: p) v = v ∨ ∃ vs, afterSet x (.index i :: p) v = .sequence vs := by
  by_cases hfar : maxPadding < i - (itemsFor v).length
  · left
    rw [afterSet, set, if_pos hfar]
  · right
    rw [afterSet, set, if_neg hfar]
    dsimp only
    cases set x p ((padTo i (itemsFor v))[i]?.getD .null) with
    | ok c => exact ⟨_, rfl⟩
    | error c => exact ⟨_, rfl⟩

/-- Setting below a text does away with it, or fails with nothing done. -/
theorem text?_afterSet (hp : p ≠ []) (v : Value) :
    (afterSet x p v).text? = v.text? ∨ (afterSet x p v).text? = none := by
  cases p with
  | nil => exact absurd rfl hp
  | cons s p =>
      cases s with
      | key k =>
          rw [afterSet_key]
          exact .inr rfl
      | index i =>
          rcases afterSet_index x i p v with h | ⟨vs, h⟩ <;> rw [h]
          · exact .inl rfl
          · exact .inr rfl

/-- The text under a key is as before or no text, unless the path is the key itself. -/
theorem fieldText?_afterSet (hp : p ≠ []) (hk : p ≠ [.key k]) (fs : Fields) :
    (afterSet x p (.mapping fs)).fieldText? k = (Value.mapping fs).fieldText? k ∨
      (afterSet x p (.mapping fs)).fieldText? k = none := by
  cases p with
  | nil => exact absurd rfl hp
  | cons s p =>
      cases s with
      | key j =>
          have hfield : (afterSet x (.key j :: p) (.mapping fs)).field? k =
              if j = k then some (afterSet x p ((Ordered.find? j fs).getD .null))
              else Ordered.find? k fs := by
            rw [afterSet_key]
            exact Ordered.find?_put ..
          rw [Value.fieldText?, hfield]
          split
          · next hjk =>
              subst hjk
              have hp : p ≠ [] := fun hp => hk (hp ▸ rfl)
              refine (text?_afterSet hp _).imp_left fun h => h.trans ?_
              change _ = (Ordered.find? j fs).bind Value.text?
              cases Ordered.find? j fs <;> rfl
          · exact .inl rfl
      | index i =>
          rcases afterSet_index x i p (.mapping fs) with h | ⟨vs, h⟩ <;> rw [h]
          · exact .inl rfl
          · exact .inr rfl

/-- Taking something out makes no text and does away with none. -/
theorem text?_modify_removeChild (s : Segment) (q : Path) (v : Value) :
    (Path.modify (removeChild s) q v).text? = v.text? := by
  cases q with
  | nil => cases s <;> cases v <;> rfl
  | cons t q => cases t <;> cases v <;> rfl

theorem modify_field (f : Value → Value) {k : String} {fs : Fields} (hk : k ∉ Ordered.keys fs)
    (p : Path) (v : Value) (gs : Fields) :
    Path.modify f (.key k :: p) (.mapping (fs ++ (k, v) :: gs)) =
      .mapping (fs ++ (k, Path.modify f p v) :: gs) := by
  rw [Path.modify, Ordered.modify_append_cons hk]

theorem modify_item (f : Value → Value) (p : Path) (us : List Value) (v : Value)
    (vs : List Value) :
    Path.modify f (.index us.length :: p) (.sequence (us ++ v :: vs)) =
      .sequence (us ++ Path.modify f p v :: vs) := by
  simp [Path.modify, List.modify_eq_set]

/-- Changing what is further down changes what is one step down, in place. -/
theorem modify_of_child? {c : Value} (h : child? s v = some c) (f : Value → Value) (p : Path) :
    Path.modify f (s :: p) v = Path.modify (fun _ => Path.modify f p c) [s] v := by
  cases s with
  | key k =>
      obtain ⟨fs, gs, rfl, hk⟩ := exists_of_child?_key h
      rw [modify_field f hk, modify_field _ hk]
      rfl
  | index i =>
      obtain ⟨us, vs, rfl, rfl⟩ := exists_of_child?_index h
      rw [modify_item, modify_item]
      rfl

/-- Putting back what is there changes nothing. -/
theorem modify_child?_self {c : Value} (h : child? s v = some c) :
    Path.modify (fun _ => c) [s] v = v := by
  cases s with
  | key k =>
      obtain ⟨fs, gs, rfl, hk⟩ := exists_of_child?_key h
      exact modify_field _ hk [] c gs
  | index i =>
      obtain ⟨us, vs, rfl, rfl⟩ := exists_of_child?_index h
      exact modify_item _ [] us c vs

theorem removeChild_eq_self (h : child? s v = none) : removeChild s v = v := by
  cases s with
  | key k =>
      cases v with
      | mapping fs => exact congrArg Value.mapping (Ordered.remove_eq_self h)
      | _ => rfl
  | index i =>
      cases v with
      | sequence vs =>
          have hi : vs.length ≤ i := List.getElem?_eq_none_iff.mp h
          exact congrArg Value.sequence (List.eraseIdx_of_length_le hi)
      | _ => rfl

theorem remove_cons (hp : p ≠ []) (s : Segment) (v : Value) : remove (s :: p) v =
    match child? s v with
    | none => (none, v)
    | some c => ((remove p c).1, Path.modify (fun _ => (remove p c).2) [s] v) := by
  cases p with
  | nil => exact absurd rfl hp
  | cons t p => rfl

/-- Removing what is not there changes nothing. -/
theorem remove_of_get?_eq_none (h : get? p v = none) : remove p v = (none, v) := by
  induction p generalizing v with
  | nil => cases h
  | cons s p ih =>
      by_cases hp : p = []
      · subst hp
        rw [get?_singleton] at h
        exact Prod.ext h (removeChild_eq_self h)
      · rw [remove_cons hp]
        cases hc : child? s v with
        | none => rfl
        | some c =>
            rw [get?_of_child? hc] at h
            simp only [ih h, modify_child?_self hc]

/-- Removing what is there takes it out of the container at the end of the path. -/
theorem remove_of_get? {q : Path} (h : get? (q ++ [s]) v = some x) :
    remove (q ++ [s]) v = (some x, Path.modify (removeChild s) q v) := by
  induction q generalizing v with
  | nil =>
      obtain ⟨c, hc, hx⟩ := Option.bind_eq_some_iff.mp h
      cases hx
      exact Prod.ext hc rfl
  | cons t q ih =>
      obtain ⟨c, hc, hx⟩ := Option.bind_eq_some_iff.mp h
      rw [List.cons_append, remove_cons (by simp), hc]
      simp only [ih hx, modify_of_child? hc (removeChild s) q]

theorem remove_eq_modify {q : Path} {s : Segment} {v : Value}
    (h : (get? (q ++ [s]) v).isSome) :
    (remove (q ++ [s]) v).2 = Path.modify (removeChild s) q v := by
  obtain ⟨x, hx⟩ := Option.isSome_iff_exists.mp h
  rw [remove_of_get? hx]

theorem remove_cases (p : Path) (v : Value) :
    (remove p v).2 = v ∨
      ∃ q s, p = q ++ [s] ∧ (remove p v).2 = Path.modify (removeChild s) q v := by
  cases h : get? p v with
  | none => exact .inl (congrArg Prod.snd (remove_of_get?_eq_none h))
  | some y =>
      rcases List.eq_nil_or_concat p with rfl | ⟨q, s, rfl⟩
      · exact .inl rfl
      · rw [List.concat_eq_append] at h ⊢
        exact .inr ⟨q, s, rfl, congrArg Prod.snd (remove_of_get? h)⟩

/-- Removing further below a key takes something out of what is under the key, if anything. -/
theorem getD_field?_remove (k : String) (hp : p ≠ []) (v : Value) :
    ((remove (.key k :: p) v).2.field? k).getD .null = (v.field? k).getD .null ∨
      ∃ q s, ((remove (.key k :: p) v).2.field? k).getD .null =
        Path.modify (removeChild s) q ((v.field? k).getD .null) := by
  rcases remove_cases (.key k :: p) v with hsame | ⟨q, s, hq, hremove⟩
  · rw [hsame]
    exact .inl rfl
  · cases q with
    | nil =>
        cases hq
        exact absurd rfl hp
    | cons t q =>
        cases hq
        rw [hremove]
        cases v with
        | mapping fs =>
            change (Ordered.find? k (Ordered.modify k _ fs)).getD .null =
                (Ordered.find? k fs).getD .null ∨
              ∃ q s, (Ordered.find? k (Ordered.modify k _ fs)).getD .null =
                Path.modify (removeChild s) q ((Ordered.find? k fs).getD .null)
            rw [Ordered.find?_modify, if_pos rfl]
            cases Ordered.find? k fs with
            | none => exact .inl rfl
            | some w => exact .inr ⟨q, s, rfl⟩
        | _ => exact .inl rfl

/-- The text under a key is as before, or the key is gone. -/
theorem fieldText?_modify_removeChild (hfs : (Value.mapping fs).WellKeyed) (s : Segment)
    (q : Path) (k : String) :
    (Path.modify (removeChild s) q (.mapping fs)).fieldText? k = (Value.mapping fs).fieldText? k ∨
      (Path.modify (removeChild s) q (.mapping fs)).fieldText? k = none := by
  rw [Value.wellKeyed_mapping] at hfs
  cases q with
  | nil =>
      cases s with
      | key j =>
          change ((Ordered.find? k (Ordered.remove j fs)).bind _ = _) ∨
            (Ordered.find? k (Ordered.remove j fs)).bind _ = _
          by_cases hjk : j = k
          · subst hjk
            rw [Ordered.find?_remove_self hfs.1]
            exact .inr rfl
          · rw [Ordered.find?_remove_of_ne hjk]
            exact .inl rfl
      | index i => exact .inl rfl
  | cons t q =>
      cases t with
      | key j =>
          left
          change (Ordered.find? k (Ordered.modify j (Path.modify (removeChild s) q) fs)).bind _ =
            (Ordered.find? k fs).bind _
          rw [Ordered.find?_modify]
          split
          · cases Ordered.find? k fs with
            | none => rfl
            | some v => exact text?_modify_removeChild s q v
          · rfl
      | index i => exact .inl rfl

end Rollout.Path
