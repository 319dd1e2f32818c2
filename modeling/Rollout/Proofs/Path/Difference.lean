import Rollout.Proofs.Path.Editing
/-!
Trees that differ in one place only: what is read from them elsewhere, and that such is what
changing a value by path makes.
-/

namespace Rollout.Path

open Value

variable {p q : Path} {v w c c' : Value}

/-- Trees that differ in nothing but what is at a path, `c` in one and `c'` in the other. -/
inductive DiffersAt (c c' : Value) : Path → Value → Value → Prop
  | here : DiffersAt c c' [] c c'
  | field {k : String} {fs gs : Fields} {p : Path} {v w : Value} : k ∉ Ordered.keys fs →
      DiffersAt c c' p v w →
      DiffersAt c c' (.key k :: p) (.mapping (fs ++ (k, v) :: gs)) (.mapping (fs ++ (k, w) :: gs))
  | item {us vs : List Value} {p : Path} {v w : Value} : DiffersAt c c' p v w →
      DiffersAt c c' (.index us.length :: p) (.sequence (us ++ v :: vs)) (.sequence (us ++ w :: vs))

namespace DiffersAt

theorem get?_left (h : DiffersAt c c' q v w) : get? q v = some c := by
  induction h with
  | here => rfl
  | field hk _ ih => rw [get?_of_child? (child?_field hk _ _), ih]
  | item _ ih => rw [get?_of_child? (child?_item _ _ _), ih]

theorem get?_right (h : DiffersAt c c' q v w) : get? q w = some c' := by
  induction h with
  | here => rfl
  | field hk _ ih => rw [get?_of_child? (child?_field hk _ _), ih]
  | item _ ih => rw [get?_of_child? (child?_item _ _ _), ih]

/-- One step down from where trees differ, another segment finds the same in both. -/
theorem child?_eq {a b : Segment} (h : DiffersAt c c' (a :: p) v w) (hb : b ≠ a) :
    child? b w = child? b v := by
  cases h with
  | @field k fs gs p v w hk h =>
      cases b with
      | key l =>
          have hne : k ≠ l := fun hkl => hb (congrArg Segment.key hkl.symm)
          change Ordered.find? l _ = Ordered.find? l _
          rw [Ordered.find?_append_cons_of_ne hne, Ordered.find?_append_cons_of_ne hne]
      | index i => rfl
  | @item us vs p v w h =>
      cases b with
      | key l => rfl
      | index i =>
          have hne : us.length ≠ i := fun hi => hb (congrArg Segment.index hi.symm)
          change (us ++ w :: vs)[i]? = (us ++ v :: vs)[i]?
          rw [List.getElem?_append, List.getElem?_append]
          split
          · rfl
          · next hi => 
              obtain ⟨n, hn⟩ := Nat.exists_eq_succ_of_ne_zero (n := i - us.length) (by omega)
              rw [hn, List.getElem?_cons_succ, List.getElem?_cons_succ]

/-- What parts from the path on the way reads the same in both trees. -/
theorem get?_of_ne {a b : Segment} {u r : Path} (h : DiffersAt c c' q v w) (hq : q = u ++ a :: r)
    (hb : b ≠ a) (r' : Path) : get? (u ++ b :: r') w = get? (u ++ b :: r') v := by
  induction u generalizing q v w with
  | nil =>
      subst hq
      rw [List.nil_append, get?, get?, h.child?_eq hb]
  | cons t u ih =>
      subst hq
      cases h with
      | field hk h =>
          rw [List.cons_append, get?_of_child? (child?_field hk _ _),
            get?_of_child? (child?_field hk _ _)]
          exact ih h rfl
      | item h =>
          rw [List.cons_append, get?_of_child? (child?_item _ _ _),
            get?_of_child? (child?_item _ _ _)]
          exact ih h rfl

theorem symm (h : DiffersAt c c' q v w) : DiffersAt c' c q w v := by
  induction h with
  | here => exact .here
  | field hk _ ih => exact .field hk ih
  | item _ ih => exact .item ih

/-- A tree is the other with what is at the path replaced. -/
theorem modify_eq {f : Value → Value} (h : DiffersAt c c' q v w) (hf : f c = c') :
    Path.modify f q v = w := by
  induction h with
  | here => exact hf
  | field hk _ ih => rw [modify_field f hk, ih]
  | item _ ih => rw [modify_item, ih]

end DiffersAt

/-- Changing what is at a path changes nothing else. -/
theorem differsAt_modify (f : Value → Value) (h : get? q v = some c) :
    DiffersAt c (f c) q v (Path.modify f q v) := by
  induction q generalizing v with
  | nil =>
      cases h
      exact .here
  | cons t q ih =>
      obtain ⟨d, hd, hc⟩ := Option.bind_eq_some_iff.mp h
      cases t with
      | key k =>
          obtain ⟨fs, gs, rfl, hk⟩ := exists_of_child?_key hd
          rw [modify_field f hk]
          exact .field hk (ih hc)
      | index i =>
          obtain ⟨us, vs, rfl, rfl⟩ := exists_of_child?_index hd
          rw [modify_item]
          exact .item (ih hc)

end Rollout.Path
