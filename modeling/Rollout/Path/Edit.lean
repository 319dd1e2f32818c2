import Rollout.Path
import Rollout.Value
/-!
Looking up, setting and removing values of a tree by path.
-/

namespace Rollout.Path

/-- Setting pads a sequence with at most so many nulls before the new item. -/
def maxPadding : Nat := 1024

def child? : Segment → Value → Option Value
  | .key k, v => v.field? k
  | .index i, v => v.items?.bind (·[i]?)

def get? : Path → Value → Option Value
  | [], v => some v
  | s :: p, v => (child? s v).bind (get? p)

/-- The fields a key is set in: those of a mapping, else none. -/
def fieldsFor (v : Value) : Fields := v.fields?.getD []

def itemsFor (v : Value) : List Value := v.items?.getD []

/-- Items up to and with index `i`, with nulls where there were none. -/
def padTo (i : Nat) (vs : List Value) : List Value :=
  vs ++ List.replicate (i + 1 - vs.length) .null

/-- Sets a value, creating mappings and sequences on the way and replacing what is neither.
When an index lies too far past the end, the error holds the tree with what was
created before it. -/
def set (x : Value) : Path → Value → Except Value Value
  | [], _ => .ok x
  | .key k :: p, v =>
    let fs := fieldsFor v
    let put := fun c => Value.mapping (Ordered.put k c fs)
    match set x p ((Ordered.find? k fs).getD .null) with
    | .ok c => .ok (put c)
    | .error c => .error (put c)
  | .index i :: p, v =>
    if maxPadding < i - (itemsFor v).length then .error v
    else
      let vs := padTo i (itemsFor v)
      let put := fun c => Value.sequence (vs.set i c)
      match set x p (vs[i]?.getD .null) with
      | .ok c => .ok (put c)
      | .error c => .error (put c)

/-- Replaces the value at a path that is there. -/
def modify (f : Value → Value) : Path → Value → Value
  | [], v => f v
  | .key k :: p, v =>
    match v with
    | .mapping fs => .mapping (Ordered.modify k (modify f p) fs)
    | v => v
  | .index i :: p, v =>
    match v with
    | .sequence vs => .sequence (vs.modify i (modify f p))
    | v => v

/-- Takes an entry out of a mapping or a sequence; the others keep their order. -/
def removeChild (s : Segment) (v : Value) : Value :=
  match s, v with
  | .key k, .mapping fs => .mapping (Ordered.remove k fs)
  | .index i, .sequence vs => .sequence (vs.eraseIdx i)
  | _, v => v

/-- The value at a path and the tree without it. -/
def remove : Path → Value → Option Value × Value
  | [], v => (none, v)
  | [s], v => (child? s v, removeChild s v)
  | s :: p, v =>
    match child? s v with
    | none => (none, v)
    | some c =>
      let (x, c) := remove p c
      (x, modify (fun _ => c) [s] v)

theorem wellKeyed_fieldsFor {v : Value} (h : v.WellKeyed) :
    (Value.mapping (fieldsFor v)).WellKeyed := by
  cases v with
  | mapping fs => exact h
  | _ => simp [fieldsFor, Value.fields?, Ordered.keys]

theorem wellKeyed_itemsFor {v : Value} (h : v.WellKeyed) : ∀ x ∈ itemsFor v, x.WellKeyed := by
  cases v with
  | sequence vs => exact Value.wellKeyed_sequence.mp h
  | _ => simp [itemsFor, Value.items?]

theorem wellKeyed_padTo {vs : List Value} (i : Nat) (h : ∀ x ∈ vs, x.WellKeyed) :
    ∀ x ∈ padTo i vs, x.WellKeyed := by
  intro x hx
  rcases List.mem_append.mp hx with hx | hx
  · exact h x hx
  · rw [List.eq_of_mem_replicate hx]
    trivial

theorem wellKeyed_getD_null {v? : Option Value} (h : ∀ v, v? = some v → v.WellKeyed) :
    (v?.getD .null).WellKeyed := by
  cases v? with
  | none => trivial
  | some v => exact h v rfl

/-- Setting keeps a tree well keyed, also where it fails on the way. -/
theorem wellKeyed_set {x : Value} (hx : x.WellKeyed) (p : Path) {v w : Value} (hv : v.WellKeyed)
    (h : set x p v = .ok w ∨ set x p v = .error w) : w.WellKeyed := by
  induction p generalizing v w with
  | nil =>
      rcases h with h | h <;> cases h
      exact hx
  | cons s p ih =>
      cases s with
      | key k =>
          have hfs := wellKeyed_fieldsFor hv
          have hchild := wellKeyed_getD_null fun c hc =>
            (Value.wellKeyed_mapping.mp hfs).2 _ (Ordered.mem_of_find?_eq_some (k := k) hc)
          rw [set] at h
          cases hs : set x p ((Ordered.find? k (fieldsFor v)).getD .null) with
          | ok c =>
              simp only [hs] at h
              rcases h with h | h <;> cases h
              exact hfs.put k (ih hchild (.inl hs))
          | error c =>
              simp only [hs] at h
              rcases h with h | h <;> cases h
              exact hfs.put k (ih hchild (.inr hs))
      | index i =>
          have hvs := wellKeyed_padTo i (wellKeyed_itemsFor hv)
          have hchild := wellKeyed_getD_null fun c hc =>
            hvs c (List.mem_of_getElem? (i := i) hc)
          have hput : ∀ c : Value, c.WellKeyed →
              (Value.sequence ((padTo i (itemsFor v)).set i c)).WellKeyed := by
            intro c hc
            refine Value.wellKeyed_sequence.mpr fun y hy => ?_
            rcases List.mem_or_eq_of_mem_set hy with hy | rfl
            · exact hvs y hy
            · exact hc
          rw [set] at h
          split at h
          · rcases h with h | h <;> cases h
            exact hv
          · cases hs : set x p ((padTo i (itemsFor v))[i]?.getD .null) with
            | ok c =>
                simp only [hs] at h
                rcases h with h | h <;> cases h
                exact hput c (ih hchild (.inl hs))
            | error c =>
                simp only [hs] at h
                rcases h with h | h <;> cases h
                exact hput c (ih hchild (.inr hs))

theorem wellKeyed_modify {f : Value → Value} (hf : ∀ v : Value, v.WellKeyed → (f v).WellKeyed)
    (p : Path) {v : Value} (hv : v.WellKeyed) : (modify f p v).WellKeyed := by
  induction p generalizing v with
  | nil => exact hf v hv
  | cons s p ih =>
      cases s with
      | key k =>
          cases v with
          | mapping fs => exact hv.modify k fun c hc => ih hc
          | _ => exact hv
      | index i =>
          cases v with
          | sequence vs =>
              refine Value.wellKeyed_sequence.mpr fun y hy => ?_
              obtain ⟨j, hj⟩ := List.getElem?_of_mem hy
              rw [List.getElem?_modify] at hj
              obtain ⟨c, hc, rfl⟩ := Option.map_eq_some_iff.mp hj
              have hcv := Value.wellKeyed_sequence.mp hv c (List.mem_of_getElem? hc)
              split
              · exact ih hcv
              · exact hcv
          | _ => exact hv

theorem wellKeyed_removeChild (s : Segment) {v : Value} (hv : v.WellKeyed) :
    (removeChild s v).WellKeyed := by
  unfold removeChild
  split
  · exact hv.remove _
  · exact Value.wellKeyed_sequence.mpr fun y hy =>
      Value.wellKeyed_sequence.mp hv y (List.mem_of_mem_eraseIdx hy)
  · exact hv

theorem wellKeyed_child? {s : Segment} {v c : Value} (hv : v.WellKeyed) (h : child? s v = some c) :
    c.WellKeyed := by
  cases s with
  | key k => exact hv.field? h
  | index i =>
      obtain ⟨vs, hvs, hc⟩ := Option.bind_eq_some_iff.mp h
      exact hv.items? hvs c (List.mem_of_getElem? hc)

theorem wellKeyed_remove (p : Path) {v : Value} (hv : v.WellKeyed) : (remove p v).2.WellKeyed := by
  induction p generalizing v with
  | nil => exact hv
  | cons s p ih =>
      cases p with
      | nil => exact wellKeyed_removeChild s hv
      | cons t p =>
          rw [remove]
          split
          · exact hv
          · next c hc => exact wellKeyed_modify (fun _ _ => ih (wellKeyed_child? hv hc)) [s] hv
          · simp

end Rollout.Path
