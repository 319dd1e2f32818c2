import Rollout.Proofs.Path.Lookup
/-!
Setting a value by path: when that fails, that the value is there afterwards, and which other
paths read what they read before.
-/

namespace Rollout.Path

open Value

variable {x : Value} {s : Segment} {p q : Path} {v w c : Value} {i j : Nat} {k l : String}

/-- The number of items of the sequence at a path; 0 where there is no sequence. -/
def lengthAt (q : Path) (v : Value) : Nat := (((get? q v).bind items?).getD []).length

/-- The path takes an index too far past the end of the sequence that is there. -/
def TooFar (p : Path) (v : Value) : Prop :=
  ∃ q i r, p = q ++ .index i :: r ∧ lengthAt q v + 1024 < i

/-- Setting that comes to nothing where it would enter a sequence out of its bounds. -/
def setWithin? (x : Value) : Path → Value → Option (Except Value Value)
  | [], _ => some (.ok x)
  | .key k :: p, v =>
    let fs := fieldsFor v
    let put := fun c => Value.mapping (Ordered.put k c fs)
    match setWithin? x p ((Ordered.find? k fs).getD .null) with
    | some (.ok c) => some (.ok (put c))
    | some (.error c) => some (.error (put c))
    | none => none
  | .index i :: p, v =>
    if maxPadding < i - (itemsFor v).length then some (.error v)
    else
      let vs := padTo i (itemsFor v)
      let put := fun c => Value.sequence (vs.set i c)
      match vs[i]? with
      | some item =>
        match setWithin? x p item with
        | some (.ok c) => some (.ok (put c))
        | some (.error c) => some (.error (put c))
        | none => none
      | none => none

/-- What setting `x` makes of `v`. Another path that takes a step of the same kind where it parts
from `p` reads what it read before, or is that of an item that pads a sequence. -/
structure Updates (x : Value) (p : Path) (v w : Value) : Prop where
  get : get? p w = some x
  fields : ∀ q k l r r', p = q ++ .key k :: r → l ≠ k →
    get? (q ++ .key l :: r') w = get? (q ++ .key l :: r') v
  items : ∀ q i j r r', p = q ++ .index i :: r → j ≠ i →
    ¬ (lengthAt q v ≤ j ∧ j < i ∧ r' = []) →
    get? (q ++ .index j :: r') w = get? (q ++ .index j :: r') v
  padding : ∀ q i j r, p = q ++ .index i :: r → lengthAt q v ≤ j → j < i →
    get? (q ++ [.index j]) w = some .null

section Steps

/-- The tree with a value below a segment, in a container that is made where there is none. -/
def putUnder : Segment → Value → Value → Value
  | .key k, c, v => .mapping (Ordered.put k c (fieldsFor v))
  | .index i, c, v => .sequence ((padTo i (itemsFor v)).set i c)

/-- The segment is an index too far past the end of what it is to enter. -/
def Beyond : Segment → Value → Prop
  | .key _, _ => False
  | .index i, v => (itemsFor v).length + 1024 < i

theorem getElem?_padTo (i j : Nat) (vs : List Value) :
    (padTo i vs)[j]? = if j ≤ i then some (vs[j]?.getD .null) else vs[j]? := by
  rw [padTo, List.getElem?_append, List.getElem?_replicate]
  by_cases hj : j < vs.length
  · simp [hj]
  · have hnone : vs[j]? = none := List.getElem?_eq_none (Nat.not_lt.mp hj)
    rw [if_neg hj, hnone]
    have hpad : j - vs.length < i + 1 - vs.length ↔ j ≤ i := by omega
    simp only [hpad, Option.getD_none]

theorem lt_length_padTo (i : Nat) (vs : List Value) : i < (padTo i vs).length := by
  rw [padTo, List.length_append, List.length_replicate]
  omega

theorem child?_putUnder (s : Segment) (c v : Value) : child? s (putUnder s c v) = some c := by
  cases s with
  | key k => exact (Ordered.find?_put ..).trans (if_pos rfl)
  | index i => exact List.getElem?_set_self (lt_length_padTo i _)

theorem child?_putUnder_of_key_ne (h : l ≠ k) (c v : Value) :
    child? (.key l) (putUnder (.key k) c v) = child? (.key l) v := by
  rw [child?_key l v]
  exact (Ordered.find?_put ..).trans (if_neg h.symm)

theorem child?_index_of_le (h : (itemsFor v).length ≤ j) : child? (.index j) v = none := by
  rw [child?_index, List.getElem?_eq_none h]

/-- Below another index there is what was there, or the null that pads the sequence. -/
theorem child?_putUnder_of_index_ne (h : j ≠ i) (c v : Value) :
    child? (.index j) (putUnder (.index i) c v) =
      if (itemsFor v).length ≤ j ∧ j < i then some .null else child? (.index j) v := by
  refine (List.getElem?_set_ne h.symm).trans ?_
  rw [getElem?_padTo, child?_index]
  by_cases hj : j < (itemsFor v).length
  · have hin : ¬ (itemsFor v).length ≤ j := by omega
    simp [hj, hin]
  · have hle : j ≤ i ↔ j < i := by omega
    simp [hle, Nat.not_lt.mp hj]

theorem set_of_beyond (h : Beyond s v) : set x (s :: p) v = .error v := by
  cases s with
  | key k => cases h
  | index i =>
      rw [Beyond] at h
      rw [set, maxPadding, if_pos (by omega)]

/-- Below a segment that is not too far, setting goes on with what is there. -/
theorem set_cons (h : ¬ Beyond s v) : set x (s :: p) v =
    match set x p (v.under s) with
    | .ok c => .ok (putUnder s c v)
    | .error c => .error (putUnder s c v) := by
  cases s with
  | key k =>
      rw [set, under, child?_key]
      rfl
  | index i =>
      rw [Beyond] at h
      have hitem : (padTo i (itemsFor v))[i]?.getD .null = v.under (.index i) := by
        rw [getElem?_padTo, if_pos (Nat.le_refl i), under, child?_index]
        rfl
      rw [set, maxPadding, if_neg (by omega), ← hitem]
      rfl

end Steps

theorem setWithin?_eq_some (x : Value) (p : Path) (v : Value) :
    setWithin? x p v = some (set x p v) := by
  induction p generalizing v with
  | nil => rfl
  | cons s p ih =>
      cases s with
      | key k =>
          rw [setWithin?, set, ih]
          dsimp only
          cases set x p ((Ordered.find? k (fieldsFor v)).getD .null) <;> rfl
      | index i =>
          rw [setWithin?, set]
          split
          · rfl
          · obtain ⟨item, hitem⟩ : ∃ item, (padTo i (itemsFor v))[i]? = some item :=
              ⟨_, List.getElem?_eq_getElem (lt_length_padTo i _)⟩
            simp only [hitem, ih, Option.getD_some]
            cases set x p item <;> rfl

theorem lengthAt_cons (s : Segment) (q : Path) (v : Value) :
    lengthAt (s :: q) v = lengthAt q (v.under s) := by
  rw [lengthAt, lengthAt, get?, under]
  cases child? s v with
  | some c => rfl
  | none =>
      cases q with
      | nil => rfl
      | cons t q => rw [Option.getD_none, get?_null (List.cons_ne_nil t q)]; rfl

theorem tooFar_cons : TooFar (s :: p) v ↔ Beyond s v ∨ TooFar p (v.under s) := by
  constructor
  · rintro ⟨q, i, r, hp, hfar⟩
    cases q with
    | nil =>
        cases hp
        exact .inl hfar
    | cons t q =>
        cases hp
        rw [lengthAt_cons] at hfar
        exact .inr ⟨q, i, r, rfl, hfar⟩
  · rintro (hbeyond | ⟨q, i, r, rfl, hfar⟩)
    · cases s with
      | key k => cases hbeyond
      | index i => exact ⟨[], i, p, rfl, hbeyond⟩
    · refine ⟨s :: q, i, r, rfl, ?_⟩
      rwa [lengthAt_cons]

/-- Setting fails exactly where an index of the path lies too far past the end. -/
theorem exists_error_iff (x : Value) (p : Path) (v : Value) :
    (∃ w, set x p v = .error w) ↔ TooFar p v := by
  induction p generalizing v with
  | nil => simp [set, TooFar]
  | cons s p ih =>
      rw [tooFar_cons, ← ih]
      by_cases hbeyond : Beyond s v
      · simp [hbeyond, set_of_beyond hbeyond]
      · rw [set_cons hbeyond]
        cases set x p (v.under s) <;> simp [hbeyond]

theorem Updates.under (h : Updates x p (v.under s) c) : Updates x (s :: p) v (putUnder s c v) where
  get := (get?_of_child? (child?_putUnder s c v) p).trans h.get
  fields := by
    intro q k l r r' hp hne
    cases q with
    | nil =>
        cases hp
        rw [List.nil_append, get?, get?, child?_putUnder_of_key_ne hne]
    | cons t q =>
        cases hp
        rw [List.cons_append, get?_of_child? (child?_putUnder s c v), get?_cons_of_ne_nil (by simp)]
        exact h.fields q k l r r' rfl hne
  items := by
    intro q i j r r' hp hne hpad
    cases q with
    | nil =>
        cases hp
        rw [List.nil_append, get?, get?, child?_putUnder_of_index_ne hne]
        split
        · next hpadded =>
            have hr : r' ≠ [] := fun hr => hpad ⟨hpadded.1, hpadded.2, hr⟩
            rw [Option.bind_some, get?_null hr, child?_index_of_le hpadded.1, Option.bind_none]
        · rfl
    | cons t q =>
        cases hp
        rw [lengthAt_cons] at hpad
        rw [List.cons_append, get?_of_child? (child?_putUnder s c v), get?_cons_of_ne_nil (by simp)]
        exact h.items q i j r r' rfl hne hpad
  padding := by
    intro q i j r hp hle hlt
    cases q with
    | nil =>
        cases hp
        rw [List.nil_append, get?, child?_putUnder_of_index_ne (Nat.ne_of_lt hlt),
          if_pos ⟨hle, hlt⟩]
        rfl
    | cons t q =>
        cases hp
        rw [lengthAt_cons] at hle
        rw [List.cons_append, get?_of_child? (child?_putUnder s c v)]
        exact h.padding q i j r rfl hle hlt

theorem updates_of_set (h : set x p v = .ok w) : Updates x p v w := by
  induction p generalizing v w with
  | nil =>
      cases h
      exact ⟨rfl, by simp, by simp, by simp⟩
  | cons s p ih =>
      by_cases hbeyond : Beyond s v
      · rw [set_of_beyond hbeyond] at h
        cases h
      · rw [set_cons hbeyond] at h
        cases hset : set x p (v.under s) with
        | error c =>
            rw [hset] at h
            cases h
        | ok c =>
            rw [hset] at h
            cases h
            exact (ih hset).under

/-- Setting never enters a sequence out of its bounds. It fails exactly where an index of the path
lies too far past the end of a sequence, and otherwise updates the tree. -/
theorem updates_set (x : Value) (p : Path) (v : Value) :
    setWithin? x p v = some (set x p v) ∧
      ((∃ w, set x p v = .error w) ↔ TooFar p v) ∧
      ∀ w, set x p v = .ok w → Updates x p v w :=
  ⟨setWithin?_eq_some x p v, exists_error_iff x p v, fun _ => updates_of_set⟩

/-- An argument that is set behind two others, of which one is padding, in a mapping that is made
for it; and one that lies too far behind. -/
theorem updates_set_args :
    let v := Value.mapping [("args", .sequence [.string "-v"]), ("name", .string "app")]
    let w := Value.mapping [("args", .sequence [.string "-v", .null,
      .mapping [("value", .string "x")]]), ("name", .string "app")]
    let p : Path := [.key "args", .index 2, .key "value"]
    set (.string "x") p v = .ok w ∧ get? p w = some (.string "x") ∧
      get? [.key "args", .index 1] w = some .null ∧
      get? [.key "args", .index 0] w = get? [.key "args", .index 0] v ∧
      get? [.key "name"] w = get? [.key "name"] v ∧
      ∃ u, set (.string "x") [.key "args", .index 1026] v = .error u := by
  intro v w p
  have hset : set (.string "x") p v = .ok w := rfl
  obtain ⟨-, -, hupdates⟩ := updates_set (.string "x") p v
  obtain ⟨-, hfails, -⟩ := updates_set (.string "x") [.key "args", .index 1026] v
  have h := hupdates w hset
  refine ⟨hset, h.get, ?_, ?_, ?_, hfails.mpr ⟨[.key "args"], 1026, [], rfl, by decide⟩⟩
  · exact h.padding [.key "args"] 2 1 [.key "value"] rfl (by decide) (by decide)
  · exact h.items [.key "args"] 2 0 [.key "value"] [] rfl (by decide) (by decide)
  · exact h.fields [] "args" "name" _ [] rfl (by decide)

end Rollout.Path
