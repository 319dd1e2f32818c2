import Rollout.Ordered
import Rollout.Number.Shortest
/-!
Open trees of manifest data. A mapping keeps the order of its keys; whether two
trees hold the same data (`Value.same`) does not depend on that order.
-/

namespace Rollout

/-- A whole number and a floating-point number are never the same. -/
inductive Number where
  | whole (n : Int)
  | float (x : Binary64)
  deriving DecidableEq

inductive Value where
  | null
  | bool (b : Bool)
  | number (n : Number)
  | string (s : String)
  | sequence (items : List Value)
  | mapping (fields : List (String × Value))

instance : Inhabited Value := ⟨.null⟩

abbrev Fields := Ordered String Value

namespace Value

def whole (n : Int) : Value := .number (.whole n)

def text? : Value → Option String
  | .string s => some s
  | _ => none

def fields? : Value → Option Fields
  | .mapping fs => some fs
  | _ => none

def items? : Value → Option (List Value)
  | .sequence vs => some vs
  | _ => none

def isMapping (v : Value) : Bool := v.fields?.isSome

def isNull : Value → Bool
  | .null => true
  | _ => false

/-- The value of a key; `none` also where there is no mapping. -/
def field? (v : Value) (k : String) : Option Value := v.fields?.bind (Ordered.find? k)

def fieldText? (v : Value) (k : String) : Option String := (v.field? k).bind text?

end Value

def Number.same : Number → Number → Bool
  | .whole a, .whole b => a == b
  | .float x, .float y => x.equal y
  | _, _ => false

namespace Value

mutual

/-- The same data, whatever the order of the keys. -/
def same : Value → Value → Bool
  | .null, .null => true
  | .bool a, .bool b => a == b
  | .number a, .number b => a.same b
  | .string a, .string b => a == b
  | .sequence as, .sequence bs => sameItems as bs
  | .mapping as, .mapping bs => as.length == bs.length && sameFields as bs
  | _, _ => false

def sameItems : List Value → List Value → Bool
  | [], [] => true
  | a :: as, b :: bs => same a b && sameItems as bs
  | _, _ => false

/-- Each key of the first mapping has the same value in the second. -/
def sameFields : List (String × Value) → List (String × Value) → Bool
  | [], _ => true
  | (k, a) :: as, bs =>
    (match Ordered.find? k bs with
      | some b => same a b
      | none => false) && sameFields as bs

end

mutual

/-- No mapping of the tree gives a key twice. -/
def WellKeyed : Value → Prop
  | .sequence vs => ItemsWellKeyed vs
  | .mapping fs => (Ordered.keys fs).Nodup ∧ FieldsWellKeyed fs
  | _ => True

def ItemsWellKeyed : List Value → Prop
  | [] => True
  | v :: vs => WellKeyed v ∧ ItemsWellKeyed vs

def FieldsWellKeyed : List (String × Value) → Prop
  | [] => True
  | (_, v) :: fs => WellKeyed v ∧ FieldsWellKeyed fs

end

theorem itemsWellKeyed_iff {vs : List Value} : ItemsWellKeyed vs ↔ ∀ v ∈ vs, v.WellKeyed := by
  induction vs with
  | nil => simp [ItemsWellKeyed]
  | cons v vs ih => simp [ItemsWellKeyed, ih]

theorem fieldsWellKeyed_iff {fs : Fields} : FieldsWellKeyed fs ↔ ∀ e ∈ fs, e.2.WellKeyed := by
  induction fs with
  | nil => simp [FieldsWellKeyed]
  | cons e fs ih => simp [FieldsWellKeyed, ih]

@[simp] theorem wellKeyed_null : WellKeyed .null := trivial

@[simp] theorem wellKeyed_bool (b : Bool) : WellKeyed (.bool b) := trivial

@[simp] theorem wellKeyed_number (n : Number) : WellKeyed (.number n) := trivial

@[simp] theorem wellKeyed_string (s : String) : WellKeyed (.string s) := trivial

@[simp] theorem wellKeyed_sequence {vs : List Value} :
    WellKeyed (.sequence vs) ↔ ∀ v ∈ vs, v.WellKeyed := itemsWellKeyed_iff

@[simp] theorem wellKeyed_mapping {fs : Fields} :
    WellKeyed (.mapping fs) ↔ (Ordered.keys fs).Nodup ∧ ∀ e ∈ fs, e.2.WellKeyed :=
  and_congr_right fun _ => fieldsWellKeyed_iff

namespace WellKeyed

theorem field? {v x : Value} {k : String} (h : v.WellKeyed) (hx : v.field? k = some x) :
    x.WellKeyed := by
  cases v with
  | mapping fs => exact (wellKeyed_mapping.mp h).2 _ (Ordered.mem_of_find?_eq_some hx)
  | _ => cases hx

theorem items? {v : Value} {vs : List Value} (h : v.WellKeyed) (hv : v.items? = some vs) :
    ∀ x ∈ vs, x.WellKeyed := by
  cases v with
  | sequence ws =>
      cases hv
      exact wellKeyed_sequence.mp h
  | _ => cases hv

theorem fields? {v : Value} {fs : Fields} (h : v.WellKeyed) (hv : v.fields? = some fs) :
    (Value.mapping fs).WellKeyed := by
  cases v with
  | mapping gs =>
      cases hv
      exact h
  | _ => cases hv

theorem find?_getD {fs : Fields} {k : String} {w : Value} (h : (Value.mapping fs).WellKeyed)
    (hw : w.WellKeyed) : ((Ordered.find? k fs).getD w).WellKeyed := by
  cases hf : Ordered.find? k fs with
  | some v => exact h.field? hf
  | none => exact hw

theorem put {fs : Fields} {v : Value} (h : (Value.mapping fs).WellKeyed) (k : String)
    (hv : v.WellKeyed) : (Value.mapping (Ordered.put k v fs)).WellKeyed := by
  rw [wellKeyed_mapping] at h ⊢
  refine ⟨Ordered.keys_nodup_put h.1, fun e he => ?_⟩
  rcases Ordered.mem_put he with rfl | he
  · exact hv
  · exact h.2 e he

theorem sublist {fs gs : Fields} (h : (Value.mapping gs).WellKeyed) (hs : fs.Sublist gs) :
    (Value.mapping fs).WellKeyed := by
  rw [wellKeyed_mapping] at h ⊢
  exact ⟨Ordered.keys_nodup_of_sublist hs h.1, fun e he => h.2 e (hs.subset he)⟩

theorem remove {fs : Fields} (h : (Value.mapping fs).WellKeyed) (k : String) :
    (Value.mapping (Ordered.remove k fs)).WellKeyed := h.sublist (Ordered.remove_sublist k fs)

theorem modify {fs : Fields} {f : Value → Value} (h : (Value.mapping fs).WellKeyed) (k : String)
    (hf : ∀ v, v.WellKeyed → (f v).WellKeyed) :
    (Value.mapping (Ordered.modify k f fs)).WellKeyed := by
  rw [wellKeyed_mapping] at h ⊢
  refine ⟨by rw [Ordered.keys_modify]; exact h.1, fun e he => ?_⟩
  rcases Ordered.mem_modify he with he | ⟨v, hv, rfl⟩
  · exact h.2 e he
  · exact hf v (h.2 _ hv)

theorem ofList {es : List (String × Value)} (h : ∀ e ∈ es, e.2.WellKeyed) :
    (Value.mapping (Ordered.ofList es)).WellKeyed :=
  wellKeyed_mapping.mpr ⟨Ordered.keys_nodup_ofList es, fun e he => h e (Ordered.mem_ofList he)⟩

end WellKeyed

/-- A property that passes from the parts of a tree to the whole, as readers build it; numbers
are left to the reader. -/
structure Compositional (P : Value → Prop) : Prop where
  null : P .null
  bool : ∀ b, P (.bool b)
  string : ∀ s, P (.string s)
  sequence : ∀ {vs : List Value}, (∀ v ∈ vs, P v) → P (.sequence vs)
  mapping : ∀ {es : List (String × Value)}, (∀ e ∈ es, P e.2) → P (.mapping (Ordered.ofList es))

theorem WellKeyed.compositional : Compositional WellKeyed where
  null := trivial
  bool _ := trivial
  string _ := trivial
  sequence := wellKeyed_sequence.mpr
  mapping := ofList

mutual

def decEq : (a b : Value) → Decidable (a = b)
  | .null, .null => isTrue rfl
  | .bool a, .bool b => decidable_of_iff (a = b) ⟨fun h => h ▸ rfl, fun h => by cases h; rfl⟩
  | .number a, .number b => decidable_of_iff (a = b) ⟨fun h => h ▸ rfl, fun h => by cases h; rfl⟩
  | .string a, .string b => decidable_of_iff (a = b) ⟨fun h => h ▸ rfl, fun h => by cases h; rfl⟩
  | .sequence as, .sequence bs =>
    match decEqItems as bs with
    | isTrue h => isTrue (h ▸ rfl)
    | isFalse h => isFalse fun e => h (by cases e; rfl)
  | .mapping as, .mapping bs =>
    match decEqFields as bs with
    | isTrue h => isTrue (h ▸ rfl)
    | isFalse h => isFalse fun e => h (by cases e; rfl)
  | .null, .bool _ | .null, .number _ | .null, .string _ | .null, .sequence _
  | .null, .mapping _ => isFalse nofun
  | .bool _, .null | .bool _, .number _ | .bool _, .string _ | .bool _, .sequence _
  | .bool _, .mapping _ => isFalse nofun
  | .number _, .null | .number _, .bool _ | .number _, .string _ | .number _, .sequence _
  | .number _, .mapping _ => isFalse nofun
  | .string _, .null | .string _, .bool _ | .string _, .number _ | .string _, .sequence _
  | .string _, .mapping _ => isFalse nofun
  | .sequence _, .null | .sequence _, .bool _ | .sequence _, .number _ | .sequence _, .string _
  | .sequence _, .mapping _ => isFalse nofun
  | .mapping _, .null | .mapping _, .bool _ | .mapping _, .number _ | .mapping _, .string _
  | .mapping _, .sequence _ => isFalse nofun

def decEqItems : (as bs : List Value) → Decidable (as = bs)
  | [], [] => isTrue rfl
  | a :: as, b :: bs =>
    match decEq a b, decEqItems as bs with
    | isTrue h, isTrue h' => isTrue (h ▸ h' ▸ rfl)
    | isFalse h, _ => isFalse fun e => h (by cases e; rfl)
    | _, isFalse h => isFalse fun e => h (by cases e; rfl)
  | [], _ :: _ => isFalse nofun
  | _ :: _, [] => isFalse nofun

def decEqFields : (as bs : List (String × Value)) → Decidable (as = bs)
  | [], [] => isTrue rfl
  | (k, a) :: as, (l, b) :: bs =>
    if hk : k = l then
      match decEq a b, decEqFields as bs with
      | isTrue h, isTrue h' => isTrue (hk ▸ h ▸ h' ▸ rfl)
      | isFalse h, _ => isFalse fun e => h (by cases e; rfl)
      | _, isFalse h => isFalse fun e => h (by cases e; rfl)
    else isFalse fun e => hk (by cases e; rfl)
  | [], _ :: _ => isFalse nofun
  | _ :: _, [] => isFalse nofun

end

instance : DecidableEq Value := decEq

end Value

/-- A tree as it is read from a text: no mapping of it gives a key twice. -/
abbrev Tree := { v : Value // v.WellKeyed }

namespace Tree

def null : Tree := ⟨.null, trivial⟩

def bool (b : Bool) : Tree := ⟨.bool b, trivial⟩

def number (n : Number) : Tree := ⟨.number n, trivial⟩

def string (s : String) : Tree := ⟨.string s, trivial⟩

def sequence (ts : List Tree) : Tree := ⟨.sequence (ts.map (·.1)), by simp +contextual⟩

/-- The last value given for a key wins, at the place of the first. -/
def ofEntries (es : List (String × Tree)) : Tree where
  val := .mapping (Ordered.ofList (es.map fun e => (e.1, e.2.1)))
  property := .ofList (List.forall_mem_map.mpr fun e _ => e.2.2)

def field? (t : Tree) (k : String) : Option Tree :=
  match h : t.1.field? k with
  | some v => some ⟨v, t.2.field? h⟩
  | none => none

def items? (t : Tree) : Option (List Tree) :=
  match h : t.1.items? with
  | some vs => some (vs.attach.map fun v => ⟨v.1, t.2.items? h v.1 v.2⟩)
  | none => none

end Tree

end Rollout
