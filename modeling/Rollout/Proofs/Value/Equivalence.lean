import Rollout.Proofs.Json.Injective
import Rollout.Proofs.Value.Canonical
import Rollout.Yaml.Writer
/-!
The canonical form is a normal form: a tree is equivalent to it, and equivalent trees have the
same one. Two trees are equivalent when they differ only in the order of keys and in the order
of the items of sequences that are sets.
-/

namespace Rollout.Value

/-- Whether the order of a sequence means nothing under this key of a mapping. -/
def Unordered (fs : Fields) (k : String) : Prop :=
  k ∈ ["matchExpressions", "verbs", "apiGroups", "resources", "resourceNames",
    "nonResourceURLs"] ∨
    k = "values" ∧ "key" ∈ Ordered.keys fs ∧ "operator" ∈ Ordered.keys fs

/-- The same data up to the order of keys and of the items of sets, at any depth. -/
inductive Equivalent : Value → Value → Prop
  | refl (v) : Equivalent v v
  | symm : Equivalent v w → Equivalent w v
  | trans : Equivalent u v → Equivalent v w → Equivalent u w
  | keys : fs.Perm gs → Equivalent (.mapping fs) (.mapping gs)
  | elements : Unordered (fs ++ (k, .sequence vs) :: gs) k → vs.Perm ws →
      Equivalent (.mapping (fs ++ (k, .sequence vs) :: gs))
        (.mapping (fs ++ (k, .sequence ws) :: gs))
  | field : Equivalent v w →
      Equivalent (.mapping (fs ++ (k, v) :: gs)) (.mapping (fs ++ (k, w) :: gs))
  | item : Equivalent v w →
      Equivalent (.sequence (us ++ v :: vs)) (.sequence (us ++ w :: vs))

theorem isRequirement_iff {fs : Fields} :
    isRequirement fs = true ↔ "key" ∈ Ordered.keys fs ∧ "operator" ∈ Ordered.keys fs := by
  rw [isRequirement, Bool.and_eq_true, Ordered.has_iff, Ordered.has_iff]

theorem unordered_iff {fs : Fields} {k : String} :
    Unordered fs k ↔ isSetField (isRequirement fs) k = true := by
  rw [Unordered, isSetField, Bool.or_eq_true, Bool.and_eq_true, isRequirement_iff, beq_iff_eq,
    and_comm (b := k = "values"), List.contains_iff_mem]
  rfl

theorem isRequirement_eq_of_keys {fs gs : Fields} (h : Ordered.keys fs = Ordered.keys gs) :
    isRequirement fs = isRequirement gs := by
  rw [Bool.eq_iff_iff, isRequirement_iff, isRequirement_iff, h]

/-- Sorting the items changes their order only. -/
theorem exists_perm_sortItems (vs : List Value) :
    ∃ ws, sortItems (.sequence vs) = .sequence ws ∧ ws.Perm vs := by
  refine ⟨_, rfl, ?_⟩
  have hperm := List.mergeSort_perm (vs.map fun v => (v.toJson, v)) fun a b => Text.le a.1 b.1
  have hmap := hperm.map (·.2)
  rw [List.map_map] at hmap
  exact hmap.trans (.of_eq (List.map_id vs))

/-- Items in one order or another are sorted alike, since items of one text are the same. -/
theorem sortItems_eq_of_perm {vs ws : List Value} (h : vs.Perm ws) (hn : ∀ v ∈ vs, v.Normal) :
    sortItems (.sequence vs) = sortItems (.sequence ws) := by
  have hsorted := Text.mergeSort_eq_of_perm Prod.fst (h.map fun v => (v.toJson, v)) ?_
  · exact congrArg (fun es : List (String × Value) => Value.sequence (es.map (·.2))) hsorted
  · intro a ha b hb htext
    obtain ⟨v, hv, rfl⟩ := List.mem_map.mp ha
    obtain ⟨w, hw, rfl⟩ := List.mem_map.mp hb
    rw [toJson_injective (hn v hv) (hn w hw) htext]

theorem keys_append_cons (fs gs : Fields) (k : String) (v w : Value) :
    Ordered.keys (fs ++ (k, v) :: gs) = Ordered.keys (fs ++ (k, w) :: gs) := by
  simp [Ordered.keys]

theorem equivalent_sortItems {fs gs : Fields} {k : String} {v : Value}
    (h : isSetField (isRequirement (fs ++ (k, v) :: gs)) k) :
    Equivalent (.mapping (fs ++ (k, sortItems v) :: gs)) (.mapping (fs ++ (k, v) :: gs)) := by
  cases v with
  | sequence vs =>
      obtain ⟨ws, hws, hperm⟩ := exists_perm_sortItems vs
      rw [hws]
      exact .symm (.elements (unordered_iff.mpr h) hperm.symm)
  | _ => exact .refl _

mutual

/-- The canonical form holds what the tree holds. -/
theorem equivalent_canonicalBy : (order : List String) → (v : Value) →
    (canonicalBy order v).Equivalent v
  | order, .mapping fs => by
      rw [canonicalBy]
      exact .trans (.keys (List.mergeSort_perm ..)) (equivalent_canonicalFields [] fs rfl)
  | _, .sequence vs => equivalent_canonicalItems [] vs
  | _, .null | _, .bool _ | _, .number _ | _, .string _ => by
      rw [canonicalBy] <;> first | exact .refl _ | nofun

theorem equivalent_canonicalItems : (us vs : List Value) →
    Equivalent (.sequence (us ++ canonicalItems vs)) (.sequence (us ++ vs))
  | us, [] => .refl _
  | us, v :: vs => by
      have hrest := equivalent_canonicalItems (us ++ [v]) vs
      rw [List.append_assoc, List.append_assoc] at hrest
      exact .trans (.item (equivalent_canonicalBy itemOrder v)) hrest

theorem equivalent_canonicalFields {requirement : Bool} : (es fs : Fields) →
    isRequirement (es ++ fs) = requirement →
    Equivalent (.mapping (es ++ canonicalFields requirement fs)) (.mapping (es ++ fs))
  | es, [], _ => .refl _
  | es, (k, v) :: fs, h => by
      have hwhole : isRequirement ((es ++ [(k, v)]) ++ fs) = requirement := by
        rw [List.append_assoc]
        exact h
      have hrest := equivalent_canonicalFields (es ++ [(k, v)]) fs hwhole
      rw [List.append_assoc, List.append_assoc] at hrest
      refine .trans ?_ (.trans (.field (equivalent_canonicalBy (orderBelow k) v)) hrest)
      rw [canonicalFields]
      split
      · next hset =>
          have hkeys : Ordered.keys (es ++ (k, canonicalBy (orderBelow k) v) ::
              canonicalFields requirement fs) = Ordered.keys (es ++ (k, v) :: fs) := by
            simpa [Ordered.keys] using keys_canonicalFields requirement fs
          refine equivalent_sortItems ?_
          rwa [isRequirement_eq_of_keys hkeys, h]
      · exact .refl _

end

namespace Equivalent

variable {v w : Value}

theorem wellKeyed_field {fs gs : Fields} {k : String} (h : v.WellKeyed ↔ w.WellKeyed) :
    (Value.mapping (fs ++ (k, v) :: gs)).WellKeyed ↔
      (Value.mapping (fs ++ (k, w) :: gs)).WellKeyed := by
  rw [wellKeyed_mapping, wellKeyed_mapping, keys_append_cons fs gs k v w]
  simp only [List.forall_mem_append, List.forall_mem_cons, h]

theorem wellKeyed_iff (h : v.Equivalent w) : v.WellKeyed ↔ w.WellKeyed := by
  induction h with
  | refl v => rfl
  | symm _ ih => exact ih.symm
  | trans _ _ ih ih' => exact ih.trans ih'
  | keys h =>
      have hkeys : (Ordered.keys _).Nodup ↔ (Ordered.keys _).Nodup := (h.map Prod.fst).nodup_iff
      rw [wellKeyed_mapping, wellKeyed_mapping, hkeys]
      simp only [h.mem_iff]
  | elements _ h =>
      refine wellKeyed_field ?_
      simp only [wellKeyed_sequence, h.mem_iff]
  | field _ ih => exact wellKeyed_field ih
  | item _ ih =>
      simp only [wellKeyed_sequence, List.forall_mem_append, List.forall_mem_cons, ih]

theorem normal_iff (h : v.Equivalent w) : v.Normal ↔ w.Normal := by
  induction h with
  | refl v => rfl
  | symm _ ih => exact ih.symm
  | trans _ _ ih ih' => exact ih.trans ih'
  | keys h => simp only [normal_mapping, h.mem_iff]
  | elements _ h =>
      simp only [normal_mapping, List.forall_mem_append, List.forall_mem_cons, normal_sequence,
        h.mem_iff]
  | field _ ih =>
      simp only [normal_mapping, List.forall_mem_append, List.forall_mem_cons, ih]
  | item _ ih =>
      simp only [normal_sequence, List.forall_mem_append, List.forall_mem_cons, ih]

theorem canonicalBy_field (order : List String) {fs gs : Fields} {k : String}
    (h : canonicalEntry (isRequirement (fs ++ (k, v) :: gs)) k v =
      canonicalEntry (isRequirement (fs ++ (k, v) :: gs)) k w) :
    canonicalBy order (.mapping (fs ++ (k, v) :: gs)) =
      canonicalBy order (.mapping (fs ++ (k, w) :: gs)) := by
  rw [isRequirement_eq_of_keys (keys_append_cons fs gs k v w)] at h
  simp only [canonicalBy, canonicalFields_eq_map, List.map_append, List.map_cons,
    isRequirement_eq_of_keys (keys_append_cons fs gs k v w), h]

/-- Equivalent trees have the same canonical form, with the same order of keys and items. -/
theorem canonicalBy_eq (h : v.Equivalent w) (hk : v.WellKeyed) (hn : v.Normal) :
    ∀ order, canonicalBy order v = canonicalBy order w := by
  induction h with
  | refl v =>
      intro order
      rfl
  | symm h ih =>
      intro order
      exact (ih (h.wellKeyed_iff.mpr hk) (h.normal_iff.mpr hn) order).symm
  | trans h _ ih ih' =>
      intro order
      exact (ih hk hn order).trans (ih' (h.wellKeyed_iff.mp hk) (h.normal_iff.mp hn) order)
  | @keys fs gs h =>
      intro order
      have hkeys := (wellKeyed_mapping.mp hk).1
      have hreq : isRequirement fs = isRequirement gs := by
        have hmem (k : String) : k ∈ Ordered.keys fs ↔ k ∈ Ordered.keys gs :=
          (h.map Prod.fst).mem_iff
        rw [Bool.eq_iff_iff, isRequirement_iff, isRequirement_iff, hmem, hmem]
      rw [canonicalBy, canonicalBy, hreq]
      refine congrArg Value.mapping (mergeSort_fieldLe_eq order ?_ ?_)
      · rw [canonicalFields_eq_map, canonicalFields_eq_map]
        exact h.map _
      · rwa [keys_canonicalFields]
  | @elements fs k vs gs ws hset h =>
      intro order
      refine canonicalBy_field order ?_
      rw [canonicalEntry, canonicalEntry, if_pos (unordered_iff.mp hset),
        if_pos (unordered_iff.mp hset), canonicalBy, canonicalBy, canonicalItems_eq_map,
        canonicalItems_eq_map]
      refine sortItems_eq_of_perm (h.map _) fun x hx => ?_
      obtain ⟨v, hv, rfl⟩ := List.mem_map.mp hx
      have hv' := normal_sequence.mp (normal_mapping.mp hn _ (List.mem_append_cons_self)) v hv
      exact (equivalent_canonicalBy itemOrder v).normal_iff.mpr hv'
  | @field v w fs k gs h ih =>
      intro order
      have hmem : (k, v) ∈ fs ++ (k, v) :: gs := List.mem_append_cons_self
      refine canonicalBy_field order ?_
      rw [canonicalEntry, canonicalEntry,
        ih ((wellKeyed_mapping.mp hk).2 _ hmem) (normal_mapping.mp hn _ hmem)]
  | @item v w us vs h ih =>
      intro order
      have hmem : v ∈ us ++ v :: vs := List.mem_append_cons_self
      rw [canonicalBy, canonicalBy, canonicalItems_eq_map, canonicalItems_eq_map, List.map_append,
        List.map_append, List.map_cons, List.map_cons,
        ih (wellKeyed_sequence.mp hk _ hmem) (normal_sequence.mp hn _ hmem)]

end Equivalent

/-- A tree in canonical form stays as it is. -/
theorem canonicalBy_canonicalBy {v : Value} (hk : v.WellKeyed) (hn : v.Normal)
    (order : List String) : canonicalBy order (canonicalBy order v) = canonicalBy order v :=
  ((equivalent_canonicalBy order v).symm.canonicalBy_eq hk hn order).symm

theorem equivalent_iff {v w : Value} (hk : v.WellKeyed) (hn : v.Normal) :
    v.Equivalent w ↔ v.canonical = w.canonical := by
  constructor
  · intro h
    exact h.canonicalBy_eq hk hn topOrder
  · intro h
    have hv : v.canonical.Equivalent v := equivalent_canonicalBy topOrder v
    have hw : w.canonical.Equivalent w := equivalent_canonicalBy topOrder w
    rw [← h] at hw
    exact hv.symm.trans hw

/-- The canonical form is equivalent to the tree and the same for all trees equivalent to it, so
that they have one text. -/
theorem canonical_normal_form (v w : Value) :
    v.canonical.Equivalent v ∧
      (v.WellKeyed → v.Normal →
        v.canonical.canonical = v.canonical ∧
        (v.Equivalent w ↔ v.canonical = w.canonical) ∧
        (v.Equivalent w → v.canonical.toYaml = w.canonical.toYaml)) := by
  refine ⟨equivalent_canonicalBy topOrder v, fun hk hn => ⟨?_, equivalent_iff hk hn, fun h => ?_⟩⟩
  · exact canonicalBy_canonicalBy hk hn topOrder
  · rw [(equivalent_iff hk hn).mp h]

/-- A role's rule, with a weight of one and a half. -/
def readerRole : Value :=
  .mapping [
    ("rules", .sequence [.mapping [
      ("verbs", .sequence [.string "list", .string "get"]),
      ("apiGroups", .sequence [.string ""])]]),
    ("weight", .number (.float ⟨false, 3 * 2 ^ 51, -52⟩)),
    ("kind", .string "ClusterRole")]

/-- The same role with its keys and its verbs in other orders. -/
def readerRole' : Value :=
  .mapping [
    ("kind", .string "ClusterRole"),
    ("rules", .sequence [.mapping [
      ("apiGroups", .sequence [.string ""]),
      ("verbs", .sequence [.string "get", .string "list"])]]),
    ("weight", .number (.float ⟨false, 3 * 2 ^ 51, -52⟩))]

theorem equivalent_readerRole : readerRole.Equivalent readerRole' := by
  have hverbs := @Equivalent.elements [] "verbs" [("apiGroups", .sequence [.string ""])] _ _
    (.inl (by decide)) (List.Perm.swap (.string "get") (.string "list") [])
  have hrule := hverbs.trans (.keys (.swap ..))
  exact .trans (@Equivalent.field _ _ [] _ _ (@Equivalent.item _ _ [] [] hrule))
    (.keys (by decide))

theorem canonical_normal_form_readerRole :
    readerRole.WellKeyed ∧ readerRole.Normal ∧ readerRole.Equivalent readerRole' ∧
      readerRole.canonical.canonical = readerRole.canonical ∧
      readerRole.canonical = readerRole'.canonical := by
  have hk : readerRole.WellKeyed := by simp [readerRole, Ordered.keys]
  have hn : readerRole.Normal := by
    have hweight : Binary64.Normal ⟨false, 3 * 2 ^ 51, -52⟩ :=
      ⟨by norm_num, by norm_num, .inl (by norm_num)⟩
    simpa [readerRole, Number.Normal] using hweight
  obtain ⟨-, hform⟩ := canonical_normal_form readerRole readerRole'
  obtain ⟨hself, hiff, -⟩ := hform hk hn
  exact ⟨hk, hn, equivalent_readerRole, hself, hiff.mp equivalent_readerRole⟩

end Rollout.Value
