import Rollout.Proofs.Plan.DroppedField
/-!
Fields that others add to a live object, such as its status or the defaults of a container: what
is planned for the object does not depend on them.
-/

namespace Rollout.Value

/-- Whether canonicalization sorts the sequence under a key, in a live mapping as in the desired
tree. -/
def Sorts (desired : Value) (live : Fields) (k : String) (v : Value) : Prop :=
  v.items?.isSome ∧ isSetField (isRequirement live && isRequirement (Path.fieldsFor desired)) k

instance (d : Value) (fs : Fields) (k : String) (v : Value) : Decidable (Sorts d fs k v) :=
  inferInstanceAs (Decidable (_ ∧ _))

/-- A live tree with more keys in its mappings. At the place of each key that is added neither the
desired tree nor the one last applied has it, and none is added inside of items that are sorted. -/
inductive Enriched : (desired previous live live' : Value) → Prop
  | refl {d p v : Value} : Enriched d p v v
  | trans {d p u v w : Value} : Enriched d p u v → Enriched d p v w → Enriched d p u w
  | add {d p x : Value} {k : String} {fs gs : Fields} : k ∉ Ordered.keys (fs ++ gs) →
      d.field? k = none → p.field? k = none →
      Enriched d p (.mapping (fs ++ gs)) (.mapping (fs ++ (k, x) :: gs))
  | field {d p v w : Value} {k : String} {fs gs : Fields} :
      ¬ Sorts d (fs ++ (k, v) :: gs) k v →
      Enriched (d.under (.key k)) (p.under (.key k)) v w →
      Enriched d p (.mapping (fs ++ (k, v) :: gs)) (.mapping (fs ++ (k, w) :: gs))
  | item {d p v w : Value} {us vs : List Value} :
      Enriched (d.under (.index us.length)) (p.under (.index us.length)) v w →
      Enriched d p (.sequence (us ++ v :: vs)) (.sequence (us ++ w :: vs))

variable {d p q v w x : Value} {k : String} {fs gs : Fields} {order order' : List String}

theorem WellKeyed.under (h : v.WellKeyed) (s : Segment) : (v.under s).WellKeyed :=
  Path.wellKeyed_getD_null fun _ hx => Path.wellKeyed_child? h hx

/-- What is seen of a live tree has the canonical form of the desired one. -/
def Meets (order order' : List String) (desired previous live : Value) : Prop :=
  (canonicalBy order (live.project (desired.withFieldsOf previous))).same
    (canonicalBy order' desired)

/-- A live mapping does not meet what is no mapping. -/
theorem not_meets_of_not_mapping (hd : d.isMapping = false) (q : Value) (fs : Fields) :
    ¬ Meets order order' d q (.mapping fs) := by
  intro h
  rw [Path.isMapping_of_same rfl h] at hd
  cases hd

/-- A live sequence does not meet what is no sequence, nor one of another length. -/
theorem itemCount?_of_meets (h : Meets order order' d q v) : v.itemCount? = d.itemCount? := by
  rw [← itemCount?_project v (d.withFieldsOf q)]
  exact itemCount?_eq_of_same_canonicalBy h

theorem isRequirement_append_cons (fs gs : Fields) (k : String) (v w : Value) :
    isRequirement (fs ++ (k, w) :: gs) = isRequirement (fs ++ (k, v) :: gs) :=
  congrArg₂ (· && ·) (Ordered.has_append_cons "key" fs gs k v w)
    (Ordered.has_append_cons "operator" fs gs k v w)

theorem sorts_iff_of_items? (d : Value) (fs gs : Fields) (k : String)
    (h : v.items? = none ↔ w.items? = none) :
    Sorts d (fs ++ (k, w) :: gs) k w ↔ Sorts d (fs ++ (k, v) :: gs) k v := by
  rw [Sorts, Sorts, isRequirement_append_cons fs gs k v w, Option.isSome_iff_ne_none,
    Option.isSome_iff_ne_none, ne_eq, ne_eq, h]

theorem has_projectFields (j : String) (live wanted : Fields) :
    Ordered.has j (projectFields live wanted) =
      (Ordered.has j wanted && Ordered.has j live) := by
  rw [Ordered.has, find?_projectFields]
  cases hw : Ordered.find? j wanted <;> simp [Ordered.has, hw]

/-- A live mapping meets a desired one if both have the same of the fields that are compared, with
values that meet. -/
theorem meets_mapping_iff {ds : Fields} (hd : (mapping ds).WellKeyed) (hq : q.WellKeyed) :
    Meets order order' (.mapping ds) q (.mapping fs) ↔
      (∀ j, Ordered.has j ds ∨ (q.field? j).isSome → Ordered.has j fs = Ordered.has j ds) ∧
      ∀ j v c, Ordered.find? j fs = some v → Ordered.find? j ds = some c →
        (canonicalEntry (isRequirement ds) j (v.project (c.withFieldsOf (q.under (.key j))))).same
          (canonicalEntry (isRequirement ds) j c) := by
  have hmore := wellKeyed_mapping.mp (Path.wellKeyed_fieldsFor hq)
  have hunion := wellKeyed_mapping.mp (wellKeyed_extendFields _ hd hmore.2)
  have hfind (j : String) : Ordered.find? j (extendFields ds (Path.fieldsFor q)) =
      extended (Ordered.find? j ds) (q.field? j) := by
    rw [find?_extendFields j hmore.1, find?_fieldsFor]
  have hhas (j : String) : Ordered.has j (extendFields ds (Path.fieldsFor q)) =
      (Ordered.has j ds || (q.field? j).isSome) := by
    rw [Ordered.has, hfind, Ordered.has]
    cases Ordered.find? j ds <;> cases q.field? j <;> rfl
  rw [Meets, withFieldsOf_mapping, project, same_canonicalBy_mapping_iff
    (hunion.1.sublist (keys_projectFields_sublist ..)) (wellKeyed_mapping.mp hd).1]
  refine and_congr (forall_congr' fun j => ?_) ?_
  · rw [has_projectFields, hhas]
    cases Ordered.has j ds <;> cases (q.field? j).isSome <;> simp
  · have hproject {j : String} {c : Value} (hc : Ordered.find? j ds = some c) :
        Ordered.find? j (projectFields fs (extendFields ds (Path.fieldsFor q))) =
          (Ordered.find? j fs).map fun v => v.project (c.withFieldsOf (q.under (.key j))) := by
      rw [find?_projectFields, find?_extendFields_of_some hmore.1 hc, find?_fieldsFor]
      rfl
    constructor
    · intro h j v c hv hc
      exact h j _ c (by rw [hproject hc, hv]; rfl) hc
    · intro h j x c hx hc
      rw [hproject hc] at hx
      obtain ⟨v, hv, rfl⟩ := Option.map_eq_some_iff.mp hx
      exact h j v c hv hc

/-- A field that nothing is compared with makes no difference. -/
theorem meets_add_iff (hd : d.WellKeyed) (hq : q.WellKeyed) (hk : d.field? k = none)
    (hqk : q.field? k = none) :
    Meets order order' d q (.mapping (fs ++ (k, x) :: gs)) ↔
      Meets order order' d q (.mapping (fs ++ gs)) := by
  cases d with
  | mapping ds =>
      have hds : Ordered.find? k ds = none := hk
      have hother {j : String} (hj : k ≠ j) := Ordered.find?_append_cons_of_ne hj fs gs x
      rw [meets_mapping_iff hd hq, meets_mapping_iff hd hq]
      refine and_congr (forall_congr' fun j => ?_) (forall_congr' fun j => ?_)
      · by_cases hj : k = j
        · subst hj
          simp [Ordered.has, hds, hqk]
        · rw [Ordered.has, Ordered.has, Ordered.has, hother hj]
      · by_cases hj : k = j
        · subst hj
          simp [hds]
        · rw [hother hj]
  | _ => exact iff_of_false (not_meets_of_not_mapping rfl q _) (not_meets_of_not_mapping rfl q _)

theorem sortItems_eq_of_items? (h : v.items? = none) : sortItems v = v := by
  cases v with
  | sequence vs => cases h
  | _ => rfl

theorem items?_canonicalBy (h : v.items? = none) (order : List String) :
    (canonicalBy order v).items? = none := by
  cases v with
  | sequence vs => cases h
  | _ => simp [canonicalBy, items?]

theorem items?_eq_none_iff : v.items? = none ↔ v.itemCount? = none := Option.map_eq_none_iff.symm

theorem items?_project (h : v.items? = none) (wanted : Value) :
    (v.project wanted).items? = none := by
  rwa [items?_eq_none_iff, itemCount?_project, ← items?_eq_none_iff]

/-- Entries are compared as they are, unless they are sequences that are sorted. -/
theorem same_canonicalEntry_iff {requirement : Bool} {k : String}
    (h : isSetField requirement k → v.items? = none) :
    (canonicalEntry requirement k v).same (canonicalEntry requirement k w) ↔
      (canonicalBy (orderBelow k) v).same (canonicalBy (orderBelow k) w) := by
  constructor
  · intro hsame
    rcases same_of_same_canonicalEntry hsame with hsame | ⟨hset, n, hn, -⟩
    · exact hsame
    · rw [items?_eq_none_iff.mp (h hset)] at hn
      cases hn
  · intro hsame
    rw [canonicalEntry, canonicalEntry]
    split
    · next hset =>
        have hw : w.items? = none := by
          rw [items?_eq_none_iff, ← itemCount?_eq_of_same_canonicalBy hsame, ← items?_eq_none_iff]
          exact h hset
        rwa [sortItems_eq_of_items? (items?_canonicalBy (h hset) _),
          sortItems_eq_of_items? (items?_canonicalBy hw _)]
    · exact hsame

/-- Only sequences are sorted, where the live mapping is a requirement if the desired one is. -/
theorem items?_eq_none_of_not_sorts {ds : Fields} (h : ¬ Sorts (.mapping ds) fs k v)
    (hreq : isRequirement ds → isRequirement fs) (hset : isSetField (isRequirement ds) k) :
    v.items? = none := by
  by_contra hsequence
  refine h ⟨Option.isSome_iff_ne_none.mpr hsequence, ?_⟩
  have hboth : (isRequirement fs && isRequirement ds) = isRequirement ds :=
    Bool.and_eq_right_iff_imp.mpr hreq
  change isSetField (isRequirement fs && isRequirement ds) k
  rwa [hboth]

/-- Where one field of a live mapping is changed, that field alone matters. -/
theorem Meets.replace_field (hd : d.WellKeyed) (hq : q.WellKeyed)
    (hitems : v.items? = none ↔ w.items? = none) (hsorts : ¬ Sorts d (fs ++ (k, v) :: gs) k v)
    (hvalue : ∀ order, Meets order order (d.under (.key k)) (q.under (.key k)) v →
      Meets order order (d.under (.key k)) (q.under (.key k)) w)
    (h : Meets order order' d q (.mapping (fs ++ (k, v) :: gs))) :
    Meets order order' d q (.mapping (fs ++ (k, w) :: gs)) := by
  cases d with
  | mapping ds =>
      rw [meets_mapping_iff hd hq] at h ⊢
      obtain ⟨hhas, hsame⟩ := h
      have hreq (hds : isRequirement ds) : isRequirement (fs ++ (k, v) :: gs) := by
        rw [isRequirement, Bool.and_eq_true] at hds ⊢
        rwa [hhas _ (.inl hds.1), hhas _ (.inl hds.2)]
      have hplain := items?_eq_none_of_not_sorts hsorts hreq
      refine ⟨fun j hj => (Ordered.has_append_cons j ..).trans (hhas j hj), fun j x c hx hc => ?_⟩
      rw [Ordered.find?_append_cons] at hx
      cases hfs : Ordered.find? j fs with
      | some y =>
          -- The first field of a key is the one that is looked up.
          refine hsame j x c ?_ hc
          rw [Ordered.find?_append_cons, hfs, ← hx, hfs, Option.some_or, Option.some_or]
      | none =>
          rw [hfs, Option.none_or] at hx
          split at hx
          · next hj =>
              subst hj
              cases hx
              have hv := hsame k v c (by rw [Ordered.find?_append_cons, hfs, if_pos rfl]; rfl) hc
              rw [same_canonicalEntry_iff fun hset => items?_project (hplain hset) _] at hv
              rw [same_canonicalEntry_iff fun hset => items?_project (hitems.mp (hplain hset)) _]
              obtain rfl : under (.key k) (.mapping ds) = c := congrArg (·.getD .null) hc
              exact hvalue _ hv
          · next hj =>
              refine hsame j x c ?_ hc
              rw [Ordered.find?_append_cons, hfs, if_neg hj, Option.none_or, hx]
  | _ => exact absurd h (not_meets_of_not_mapping rfl q _)

/-- Items of a live sequence meet those of a desired one by their places. -/
theorem meets_sequence_iff {vs ds : List Value} :
    Meets order order' (.sequence ds) q (.sequence vs) ↔
      vs.length = ds.length ∧ ∀ (i : Nat) (v c : Value), vs[i]? = some v → ds[i]? = some c →
        Meets itemOrder itemOrder c .null v := by
  rw [Meets, withFieldsOf_eq_self rfl, project]
  split
  · next hlength =>
      rw [same_canonicalBy_sequence_iff, projectItems_length hlength]
      refine and_congr_right fun _ => forall_congr' fun i => ?_
      constructor
      · intro h v c hv hc
        rw [Meets, withFieldsOf_null]
        exact h _ c (getElem?_projectItems hv hc) hc
      · intro h x c hx hc
        have hi : i < vs.length := lt_of_lt_of_eq (List.getElem?_eq_some_iff.mp hc).1 hlength.symm
        obtain ⟨v, hv⟩ : ∃ v, vs[i]? = some v := ⟨_, List.getElem?_eq_getElem hi⟩
        rw [getElem?_projectItems hv hc] at hx
        cases hx
        have hmeets := h v c hv hc
        rwa [Meets, withFieldsOf_null] at hmeets
  · next hlength =>
      rw [same_canonicalBy_sequence_iff]
      exact iff_of_false (fun h => hlength h.1) fun h => hlength h.1

/-- Where one item of a live sequence is changed, that item alone matters. -/
theorem Meets.replace_item {us vs : List Value}
    (hvalue : Meets itemOrder itemOrder (d.under (.index us.length)) .null v →
      Meets itemOrder itemOrder (d.under (.index us.length)) .null w)
    (h : Meets order order' d q (.sequence (us ++ v :: vs))) :
    Meets order order' d q (.sequence (us ++ w :: vs)) := by
  cases d with
  | sequence ds =>
      rw [meets_sequence_iff] at h ⊢
      obtain ⟨hlength, hitems⟩ := h
      have hsplit (x : Value) : (us ++ x :: vs)[us.length]? = some x := by simp
      refine ⟨by simpa using hlength, fun i x c hx hc => ?_⟩
      by_cases hi : i = us.length
      · subst hi
        obtain rfl : w = x := Option.some.inj ((hsplit w).symm.trans hx)
        obtain rfl : under (.index us.length) (.sequence ds) = c := congrArg (·.getD .null) hc
        exact hvalue (hitems _ v _ (hsplit v) hc)
      · refine hitems i x c ?_ hc
        have hset : (us ++ v :: vs).set us.length w = us ++ w :: vs := by simp
        rw [← hx, ← hset, List.getElem?_set_ne (Ne.symm hi)]
  | _ => cases itemCount?_of_meets h

namespace Enriched

theorem items?_eq_none_iff (h : Enriched d p v w) : v.items? = none ↔ w.items? = none := by
  induction h with
  | refl | add | field => rfl
  | trans _ _ ih ih' => exact ih.trans ih'
  | item => exact iff_of_false (Option.some_ne_none _) (Option.some_ne_none _)

/-- What was last applied, below a part of it or where nothing was. -/
theorem under_eq_or (s : Segment) (h : q = p ∨ q = .null) :
    q.under s = p.under s ∨ q.under s = .null := by
  rcases h with rfl | rfl
  · exact .inl rfl
  · exact .inr (under_null s)

/-- A tree meets the desired one if and only if it does with more keys. Inside of items, nothing
that was last applied is compared. -/
theorem meets_iff (h : Enriched d p v w) (hd : d.WellKeyed) (hp : p.WellKeyed)
    (hq : q = p ∨ q = .null) (order order' : List String) :
    Meets order order' d q v ↔ Meets order order' d q w := by
  induction h generalizing q order order' with
  | refl => rfl
  | trans _ _ ih ih' => exact (ih hd hp hq order order').trans (ih' hd hp hq order order')
  | add _ hdk hpk =>
      rcases hq with rfl | rfl
      · exact (meets_add_iff hd hp hdk hpk).symm
      · exact (meets_add_iff hd wellKeyed_null hdk rfl).symm
  | @field d p v w k fs gs hsorts hvalue ih =>
      have hwell : q.WellKeyed := by
        rcases hq with rfl | rfl
        · exact hp
        · exact wellKeyed_null
      have hbelow := ih (hd.under _) (hp.under _) (under_eq_or (.key k) hq)
      have hitems := hvalue.items?_eq_none_iff
      have hsorts' := (sorts_iff_of_items? d fs gs k hitems).not.mpr hsorts
      exact ⟨Meets.replace_field hd hwell hitems hsorts fun o => (hbelow o o).mp,
        Meets.replace_field hd hwell hitems.symm hsorts' fun o => (hbelow o o).mpr⟩
  | item _ ih =>
      have hbelow := ih (hd.under _) (hp.under _) (.inr rfl) itemOrder itemOrder
      exact ⟨Meets.replace_item hbelow.mp, Meets.replace_item hbelow.mpr⟩

end Enriched

end Rollout.Value

namespace Rollout

open Value (Enriched Meets)

variable {desired live live' : Document}

theorem wellKeyed_getD_lastApplied? (live : Document) :
    (live.lastApplied?.getD .null).WellKeyed := by
  refine Path.wellKeyed_getD_null fun previous h => ?_
  obtain ⟨text, -, ht⟩ := Option.bind_eq_some_iff.mp h
  exact Value.wellKeyed_ofJson? ht

theorem comparedFields_eq (desired live : Document) :
    comparedFields desired live = desired.root.withFieldsOf (live.lastApplied?.getD .null) := by
  rw [comparedFields]
  cases live.lastApplied? with
  | none => exact (Value.withFieldsOf_null _).symm
  | some previous => rfl

theorem meets_iff_same_seen (desired live : Document) :
    Meets Value.topOrder Value.topOrder desired.root (live.lastApplied?.getD .null) live.root ↔
      (seen desired live).same desired.root.canonical := by
  rw [Meets, ← comparedFields_eq]
  rfl

/-- What others add to a live object makes no difference to what is planned for it, as long as the
record of what was last applied stays. -/
theorem action_planChange_of_enriched (context : Nat)
    (h : Enriched desired.root (live.lastApplied?.getD .null) live.root live'.root)
    (hrecord : live'.lastApplied? = live.lastApplied?) :
    (planChange desired (some live') context).action =
      (planChange desired (some live) context).action := by
  have hmeets := h.meets_iff desired.wellKeyed (wellKeyed_getD_lastApplied? live) (.inl rfl)
    Value.topOrder Value.topOrder
  rw [meets_iff_same_seen, ← hrecord, meets_iff_same_seen] at hmeets
  rw [action_planChange, action_planChange]
  exact if_congr hmeets.symm rfl rfl

/-- The live pod with what a server gives to it. -/
def servedPod : Document where
  root := .mapping [("apiVersion", .string "v1"), ("kind", .string "Pod"),
    ("metadata", .mapping [("uid", .string "8d1c"), ("name", .string "web"),
      ("annotations", .mapping [(lastAppliedKey, .string appliedPod)])]),
    ("spec", .mapping [("containers", .sequence [.mapping [("name", .string "app"),
      ("imagePullPolicy", .string "Always"),
      ("env", .sequence [.mapping [("name", .string "MODE"), ("value", .string "debug")]])]])]),
    ("status", .mapping [("phase", .string "Running")])]
  wellKeyed := by simp [Ordered.keys]

/-- The server gives a status, an identity, and a default of the container. -/
theorem enriched_servedPod :
    Enriched barePod.root appliedTree livePod.root servedPod.root := by
  have hstatus : Enriched barePod.root appliedTree livePod.root _ :=
    @Enriched.add _ _ (.mapping [("phase", .string "Running")]) "status" livePod.fields []
      (by decide) (by decide) (by decide)
  have hidentity : Enriched (barePod.root.under (.key "metadata"))
      (appliedTree.under (.key "metadata")) (livePod.root.under (.key "metadata")) _ :=
    @Enriched.add _ _ (.string "8d1c") "uid" [] _ (by decide) (by decide) (by decide)
  have hdefault : Enriched (.mapping [("name", .string "app")])
      ((podSpec.under (.key "containers")).under (.index 0))
      ((podSpec.under (.key "containers")).under (.index 0)) _ :=
    @Enriched.add _ _ (.string "Always") "imagePullPolicy" [("name", .string "app")] _
      (by decide) (by decide) (by decide)
  have hspec : Enriched (barePod.root.under (.key "spec")) podSpec podSpec _ :=
    @Enriched.field _ _ _ _ "containers" [] [] (by decide) (@Enriched.item _ _ _ _ [] [] hdefault)
  refine hstatus.trans ?_
  refine .trans (@Enriched.field _ _ _ _ "metadata" [("apiVersion", .string "v1"),
    ("kind", .string "Pod")] _ (by decide) hidentity) ?_
  exact @Enriched.field _ _ _ _ "spec" [("apiVersion", .string "v1"),
    ("kind", .string "Pod"), _] _ (by decide) hspec

theorem action_planChange_servedPod :
    (planChange barePod (some servedPod) 3).action =
      (planChange barePod (some livePod) 3).action := by
  have hrecord : servedPod.lastApplied? = some appliedTree := by decide +kernel
  refine action_planChange_of_enriched 3 ?_ (hrecord.trans lastApplied?_livePod.symm)
  rw [lastApplied?_livePod]
  exact enriched_servedPod

end Rollout
