import Rollout.Value.Projection
/-!
Projection and union of mappings, key by key, and trees that add no fields to another.
-/

namespace Rollout.Value

theorem eq_mapping_of_fields? {v : Value} {fs : Fields} (h : v.fields? = some fs) :
    v = .mapping fs := by
  cases v with
  | mapping gs => exact congrArg Value.mapping (Option.some.inj h)
  | _ => cases h

theorem find?_projectFields (k : String) (live wanted : Fields) :
    Ordered.find? k (projectFields live wanted) =
      (Ordered.find? k wanted).bind fun w => (Ordered.find? k live).map (project · w) := by
  induction wanted with
  | nil => rfl
  | cons e rest ih =>
      obtain ⟨j, w⟩ := e
      rw [projectFields]
      by_cases hj : j = k
      · subst hj
        cases hl : Ordered.find? j live with
        | some v => simp [Ordered.find?]
        | none => simp [ih, hl, Ordered.find?]
      · cases Ordered.find? j live with
        | some v => simpa [Ordered.find?, hj] using ih
        | none => simpa [Ordered.find?, hj] using ih

theorem keys_projectFields_sublist (live wanted : Fields) :
    (Ordered.keys (projectFields live wanted)).Sublist (Ordered.keys wanted) := by
  induction wanted with
  | nil => exact .slnil
  | cons e rest ih =>
      obtain ⟨j, w⟩ := e
      rw [projectFields]
      split
      · exact ih.cons_cons j
      · exact ih.cons j

theorem projectItems_length {live wanted : List Value} (h : live.length = wanted.length) :
    (projectItems live wanted).length = live.length := by
  induction live generalizing wanted with
  | nil => simp [projectItems]
  | cons v live ih =>
      cases wanted with
      | nil => cases h
      | cons w wanted => simp [projectItems, ih (Nat.succ.inj h)]

theorem projectFields_congr {live live' wanted : Fields}
    (h : ∀ e ∈ wanted, (Ordered.find? e.1 live).map (project · e.2) =
      (Ordered.find? e.1 live').map (project · e.2)) :
    projectFields live wanted = projectFields live' wanted := by
  induction wanted with
  | nil => rfl
  | cons e rest ih =>
      obtain ⟨k, w⟩ := e
      rw [List.forall_mem_cons] at h
      rw [projectFields, projectFields, ih h.2]
      have hk := h.1
      cases hl : Ordered.find? k live <;> cases hl' : Ordered.find? k live' <;>
        simp_all

theorem projectItems_modify {f : Value → Value} {live wanted : List Value} {i : Nat}
    (h : ∀ v w, live[i]? = some v → wanted[i]? = some w → (f v).project w = v.project w) :
    projectItems (live.modify i f) wanted = projectItems live wanted := by
  induction live generalizing wanted i with
  | nil => cases i <;> rfl
  | cons v live ih =>
      cases wanted with
      | nil => cases i <;> rfl
      | cons w wanted =>
          cases i with
          | zero => simp [projectItems, h v w rfl rfl]
          | succ i => simp [projectItems, ih h]

/-- One more field: what is there is extended, what is not is added. -/
def extended (v? old? : Option Value) : Option Value :=
  match v?, old? with
  | some v, some old => some (v.withFieldsOf old)
  | some v, none => some v
  | none, old? => old?

theorem find?_extendFields (k : String) {fs more : Fields} (hk : (Ordered.keys more).Nodup) :
    Ordered.find? k (extendFields fs more) =
      extended (Ordered.find? k fs) (Ordered.find? k more) := by
  induction more generalizing fs with
  | nil => cases hf : Ordered.find? k fs <;> simp [extendFields, Ordered.find?, extended, hf]
  | cons e more ih =>
      obtain ⟨j, old⟩ := e
      rw [Ordered.keys_cons, List.nodup_cons] at hk
      rw [extendFields, ih hk.2, Ordered.find?_put]
      by_cases hj : j = k
      · subst hj
        rw [Ordered.find?_eq_none_iff.mpr hk.1]
        cases hf : Ordered.find? j fs <;> simp [extended, Ordered.find?]
      · simp [hj, Ordered.find?]

theorem projectFields_eq_self {live wanted : Fields}
    (h : ∀ e ∈ wanted, ∃ v, Ordered.find? e.1 live = some v ∧ v.project e.2 = e.2) :
    projectFields live wanted = wanted := by
  induction wanted with
  | nil => rfl
  | cons e wanted ih =>
      obtain ⟨⟨v, hv, hproject⟩, hwanted⟩ := List.forall_mem_cons.mp h
      rw [projectFields, hv]
      dsimp only
      rw [hproject, ih hwanted]

mutual

/-- A tree has all of its own fields. -/
theorem project_self : (v : Value) → v.WellKeyed → v.project v = v
  | .mapping fs, h => by
      obtain ⟨hkeys, hfields⟩ := wellKeyed_mapping.mp h
      rw [project, projectFields_eq_self]
      intro e he
      exact ⟨e.2, Ordered.find?_eq_some_of_mem hkeys he, project_self_fields fs hfields e he⟩
  | .sequence vs, h => by
      rw [project, if_pos rfl, projectItems_self vs (wellKeyed_sequence.mp h)]
  | .null, _ | .bool _, _ | .number _, _ | .string _, _ => by
      rw [project] <;> nofun

theorem project_self_fields : (fs : Fields) → (∀ e ∈ fs, e.2.WellKeyed) →
    ∀ e ∈ fs, e.2.project e.2 = e.2
  | [], _ => nofun
  | (k, v) :: fs, h => by
      rw [List.forall_mem_cons] at h ⊢
      exact ⟨project_self v h.1, project_self_fields fs h.2⟩

theorem projectItems_self : (vs : List Value) → (∀ v ∈ vs, v.WellKeyed) → projectItems vs vs = vs
  | [], _ => rfl
  | v :: vs, h => by
      rw [List.forall_mem_cons] at h
      rw [projectItems, project_self v h.1, projectItems_self vs h.2]

end

/-- Mappings that agree at all keys but one are projected to all fields, if the one is. -/
theorem project_mapping_eq_self {live wanted : Fields} (j : String)
    (hwanted : (Value.mapping wanted).WellKeyed)
    (hother : ∀ k ≠ j, Ordered.find? k live = Ordered.find? k wanted)
    (hj : ∀ w, Ordered.find? j wanted = some w →
      ∃ v, Ordered.find? j live = some v ∧ v.project w = w) :
    (Value.mapping live).project (.mapping wanted) = .mapping wanted := by
  rw [wellKeyed_mapping] at hwanted
  rw [project, projectFields_eq_self]
  intro e he
  have hfind := Ordered.find?_eq_some_of_mem hwanted.1 he
  by_cases hk : e.1 = j
  · subst hk
    exact hj e.2 hfind
  · exact ⟨e.2, (hother e.1 hk).trans hfind, project_self e.2 (hwanted.2 e he)⟩

/-- Every field of the first tree is a field of the second, as deep as mappings go. -/
inductive Within : Value → Value → Prop where
  | leaf {p v : Value} : p.isMapping = false → Within p v
  | mapping {ps fs : Fields} : (∀ e ∈ ps, Ordered.has e.1 fs) →
      (∀ e ∈ ps, ∀ v, Ordered.find? e.1 fs = some v → Within e.2 v) →
      Within (.mapping ps) (.mapping fs)

theorem within_mapping {ps fs : Fields} (hfs : (Ordered.keys fs).Nodup)
    (h : ∀ e ∈ ps, ∃ v, (e.1, v) ∈ fs ∧ Within e.2 v) : Within (.mapping ps) (.mapping fs) := by
  refine .mapping (fun e he => ?_) (fun e he v hv => ?_)
  · obtain ⟨v, hv, -⟩ := h e he
    exact Ordered.has_iff.mpr (Ordered.mem_keys_of_mem (e := (e.1, v)) hv)
  · obtain ⟨w, hw, hwithin⟩ := h e he
    obtain rfl := Option.some.inj (hv.symm.trans (Ordered.find?_eq_some_of_mem hfs hw))
    exact hwithin

theorem Within.mapping_mono {p : Value} {fs gs : Fields} (h : Within p (.mapping fs))
    (hfs : ∀ k v, Ordered.find? k fs = some v →
      ∃ w, Ordered.find? k gs = some w ∧ ∀ q, Within q v → Within q w) :
    Within p (.mapping gs) := by
  cases h with
  | leaf h => exact .leaf h
  | mapping hkeys hvalues =>
      refine .mapping (fun e he => ?_) (fun e he w hw => ?_)
      · obtain ⟨v, hv⟩ := Option.isSome_iff_exists.mp (hkeys e he)
        obtain ⟨w, hw, -⟩ := hfs e.1 v hv
        exact Option.isSome_of_eq_some hw
      · obtain ⟨v, hv⟩ := Option.isSome_iff_exists.mp (hkeys e he)
        obtain ⟨x, hx, hmono⟩ := hfs e.1 v hv
        obtain rfl := Option.some.inj (hx.symm.trans hw)
        exact hmono e.2 (hvalues e he v hv)

theorem extendFields_eq_self {fs more : Fields}
    (h : ∀ e ∈ more, ∃ v, Ordered.find? e.1 fs = some v ∧ v.withFieldsOf e.2 = v) :
    extendFields fs more = fs := by
  induction more with
  | nil => rfl
  | cons e more ih =>
      obtain ⟨⟨v, hv, hself⟩, hmore⟩ := List.forall_mem_cons.mp h
      rw [extendFields, hv]
      dsimp only
      rw [hself, Ordered.put_eq_self hv]
      exact ih hmore

/-- Fields that are there already add nothing. -/
theorem Within.withFieldsOf_eq_self {p v : Value} (h : Within p v) : v.withFieldsOf p = v := by
  induction h with
  | @leaf p v hp =>
      cases p with
      | mapping ps => cases hp
      | _ =>
          rw [withFieldsOf]
          nofun
  | @mapping ps fs hkeys hvalues ih =>
      rw [withFieldsOf, extendFields_eq_self]
      intro e he
      obtain ⟨v, hv⟩ := Option.isSome_iff_exists.mp (hkeys e he)
      exact ⟨v, hv, ih e he v hv⟩

end Rollout.Value
