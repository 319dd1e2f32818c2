import Rollout.Proofs.Value.Projection
/-!
Merging a tree into another: key by key, and what has all fields of the merged tree keeps them.
-/

namespace Rollout.Value

/-- One field after merging: what both have is merged, what one has stays. -/
def patched (v? p? : Option Value) : Option Value :=
  match v?, p? with
  | some v, some p => some (v.merge p)
  | v?, none => v?
  | none, p? => p?

theorem find?_mergeFields (k : String) {fs patch : Fields} (hk : (Ordered.keys patch).Nodup) :
    Ordered.find? k (mergeFields fs patch) =
      patched (Ordered.find? k fs) (Ordered.find? k patch) := by
  induction patch generalizing fs with
  | nil => cases hf : Ordered.find? k fs <;> simp [mergeFields, Ordered.find?, patched, hf]
  | cons e patch ih =>
      obtain ⟨j, p⟩ := e
      rw [Ordered.keys_cons, List.nodup_cons] at hk
      rw [mergeFields, ih hk.2, Ordered.find?_put]
      by_cases hj : j = k
      · subst hj
        rw [Ordered.find?_eq_none_iff.mpr hk.1]
        cases hf : Ordered.find? j fs <;> simp [patched, Ordered.find?]
      · simp [hj, Ordered.find?]

theorem merge_of_fields?_eq_none (v : Value) {p : Value} (h : p.fields? = none) :
    v.merge p = p := by
  cases p with
  | mapping patch => cases h
  | _ => simp only [merge]

/-- A field that the patch has is patched. -/
theorem field?_merge (v : Value) {p w : Value} (hp : p.WellKeyed) {k : String}
    (hw : p.field? k = some w) : (v.merge p).field? k = patched (v.field? k) (some w) := by
  cases p with
  | mapping patch =>
      have hfind : Ordered.find? k patch = some w := hw
      cases v with
      | mapping fs =>
          rw [merge]
          change Ordered.find? k (mergeFields fs patch) = _
          rw [find?_mergeFields k (wellKeyed_mapping.mp hp).1, hfind]
          rfl
      | _ =>
          rw [merge]
          · exact hw
          · rintro _ ⟨⟩
  | _ => cases hw

/-- What is read of a field after merging: the new field, unless only the old tree has one. -/
theorem field?_merge_cases (v : Value) {p : Value} (hp : p.WellKeyed) (k : String) :
    (v.merge p).field? k = p.field? k ∨
      p.field? k = none ∧ (v.merge p).field? k = v.field? k ∨
      ∃ x q, v.field? k = some x ∧ p.field? k = some q ∧
        (v.merge p).field? k = some (x.merge q) := by
  cases hfields : p.fields? with
  | none => exact .inl (by rw [merge_of_fields?_eq_none v hfields])
  | some patch =>
      obtain rfl := eq_mapping_of_fields? hfields
      cases v with
      | mapping fs =>
          have hmerge : ((mapping fs).merge (.mapping patch)).field? k =
              patched (Ordered.find? k fs) (Ordered.find? k patch) := by
            rw [merge]
            exact find?_mergeFields k (wellKeyed_mapping.mp hp).1
          rw [hmerge]
          change _ = Ordered.find? k patch ∨ Ordered.find? k patch = none ∧ _ = Ordered.find? k fs ∨
            ∃ x q, Ordered.find? k fs = some x ∧ Ordered.find? k patch = some q ∧ _
          cases Ordered.find? k patch with
          | none => cases Ordered.find? k fs <;> exact .inr (.inl ⟨rfl, rfl⟩)
          | some q =>
              cases Ordered.find? k fs with
              | none => exact .inl rfl
              | some x => exact .inr (.inr ⟨x, q, rfl, rfl, rfl⟩)
      | _ => exact .inl (by rw [merge]; rintro _ ⟨⟩)

theorem text?_merge (v p : Value) : (v.merge p).text? = p.text? := by
  cases hfields : p.fields? with
  | none => rw [merge_of_fields?_eq_none v hfields]
  | some patch =>
      obtain rfl := eq_mapping_of_fields? hfields
      cases v with
      | mapping fs =>
          simp only [merge]
          rfl
      | _ => simp only [merge]

/-- A text that both trees have is the same after merging. -/
theorem fieldText?_merge_cases (v : Value) {p : Value} (hp : p.WellKeyed) (k : String) :
    (v.merge p).fieldText? k = p.fieldText? k ∨
      p.fieldText? k = none ∧ (v.merge p).fieldText? k = v.fieldText? k := by
  rw [fieldText?, fieldText?, fieldText?]
  rcases field?_merge_cases v hp k with h | ⟨hnone, h⟩ | ⟨x, q, -, hq, h⟩
  · exact .inl (by rw [h])
  · exact .inr ⟨by rw [hnone]; rfl, by rw [h]⟩
  · refine .inl ?_
    rw [h, hq]
    exact text?_merge x q

/-- A tree has all of another: seen through the other, it is the same. -/
def Covers (v p : Value) : Prop := v.project p = p

theorem covers_mapping {v : Value} {ps : Fields} (h : v.Covers (.mapping ps)) :
    ∃ fs, v = .mapping fs ∧ projectFields fs ps = ps := by
  cases v with
  | mapping fs =>
      rw [Covers, project, mapping.injEq] at h
      exact ⟨fs, rfl, h⟩
  | _ =>
      simp only [Covers, project] at h
      cases h

theorem Covers.exists_field {v : Value} {ps : Fields} (h : v.Covers (.mapping ps)) {k : String}
    {p : Value} (hp : Ordered.find? k ps = some p) :
    ∃ fs x, v = .mapping fs ∧ Ordered.find? k fs = some x ∧ x.Covers p := by
  obtain ⟨fs, rfl, hfields⟩ := covers_mapping h
  have hfind := find?_projectFields k fs ps
  rw [hfields, hp, Option.bind_some] at hfind
  obtain ⟨x, hx, hcovers⟩ := Option.map_eq_some_iff.mp hfind.symm
  exact ⟨fs, x, rfl, hx, hcovers⟩

theorem covers_of_fields {fs ps : Fields}
    (h : ∀ e ∈ ps, ∃ x, Ordered.find? e.1 fs = some x ∧ x.Covers e.2) :
    (mapping fs).Covers (.mapping ps) := by
  rw [Covers, project]
  exact congrArg mapping (projectFields_eq_self h)

theorem covers_sequence {v : Value} {ps : List Value} (h : v.Covers (.sequence ps)) :
    ∃ vs, v = .sequence vs ∧ vs.length = ps.length ∧ projectItems vs ps = ps := by
  cases v with
  | sequence vs =>
      rw [Covers, project] at h
      split at h
      · next hlength =>
          rw [sequence.injEq] at h
          exact ⟨vs, rfl, hlength, h⟩
      · next hlength =>
          rw [sequence.injEq] at h
          exact absurd (congrArg List.length h) hlength
  | _ =>
      simp only [Covers, project] at h
      cases h

mutual

/-- What was merged into a tree is covered by it. -/
theorem covers_merge : (p : Value) → p.WellKeyed → (v : Value) → (v.merge p).Covers p
  | .mapping ps, hp, v => by
      cases v with
      | mapping fs =>
          rw [merge]
          refine covers_of_fields fun e he => ?_
          have hkeys := (wellKeyed_mapping.mp hp).1
          rw [find?_mergeFields e.1 hkeys, Ordered.find?_eq_some_of_mem hkeys he]
          have hmerged := covers_merge_fields ps (wellKeyed_mapping.mp hp).2 e he
          cases Ordered.find? e.1 fs with
          | none => exact ⟨e.2, rfl, project_self _ ((wellKeyed_mapping.mp hp).2 e he)⟩
          | some x => exact ⟨x.merge e.2, rfl, hmerged x⟩
      | _ => exact project_self _ hp
  | .sequence ps, hp, v => by
      rw [merge]
      · exact project_self _ hp
      · nofun
  | .null, hp, v | .bool _, hp, v | .number _, hp, v | .string _, hp, v => by
      rw [merge]
      · exact project_self _ hp
      · nofun

theorem covers_merge_fields : (ps : Fields) → (∀ e ∈ ps, e.2.WellKeyed) →
    ∀ e ∈ ps, ∀ v : Value, (v.merge e.2).Covers e.2
  | [], _ => nofun
  | (k, p) :: ps, hp => by
      rw [List.forall_mem_cons] at hp ⊢
      exact ⟨covers_merge p hp.1, covers_merge_fields ps hp.2⟩

end

theorem null_merge (p : Value) : Value.null.merge p = p := by
  cases p <;> simp only [merge]

theorem mergeFields_eq_self {fs patch : Fields}
    (h : ∀ e ∈ patch, ∃ v, Ordered.find? e.1 fs = some v ∧ v.merge e.2 = v) :
    mergeFields fs patch = fs := by
  induction patch with
  | nil => rfl
  | cons e patch ih =>
      obtain ⟨⟨v, hv, hmerge⟩, hrest⟩ := List.forall_mem_cons.mp h
      rw [mergeFields, hv]
      dsimp only
      rw [hmerge, Ordered.put_eq_self hv]
      exact ih hrest

/-- Fields that are not patched keep their values and their order. -/
theorem filter_mergeFields {keep : String × Value → Bool} {patch : Fields}
    (h : ∀ e, keep e → e.1 ∉ Ordered.keys patch) (fs : Fields) :
    (mergeFields fs patch).filter keep = fs.filter keep := by
  induction patch generalizing fs with
  | nil => rfl
  | cons e patch ih =>
      obtain ⟨k, p⟩ := e
      have hother (gs : Fields) : gs.filter keep = (gs.filter (·.1 ≠ k)).filter keep := by
        rw [List.filter_filter]
        refine List.filter_congr fun e _ => Bool.eq_iff_iff.mpr ?_
        rw [Bool.and_eq_true, decide_eq_true_eq]
        exact ⟨fun he => ⟨he, fun hk => h e he (hk ▸ List.mem_cons_self)⟩, And.left⟩
      rw [mergeFields, ih fun e he hmem => h e he (List.mem_cons_of_mem k hmem), hother,
        Ordered.filter_put, ← hother]

mutual

/-- A patch over what was patched with it already changes nothing. -/
theorem merge_merge : (p : Value) → p.WellKeyed → (v : Value) →
    (v.merge p).merge p = v.merge p
  | .mapping ps, hp, v => by
      have hkeys := (wellKeyed_mapping.mp hp).1
      have hmerged := merge_merge_fields ps (wellKeyed_mapping.mp hp).2
      have hself : ∀ e ∈ ps, e.2.merge e.2 = e.2 := by
        intro e he
        have hnull := hmerged e he .null
        rwa [null_merge] at hnull
      cases v with
      | mapping fs =>
          simp only [merge]
          refine congrArg mapping (mergeFields_eq_self fun e he => ?_)
          rw [find?_mergeFields e.1 hkeys, Ordered.find?_eq_some_of_mem hkeys he]
          cases Ordered.find? e.1 fs with
          | none => exact ⟨e.2, rfl, hself e he⟩
          | some x => exact ⟨x.merge e.2, rfl, hmerged e he x⟩
      | _ =>
          simp only [merge]
          refine congrArg mapping (mergeFields_eq_self fun e he => ?_)
          exact ⟨e.2, Ordered.find?_eq_some_of_mem hkeys he, hself e he⟩
  | .sequence _, _, _ | .null, _, _ | .bool _, _, _ | .number _, _, _ | .string _, _, _ => by
      simp only [merge]

theorem merge_merge_fields : (ps : Fields) → (∀ e ∈ ps, e.2.WellKeyed) →
    ∀ e ∈ ps, ∀ v : Value, (v.merge e.2).merge e.2 = v.merge e.2
  | [], _ => nofun
  | (k, p) :: ps, hp => by
      rw [List.forall_mem_cons] at hp ⊢
      exact ⟨merge_merge p hp.1, merge_merge_fields ps hp.2⟩

end

mutual

theorem covers_trans : (q : Value) → q.WellKeyed → ∀ {v p : Value}, v.Covers p → p.Covers q →
    v.Covers q
  | .mapping qs, hq, v, p, h, h' => by
      obtain ⟨ps, rfl, -⟩ := covers_mapping h'
      obtain ⟨fs, rfl, -⟩ := covers_mapping h
      have hkeys := wellKeyed_mapping.mp hq
      refine covers_of_fields fun e he => ?_
      obtain ⟨ps', x, hps, hx, hcovers⟩ :=
        h'.exists_field (Ordered.find?_eq_some_of_mem hkeys.1 he)
      cases hps
      obtain ⟨fs', y, hfs, hy, hcovers'⟩ := h.exists_field hx
      cases hfs
      exact ⟨y, hy, covers_trans_fields qs hkeys.2 e he hcovers' hcovers⟩
  | .sequence qs, hq, v, p, h, h' => by
      obtain ⟨ps, rfl, hlength', hitems'⟩ := covers_sequence h'
      obtain ⟨vs, rfl, hlength, hitems⟩ := covers_sequence h
      rw [Covers, project, if_pos (hlength.trans hlength')]
      exact congrArg sequence
        (covers_trans_items qs (wellKeyed_sequence.mp hq) hlength hlength' hitems hitems')
  | .null, _, v, p, h, h' | .bool _, _, v, p, h, h' | .number _, _, v, p, h, h'
  | .string _, _, v, p, h, h' => by
      rw [Covers, project] at h'
      · exact h' ▸ h
      · nofun
      · nofun

theorem covers_trans_fields : (qs : Fields) → (∀ e ∈ qs, e.2.WellKeyed) →
    ∀ e ∈ qs, ∀ {v p : Value}, v.Covers p → p.Covers e.2 → v.Covers e.2
  | [], _ => nofun
  | (k, q) :: qs, hq => by
      rw [List.forall_mem_cons] at hq ⊢
      exact ⟨covers_trans q hq.1, covers_trans_fields qs hq.2⟩

theorem covers_trans_items : (qs : List Value) → (∀ q ∈ qs, q.WellKeyed) →
    ∀ {vs ps : List Value}, vs.length = ps.length → ps.length = qs.length →
      projectItems vs ps = ps → projectItems ps qs = qs → projectItems vs qs = qs
  | [], _, vs, ps, _, _, _, _ => by
      cases vs <;> rfl
  | q :: qs, hq, vs, ps, hlength, hlength', hitems, hitems' => by
      rw [List.forall_mem_cons] at hq
      cases ps with
      | nil => cases hlength'
      | cons p ps =>
          cases vs with
          | nil => cases hlength
          | cons v vs =>
              rw [projectItems, List.cons.injEq] at hitems hitems' ⊢
              exact ⟨covers_trans q hq.1 hitems.1 hitems'.1,
                covers_trans_items qs hq.2 (Nat.succ.inj hlength) (Nat.succ.inj hlength')
                  hitems.2 hitems'.2⟩

end

end Rollout.Value
