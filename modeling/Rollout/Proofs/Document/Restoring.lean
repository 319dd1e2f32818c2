import Rollout.Proofs.Document.Editing
/-!
Edits by path as a whole: one that fails leaves the document as it was, with the order of all
its keys, and one that succeeds touches a single top-level field.
-/

namespace Rollout

namespace Path

variable {k : String} {p : Path} {fs : Fields}

/-- Setting below a key puts one value under it. -/
theorem exists_afterSet_eq_put (x : Value) (k : String) (p : Path) (fs : Fields) :
    ∃ c, afterSet x (.key k :: p) (.mapping fs) = .mapping (Ordered.put k c fs) :=
  ⟨_, afterSet_key x k p (.mapping fs)⟩

/-- Removing further below a key puts one value under it too, or does nothing. -/
theorem remove_eq_put (k : String) (hp : p ≠ []) (fs : Fields) :
    (remove (.key k :: p) (.mapping fs)).2 = .mapping fs ∨
      ∃ c, (remove (.key k :: p) (.mapping fs)).2 = .mapping (Ordered.put k c fs) := by
  rcases remove_cases (.key k :: p) (.mapping fs) with hsame | ⟨q, s, hq, hremove⟩
  · exact .inl hsame
  · rw [hremove]
    cases q with
    | nil =>
        cases hq
        exact absurd rfl hp
    | cons t q =>
        cases hq
        rw [Path.modify]
        cases hk : Ordered.find? k fs with
        | none =>
            refine .inl (congrArg Value.mapping (Ordered.modify_eq_self fun v hv => ?_))
            rw [hk] at hv
            cases hv
        | some v => exact .inr ⟨_, congrArg Value.mapping (Ordered.modify_eq_put hk _)⟩

/-- Removing by a path with a first key leaves the other fields. -/
theorem exists_remove_eq_mapping (k : String) (p : Path) (fs : Fields) :
    ∃ gs, (remove (.key k :: p) (.mapping fs)).2 = .mapping gs ∧
      gs.filter (·.1 ≠ k) = fs.filter (·.1 ≠ k) := by
  by_cases hp : p = []
  · subst hp
    rcases remove_cases [.key k] (.mapping fs) with hsame | ⟨q, s, hq, hremove⟩
    · exact ⟨fs, hsame, rfl⟩
    · obtain ⟨rfl, hs⟩ := List.append_eq_singleton_iff.mp hq.symm |>.resolve_right (by simp)
      cases hs
      exact ⟨_, hremove, Ordered.filter_remove k fs⟩
  · rcases remove_eq_put k hp fs with hsame | ⟨c, hput⟩
    · exact ⟨fs, hsame, rfl⟩
    · exact ⟨_, hput, Ordered.filter_put k c fs⟩

end Path

namespace Document

variable {d : Document} {α : Type} {path : Path} {change : Tree → Except BuildError α × Tree}

/-- The top-level fields but one, in their order. -/
def fieldsBesides (d : Document) (field : String) : Fields := d.fields.filter (·.1 ≠ field)

/-- What an edit by path makes of a document. `does` tells what the edit of a tree gives. -/
structure Edited.Contained (d : Document) (path : String) (does : Path → α → Value → Prop)
    (r : Edited α) : Prop where
  /-- An edit that fails leaves the document as it was. -/
  undone : ∀ e, r.outcome = .error e → r.document = d
  /-- Another does what it does to the tree, in the field that the path begins with. -/
  done : ∀ a, r.outcome = .ok a → ∃ field p, Path.parse path = .ok (.key field :: p) ∧
    does (.key field :: p) a r.document.root ∧
    r.document.fieldsBesides field = d.fieldsBesides field

theorem restore_put (k : String) (c : Value) (fs : Fields) :
    restore k (Ordered.find? k fs) (.mapping (Ordered.put k c fs)) = .mapping fs := by
  cases hk : Ordered.find? k fs with
  | some v => exact congrArg Value.mapping (Ordered.put_put_of_find? hk c)
  | none => exact congrArg Value.mapping (Ordered.remove_put_of_find? hk c)

theorem restore_self (k : String) (fs : Fields) :
    restore k (Ordered.find? k fs) (.mapping fs) = .mapping fs := by
  cases hk : Ordered.find? k fs with
  | some v => exact congrArg Value.mapping (Ordered.put_eq_self hk)
  | none => exact congrArg Value.mapping (Ordered.remove_eq_self hk)

theorem withRoot_eq_self {t : Tree} (h : t.1 = d.root) : d.withRoot t = d := by
  obtain ⟨root, markers, hroot⟩ := d
  obtain ⟨v, hv⟩ := t
  cases h
  rfl

/-- What an edit comes to: it is refused; or it is done, in a field that it may touch; or it has
failed, or leaves metadata that is not valid, and the field is put back. -/
theorem edit_cases (d : Document) (path : Path) (change : Tree → Except BuildError α × Tree) :
    (∃ e, d.edit path change = ⟨.error e, d⟩) ∨ ∃ field p, path = .key field :: p ∧
      ((∃ a, (change d.tree).1 = .ok a ∧
          d.edit path change = ⟨.ok a, d.withRoot (change d.tree).2⟩) ∨
        ((∃ e, (change d.tree).1 = .error e) ∨ field = "metadata") ∧
          ∃ e, d.edit path change = ⟨.error e, d.withRoot (d.restored field (change d.tree).2)⟩) := by
  unfold edit
  split
  · next field p =>
      split
      · exact .inl ⟨_, rfl⟩
      · right
        refine ⟨field, p, rfl, ?_⟩
        generalize change d.tree = changed
        obtain ⟨result, root⟩ := changed
        dsimp only
        split
        · next a houtcome =>
            obtain ⟨b, hresult, houtcome⟩ := bind_eq_ok.mp houtcome
            split at houtcome
            · obtain ⟨-, -, houtcome⟩ := bind_eq_ok.mp houtcome
              cases houtcome
              exact .inl ⟨a, hresult, rfl⟩
            · cases houtcome
              exact .inl ⟨a, hresult, rfl⟩
        · next e houtcome =>
            refine .inr ⟨?_, e, rfl⟩
            cases result with
            | error e' => exact .inl ⟨e', rfl⟩
            | ok a =>
                right
                by_contra hmetadata
                change (if field = "metadata" then _ else Except.ok a) = Except.error e at houtcome
                rw [if_neg hmetadata] at houtcome
                cases houtcome
  · exact .inl ⟨_, rfl⟩

theorem Edited.Contained.refused {path : String} {does : Path → α → Value → Prop} {e : BuildError}
    {r : Edited α} (h : r = ⟨.error e, d⟩) : r.Contained d path does := by
  subst h
  exact ⟨fun _ _ => rfl, nofun⟩

/-- An edit is contained if what it gives differs from the tree in one field, or fails for sure. -/
theorem contained_edit {path : String} {p : Path} {does : Path → α → Value → Prop} {fs : Fields}
    (hparse : Path.parse path = .ok p) (hroot : d.root = .mapping fs)
    (hdone : ∀ a, (change d.tree).1 = .ok a → does p a (change d.tree).2.1)
    (hfields : ∀ field q, p = .key field :: q → ∃ gs, (change d.tree).2.1 = .mapping gs ∧
      gs.filter (·.1 ≠ field) = fs.filter (·.1 ≠ field))
    (hundone : ∀ field q, p = .key field :: q →
      ((∃ e, (change d.tree).1 = .error e) ∨ field = "metadata") →
      restore field (Ordered.find? field fs) (change d.tree).2.1 = .mapping fs) :
    (d.edit p change).Contained d path does := by
  rcases edit_cases d p change with ⟨e, hrefused⟩ | ⟨field, q, hp, hcases⟩
  · exact .refused hrefused
  · rcases hcases with ⟨a, ha, hedit⟩ | ⟨hfailed, e, hedit⟩
    · rw [hedit]
      refine ⟨nofun, fun b hb => ⟨field, q, hp ▸ hparse, ?_, ?_⟩⟩
      · cases hb
        exact hp ▸ hdone a ha
      · obtain ⟨gs, hgs, hfilter⟩ := hfields field q hp
        rw [fieldsBesides, fieldsBesides, fields, fields, hroot]
        change ((change d.tree).2.1.fields?.getD []).filter _ = _
        rw [hgs]
        exact hfilter
    · rw [hedit]
      refine ⟨fun _ _ => withRoot_eq_self ?_, nofun⟩
      change restore field (d.root.field? field) (change d.tree).2.1 = d.root
      rw [hroot]
      exact hundone field q hp hfailed

/-- Setting by a path, as the change that an edit makes. -/
def setting (p : Path) (x t : Tree) : Except BuildError Unit × Tree :=
  match h : p.set x t with
  | .ok v => (.ok (), ⟨v, p.wellKeyed_set x.2 t.2 (.inl h)⟩)
  | .error v =>
    (.error (.invalidPath p.text .indexTooFar), ⟨v, p.wellKeyed_set x.2 t.2 (.inr h)⟩)

theorem set_eq_edit {path : String} {p : Path} (h : Path.parse path = .ok p) (x : Tree) :
    d.set path x = d.edit p (setting p x) := by
  rw [set, parsePath, h]
  rfl

theorem root_setting (p : Path) (x t : Tree) : (setting p x t).2.1 = p.afterSet x t := by
  rw [setting]
  split
  · next v h =>
      change v = _
      rw [Path.afterSet, h]
  · next v h =>
      change v = _
      rw [Path.afterSet, h]

theorem set_eq_of_setting {p : Path} {x t : Tree} {a : Unit} (h : (setting p x t).1 = .ok a) :
    p.set x t = .ok (setting p x t).2.1 := by
  rw [setting] at h ⊢
  split at h
  · next hset => exact hset
  · cases h

theorem contained_set (h : d.root.isMapping) (path : String) (x : Tree) :
    (d.set path x).Contained d path fun p _ w => p.set x d.root = .ok w := by
  obtain ⟨fs, hroot⟩ := Value.eq_mapping_of_isMapping h
  cases hparse : Path.parse path with
  | error e =>
      rw [set, parsePath, hparse]
      exact .refused rfl
  | ok p =>
      rw [set_eq_edit hparse]
      have hafter : (setting p x d.tree).2.1 = p.afterSet x (.mapping fs) :=
        hroot ▸ root_setting p x d.tree
      refine contained_edit hparse hroot (fun _ => set_eq_of_setting) ?_ ?_
      · rintro field q rfl
        obtain ⟨c, hput⟩ := Path.exists_afterSet_eq_put x field q fs
        exact ⟨_, hafter.trans hput, Ordered.filter_put field c fs⟩
      · rintro field q rfl -
        obtain ⟨c, hput⟩ := Path.exists_afterSet_eq_put x field q fs
        rw [hafter, hput, restore_put]

theorem contained_remove (h : d.root.isMapping) (path : String) :
    (d.remove path).Contained d path fun p a w => p.remove d.root = (a, w) := by
  obtain ⟨fs, hroot⟩ := Value.eq_mapping_of_isMapping h
  rw [remove, parsePath]
  cases hparse : Path.parse path with
  | error e => exact .refused rfl
  | ok p =>
      dsimp only [Except.mapError]
      split
      · next hp => cases hp
      · exact .refused rfl
      · next hne hp =>
          cases hp
          refine contained_edit hparse hroot ?_ ?_ ?_
          · intro a ha
            cases ha
            rfl
          · rintro field q rfl
            change ∃ gs, (Path.remove (.key field :: q) d.root).2 = .mapping gs ∧ _
            rw [hroot]
            exact Path.exists_remove_eq_mapping field q fs
          · rintro field q rfl hfailed
            rcases hfailed with ⟨e, ⟨⟩⟩ | rfl
            change restore _ _ (Path.remove (.key "metadata" :: q) d.root).2 = _
            rw [hroot]
            have hq : q ≠ [] := fun hq => hne (by rw [hq])
            rcases Path.remove_eq_put "metadata" hq fs with h | ⟨c, h⟩
            · rw [h, restore_self]
            · rw [h, restore_put]

/-- An edit by path that fails leaves the document as it was, with the order of all keys. One that
succeeds does what its path says; the fields that the path does not begin with stay, in their
order. -/
theorem contained_edits (h : d.root.isMapping) (path : String) (x : Tree) :
    ((d.set path x).Contained d path fun p _ w => p.set x d.root = .ok w) ∧
      (d.remove path).Contained d path fun p a w => p.remove d.root = (a, w) :=
  ⟨contained_set h path x, contained_remove h path⟩

/-- Setting fails with a field and a sequence already there, removing the name fails after it is
gone, and data is added behind the metadata. -/
theorem contained_edits_settings :
    let d := (new "v1" "ConfigMap" "settings").setNs (some "shop")
    let x := Tree.string "debug"
    (d.set "spec.items[3].args[2000]" x).outcome =
        .error (.invalidPath "spec.items[3].args[2000]" .indexTooFar) ∧
      (d.set "spec.items[3].args[2000]" x).document = d ∧
      (d.remove "metadata.name").outcome = .error (.invalidDocument .badName) ∧
      (d.remove "metadata.name").document = d ∧
      (d.set "data.MODE" x).outcome = .ok () ∧
      (d.set "data.MODE" x).document.fieldsBesides "data" = d.fields := by
  intro d x
  have hd : d.root.isMapping := rfl
  have hfar : (d.set "spec.items[3].args[2000]" x).outcome =
      .error (.invalidPath "spec.items[3].args[2000]" .indexTooFar) := by decide +kernel
  have hname : (d.remove "metadata.name").outcome = .error (.invalidDocument .badName) := by
    decide +kernel
  have hdata : (d.set "data.MODE" x).outcome = .ok () := by decide +kernel
  obtain ⟨field, p, hparse, -, hfields⟩ := (contained_edits hd "data.MODE" x).1.done () hdata
  have hpath : Path.parse "data.MODE" = .ok [.key "data", .key "MODE"] := by decide
  obtain ⟨rfl, rfl⟩ : field = "data" ∧ p = [.key "MODE"] := by simpa [hpath, eq_comm] using hparse
  exact ⟨hfar, (contained_edits hd _ x).1.undone _ hfar, hname,
    (contained_edits hd _ x).2.undone _ hname, hdata, hfields⟩

end Document

end Rollout
