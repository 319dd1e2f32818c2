import Rollout.Proofs.Document.Acceptance
import Rollout.Proofs.Document.Identity
import Rollout.Proofs.Path.Editing
import Rollout.Proofs.Value.Agreement
/-!
Single changes of a document: whether they succeed or not, its `apiVersion` and `kind` stay, and
its metadata has a name.
-/

namespace Rollout

namespace Value

/-- Mappings that differ in one field at most. -/
structure OnlyField (field : String) (v w : Value) : Prop where
  left : v.isMapping
  right : w.isMapping
  field?_eq : ∀ k ≠ field, w.field? k = v.field? k

variable {field : String} {v w : Value} {fs gs : Fields}

theorem onlyField_mapping (h : ∀ k ≠ field, Ordered.find? k gs = Ordered.find? k fs) :
    OnlyField field (.mapping fs) (.mapping gs) := ⟨rfl, rfl, h⟩

theorem eq_mapping_of_isMapping (h : v.isMapping) : ∃ fs, v = .mapping fs := by
  obtain ⟨fs, hfs⟩ := Option.isSome_iff_exists.mp h
  exact ⟨fs, eq_mapping_of_fields? hfs⟩

theorem onlyField_set (x : Value) (p : Path) (h : v.isMapping) :
    OnlyField field v (Path.afterSet x (.key field :: p) v) := by
  obtain ⟨fs, rfl⟩ := eq_mapping_of_isMapping h
  rw [Path.afterSet_key]
  exact onlyField_mapping fun k hk => by rw [Ordered.find?_put, if_neg hk.symm]; rfl

theorem onlyField_remove (p : Path) (h : v.isMapping) :
    OnlyField field v (Path.remove (.key field :: p) v).2 := by
  obtain ⟨fs, rfl⟩ := eq_mapping_of_isMapping h
  rcases Path.remove_cases (.key field :: p) (.mapping fs) with hsame | ⟨q, s, hq, hremove⟩
  · rw [hsame]
    exact onlyField_mapping fun _ _ => rfl
  · rw [hremove]
    cases q with
    | nil =>
        cases hq
        exact onlyField_mapping fun k hk => Ordered.find?_remove_of_ne hk.symm fs
    | cons t q =>
        cases hq
        refine onlyField_mapping fun k hk => ?_
        rw [Ordered.find?_modify, if_neg hk.symm]

/-- What holds no other values is its own canonical form. -/
theorem canonicalEntry_eq_self (requirement : Bool) (k : String) (hitems : v.items? = none)
    (hfields : v.fields? = none) : canonicalEntry requirement k v = v := by
  cases v with
  | sequence vs => cases hitems
  | mapping fs => cases hfields
  | _ => simp [canonicalEntry, canonicalBy, sortItems]

end Value

namespace Document

open Value (OnlyField)

variable {d : Document} {apiVersion kind : String}

/-- What comes of an edit that would give `root`: nothing is touched, the edit of a field is done
and leaves a name, or that field is put back. -/
inductive Edited.Follows {α : Type} (d : Document) (root : Tree) : Path → Edited α → Prop
  | refused {path : Path} {e : BuildError} : Follows d root path ⟨.error e, d⟩
  | done {field : String} {p : Path} {a : α} : OnlyField field d.root root.1 →
      field ≠ "apiVersion" → field ≠ "kind" →
      (field = "metadata" → Named ((root.1.field? field).getD .null)) →
      Follows d root (.key field :: p) ⟨.ok a, d.withRoot root⟩
  | undone {field : String} {p : Path} {e : BuildError} : OnlyField field d.root root.1 →
      Follows d root (.key field :: p) ⟨.error e, d.withRoot (d.restored field root)⟩

open Edited (Follows)

theorem edit_follows {α : Type} {path : Path} {change : Tree → Except BuildError α × Tree}
    {v : Value} (hchange : (change d.tree).2.1 = v)
    (honly : ∀ field p, path = .key field :: p → OnlyField field d.root v) :
    ∃ root : Tree, root.1 = v ∧ Follows d root path (d.edit path change) := by
  refine ⟨(change d.tree).2, hchange, ?_⟩
  subst hchange
  unfold edit
  split
  · next field p =>
      replace honly := honly field p rfl
      split
      · exact .refused
      · next hfield =>
          obtain ⟨hversion, hkind⟩ := not_or.mp hfield
          generalize change d.tree = changed at honly ⊢
          obtain ⟨result, root⟩ := changed
          dsimp only
          split
          · next a houtcome =>
              refine .done honly hversion hkind fun hmetadata => ?_
              obtain ⟨a, -, houtcome⟩ := bind_eq_ok.mp houtcome
              rw [if_pos hmetadata] at houtcome
              obtain ⟨⟨⟩, hcheck, -⟩ := bind_eq_ok.mp houtcome
              exact checkMetadata_eq_ok_iff.mp (mapError_eq_ok.mp hcheck)
          · exact .undone honly
  · exact .refused

theorem field?_restored {field : String} {root : Tree} (h : OnlyField field d.root root.1)
    (k : String) : (d.restored field root).1.field? k = d.root.field? k := by
  obtain ⟨fs, hfs⟩ := Value.eq_mapping_of_isMapping h.right
  change (restore field (d.root.field? field) root.1).field? k = _
  have hother : k ≠ field → Ordered.find? k fs = d.root.field? k := by
    intro hk
    rw [← h.field?_eq k hk, hfs]
    rfl
  have hkeys : (Ordered.keys fs).Nodup := (Value.wellKeyed_mapping.mp (hfs ▸ root.2)).1
  rw [hfs]
  cases hbefore : d.root.field? field with
  | some v =>
      change Ordered.find? k (Ordered.put field v fs) = _
      rw [Ordered.find?_put]
      split
      · next hk => rw [← hk, hbefore]
      · next hk => exact hother (Ne.symm hk)
  | none =>
      change Ordered.find? k (Ordered.remove field fs) = _
      by_cases hk : field = k
      · rw [← hk, hbefore, Ordered.find?_remove_self hkeys]
      · rw [Ordered.find?_remove_of_ne hk, hother (Ne.symm hk)]

theorem isMapping_restored {field : String} {root : Tree} (h : OnlyField field d.root root.1) :
    (d.restored field root).1.isMapping := by
  obtain ⟨fs, hfs⟩ := Value.eq_mapping_of_isMapping h.right
  change (restore field (d.root.field? field) root.1).isMapping
  rw [hfs]
  rfl

/-- What does not concern the first two fields leaves them, and so does what leaves a name. -/
theorem Identified.of_onlyField {field : String} {v w : Value} (h : Identified apiVersion kind v)
    (hvw : OnlyField field v w) (hversion : field ≠ "apiVersion") (hkind : field ≠ "kind")
    (hmetadata : field = "metadata" → Named ((w.field? "metadata").getD .null)) :
    Identified apiVersion kind w where
  isMapping := hvw.right
  apiVersion_eq := (hvw.field?_eq _ hversion.symm).trans h.apiVersion_eq
  apiVersion_ne := h.apiVersion_ne
  kind_eq := (hvw.field?_eq _ hkind.symm).trans h.kind_eq
  kind_ne := h.kind_ne
  metadata_eq := by
    by_cases hfield : field = "metadata"
    · obtain hnamed := hmetadata hfield
      cases hm : w.field? "metadata" with
      | some m =>
          rw [hm] at hnamed
          exact ⟨m, rfl, hnamed⟩
      | none =>
          rw [hm] at hnamed
          obtain ⟨ms, name, hms, -⟩ := hnamed
          cases hms
    · rw [hvw.field?_eq _ (Ne.symm hfield)]
      exact h.metadata_eq

section Edits

variable {α : Type} {root : Tree} {path : Path} {r : Edited α}

/-- An edit of one field keeps the identity, done or undone. -/
theorem Edited.Follows.identified (hr : Follows d root path r)
    (h : Identified apiVersion kind d.root) : Identified apiVersion kind r.document.root := by
  cases hr with
  | refused => exact h
  | done honly hversion hkind hnamed =>
      refine h.of_onlyField honly hversion hkind fun hmetadata => ?_
      rw [← hmetadata]
      exact hnamed hmetadata
  | undone honly =>
      have hsame := field?_restored honly
      exact {
        isMapping := isMapping_restored honly
        apiVersion_eq := (hsame _).trans h.apiVersion_eq
        apiVersion_ne := h.apiVersion_ne
        kind_eq := (hsame _).trans h.kind_eq
        kind_ne := h.kind_ne
        metadata_eq := by rw [withRoot, hsame]; exact h.metadata_eq }

/-- Only a successful edit of the metadata renames. -/
theorem Edited.Follows.of_name_ne (hr : Follows d root path r)
    (hname : r.document.name ≠ d.name) :
    ∃ p a, path = .key "metadata" :: p ∧ r = ⟨.ok a, d.withRoot root⟩ ∧
      Named ((root.1.field? "metadata").getD .null) := by
  have hsame (e : Document) (h : e.root.field? "metadata" = d.root.field? "metadata") :
      e.name = d.name := by rw [name, name, metadata, metadata, h]
  cases hr with
  | refused => exact absurd rfl hname
  | @done field p a honly hversion hkind hnamed =>
      by_cases hfield : field = "metadata"
      · subst hfield
        exact ⟨p, a, rfl, rfl, hnamed rfl⟩
      · exact absurd (hsame _ (honly.field?_eq _ (Ne.symm hfield))) hname
  | undone honly => exact absurd (hsame _ (field?_restored honly _)) hname

end Edits

theorem set_cases (h : d.root.isMapping) (path : String) (x : Tree) :
    (d.set path x).document = d ∨ ∃ p, Path.parse path = .ok p ∧ ∃ root : Tree,
      root.1 = p.afterSet x d.root ∧ Follows d root p (d.set path x) := by
  rw [set, parsePath]
  cases hparse : Path.parse path with
  | error e => exact .inl rfl
  | ok p =>
      refine .inr ⟨p, rfl, edit_follows ?_ ?_⟩
      · rw [Path.afterSet]
        split
        · next hset => rw [show p.set x d.root = .ok _ from hset]
        · next hset => rw [show p.set x d.root = .error _ from hset]
      · rintro field q rfl
        exact Value.onlyField_set x q h

theorem remove_cases (h : d.root.isMapping) (path : String) :
    (d.remove path).document = d ∨ ∃ p, p ≠ [.key "metadata"] ∧ ∃ root : Tree,
      root.1 = (Path.remove p d.root).2 ∧ Follows d root p (d.remove path) := by
  rw [remove, parsePath]
  cases hparse : Path.parse path with
  | error e => exact .inl rfl
  | ok p =>
      dsimp only [Except.mapError]
      split
      · next hp => cases hp
      · exact .inl rfl
      · next hne hp =>
          cases hp
          refine .inr ⟨p, fun hp => hne (by rw [hp]), edit_follows rfl ?_⟩
          rintro field q rfl
          exact Value.onlyField_remove q h

theorem Identified.set (h : Identified apiVersion kind d.root) (path : String) (x : Tree) :
    Identified apiVersion kind (d.set path x).document.root := by
  rcases set_cases h.isMapping path x with hsame | ⟨_, -, _, -, hfollows⟩
  · rw [hsame]
    exact h
  · exact hfollows.identified h

theorem Identified.remove (h : Identified apiVersion kind d.root) (path : String) :
    Identified apiVersion kind (d.remove path).document.root := by
  rcases remove_cases h.isMapping path with hsame | ⟨_, -, _, -, hfollows⟩
  · rw [hsame]
    exact h
  · exact hfollows.identified h

theorem Identified.named (h : Identified apiVersion kind d.root) : Named d.metadata := by
  obtain ⟨m, hm, hnamed⟩ := h.metadata_eq
  rw [metadata, hm]
  exact hnamed

/-- Metadata that has a name has the name it had, if no other text can be there. -/
theorem name_eq_of_named {e : Document} (hnamed : Named e.metadata)
    (h : e.metadata.fieldText? "name" = d.metadata.fieldText? "name" ∨
      e.metadata.fieldText? "name" = none) : e.name = d.name := by
  rcases h with h | h
  · rw [name, name, h]
  · obtain ⟨ms, name, hms, hname, -⟩ := hnamed
    have htext : e.metadata.fieldText? "name" = some name := by
      rw [hms]
      exact congrArg (Option.bind · Value.text?) hname
    rw [htext] at h
    cases h

/-- The name is set with the metadata that it is in, or by itself. -/
theorem Identified.path_of_name_set_ne (h : Identified apiVersion kind d.root) {path : String}
    {x : Tree} (hname : (d.set path x).document.name ≠ d.name) :
    (Path.parse path = .ok [.key "metadata"] ∨
      Path.parse path = .ok [.key "metadata", .key "name"]) ∧ (d.set path x).outcome = .ok () := by
  rcases set_cases h.isMapping path x with hsame | ⟨p, hparse, root, hroot, hfollows⟩
  · exact absurd (by rw [hsame]) hname
  · obtain ⟨q, ⟨⟩, rfl, hr, hnamed⟩ := hfollows.of_name_ne hname
    rw [hr] at hname ⊢
    refine ⟨?_, rfl⟩
    by_contra hpath
    obtain ⟨hwhole, hitself⟩ := not_or.mp hpath
    obtain ⟨ms, -, hms, -⟩ := h.named
    refine hname (name_eq_of_named hnamed ?_)
    change ((root.1.field? "metadata").getD .null).fieldText? "name" = _ ∨
      ((root.1.field? "metadata").getD .null).fieldText? "name" = none
    rw [hroot, Path.field?_afterSet, Option.getD_some, ← metadata, hms]
    refine Path.fieldText?_afterSet (fun hq => hwhole ?_) (fun hq => hitself ?_) ms
    · rw [hparse, hq]
    · rw [hparse, hq]

theorem Identified.name_remove (h : Identified apiVersion kind d.root) (path : String) :
    (d.remove path).document.name = d.name := by
  rcases remove_cases h.isMapping path with hsame | ⟨p, hne, root, hroot, hfollows⟩
  · rw [hsame]
  · by_contra hname
    obtain ⟨q, a, rfl, hr, hnamed⟩ := hfollows.of_name_ne hname
    rw [hr] at hname
    refine hname (name_eq_of_named hnamed ?_)
    change ((root.1.field? "metadata").getD .null).fieldText? "name" = _ ∨
      ((root.1.field? "metadata").getD .null).fieldText? "name" = none
    rw [hroot]
    have hq : q ≠ [] := fun hq => hne (by rw [hq])
    rcases Path.getD_field?_remove "metadata" hq d.root with hsame | ⟨q', s, hmodify⟩
    · rw [hsame]
      exact .inl rfl
    · obtain ⟨m, hm, ms, -, rfl, -⟩ := h.metadata_eq
      rw [hmodify, metadata, hm]
      exact Path.fieldText?_modify_removeChild (d.wellKeyed.field? hm) s q' "name"

section Metadata

variable {f : Fields → Fields}

/-- Changes of the metadata that leave it a name keep the identity. -/
theorem Identified.modifyMetadata (h : Identified apiVersion kind d.root) (hf : KeepsKeys f)
    (hnamed : ∀ ms, (Value.mapping ms).WellKeyed → Named (.mapping ms) → Named (.mapping (f ms))) :
    Identified apiVersion kind (d.modifyMetadata f hf).root := by
  have honly : OnlyField "metadata" d.root (d.modifyMetadata f hf).root := by
    change OnlyField "metadata" d.root (onFields _ d.root)
    obtain ⟨fs, hroot⟩ := Value.eq_mapping_of_isMapping h.isMapping
    rw [hroot]
    refine Value.onlyField_mapping fun k hk => ?_
    rw [Ordered.find?_modify, if_neg hk.symm]
  refine h.of_onlyField honly (by decide) (by decide) fun _ => ?_
  change Named (d.modifyMetadata f hf).metadata
  rw [metadata_modifyMetadata]
  obtain ⟨m, hm, ms, name, rfl, hname⟩ := h.metadata_eq
  rw [metadata, hm]
  exact hnamed ms (d.wellKeyed.field? hm) ⟨ms, name, rfl, hname⟩

theorem Identified.setNs (h : Identified apiVersion kind d.root) (ns : Option String) :
    Identified apiVersion kind (d.setNs ns).root := by
  refine h.modifyMetadata (withNs_keepsKeys ns) ?_
  rintro ms hms ⟨_, name, ⟨⟩, hname, hne, -⟩
  cases ns with
  | some ns =>
      refine ⟨_, name, rfl, ?_, hne, fun x hx => ?_⟩
      · rw [withNs, Ordered.find?_put, if_neg (by decide)]
        exact hname
      · rw [withNs, Ordered.find?_put, if_pos rfl] at hx
        exact .inr ⟨ns, (Option.some.inj hx).symm⟩
  | none =>
      refine ⟨_, name, rfl, ?_, hne, fun x hx => ?_⟩
      · rw [withNs, Ordered.find?_remove_of_ne (by decide)]
        exact hname
      · rw [withNs, Ordered.find?_remove_self (Value.wellKeyed_mapping.mp hms).1] at hx
        cases hx

/-- A change of other fields of the metadata keeps name and namespace. -/
theorem Named.of_find?_eq {ms ns : Fields} (h : Named (.mapping ms))
    (hname : Ordered.find? "name" ns = Ordered.find? "name" ms)
    (hns : Ordered.find? "namespace" ns = Ordered.find? "namespace" ms) : Named (.mapping ns) := by
  obtain ⟨_, name, ⟨⟩, hfind, hne, hall⟩ := h
  exact ⟨ns, name, rfl, hname.trans hfind, hne, fun x hx => hall x (hns.symm.trans hx)⟩

theorem Identified.setNote (h : Identified apiVersion kind d.root) (n : Note) (k v : String) :
    Identified apiVersion kind (d.setNote n k v).root :=
  h.modifyMetadata (withNote_keepsKeys n k v) fun ms _ hms =>
    hms.of_find?_eq (find?_withNote n.field_ne.1 k v ms) (find?_withNote n.field_ne.2 k v ms)

theorem Identified.removeNote (h : Identified apiVersion kind d.root) (n : Note) (k : String) :
    Identified apiVersion kind (d.removeNote n k).2.root :=
  h.modifyMetadata (withoutNote_keepsKeys n k) fun ms _ hms =>
    hms.of_find?_eq (find?_withoutNote n.field_ne.1 k ms) (find?_withoutNote n.field_ne.2 k ms)

theorem Identified.withLastApplied (h : Identified apiVersion kind d.root) :
    Identified apiVersion kind d.withLastApplied.root :=
  (h.removeNote .annotations lastAppliedKey).setNote .annotations lastAppliedKey _

end Metadata

theorem Named.canonicalBy {m : Value} (h : Named m) (hm : m.WellKeyed) (order : List String) :
    Named (Value.canonicalBy order m) := by
  obtain ⟨ms, name, rfl, hname, hne, hns⟩ := h
  have hfield := Value.field?_canonicalBy order hm
  rw [Value.canonicalBy] at hfield ⊢
  refine ⟨_, name, rfl, ?_, hne, fun ns hfind => ?_⟩
  · refine (hfield "name").trans ?_
    rw [show (Value.mapping ms).field? "name" = some (.string name) from hname, Option.map_some,
      Value.canonicalEntry_eq_self _ _ rfl rfl]
  · obtain ⟨x, hx, rfl⟩ := Option.map_eq_some_iff.mp ((hfield "namespace").symm.trans hfind)
    rcases hns x hx with rfl | ⟨s, rfl⟩
    · exact .inl (Value.canonicalEntry_eq_self _ _ rfl rfl)
    · exact .inr ⟨s, Value.canonicalEntry_eq_self _ _ rfl rfl⟩

theorem Identified.canonical (h : Identified apiVersion kind d.root) :
    Identified apiVersion kind d.canonical.root := by
  have hfield := Value.field?_canonicalBy Value.topOrder d.wellKeyed
  have htext (k s : String) (hk : d.root.field? k = some (.string s)) :
      d.canonical.root.field? k = some (.string s) := by
    refine (hfield k).trans ?_
    rw [hk, Option.map_some, Value.canonicalEntry_eq_self _ _ rfl rfl]
  obtain ⟨m, hm, hnamed⟩ := h.metadata_eq
  exact {
    isMapping := by
      obtain ⟨fs, hfs⟩ := Value.eq_mapping_of_isMapping h.isMapping
      change (Value.canonicalBy Value.topOrder d.root).isMapping
      rw [hfs, Value.canonicalBy]
      rfl
    apiVersion_eq := htext _ _ h.apiVersion_eq
    apiVersion_ne := h.apiVersion_ne
    kind_eq := htext _ _ h.kind_eq
    kind_ne := h.kind_ne
    metadata_eq := by
      refine ⟨_, (hfield "metadata").trans ?_,
        hnamed.canonicalBy (d.wellKeyed.field? hm) (Value.orderBelow "metadata")⟩
      rw [hm, Option.map_some, Value.Settled.canonicalEntry_eq (by decide)] }

end Document

end Rollout
