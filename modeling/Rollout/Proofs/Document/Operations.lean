import Rollout.Proofs.Document.Editing
/-!
Runs of operations on a document. Whatever is done to it, in whatever order and with whatever
success, it stays a document of its `apiVersion` and `kind`; only setting the name renames it.
-/

namespace Rollout.Document

/-- What can be done to a document. -/
inductive Operation where
  | set (path : String) (x : Tree)
  | remove (path : String)
  | setNs (ns : Option String)
  | setNote (n : Note) (k v : String)
  | removeNote (n : Note) (k : String)
  | canonicalize
  | stamp

/-- The document after an operation, also where that fails. -/
def perform (d : Document) : Operation → Document
  | .set path x => (d.set path x).document
  | .remove path => (d.remove path).document
  | .setNs ns => d.setNs ns
  | .setNote n k v => d.setNote n k v
  | .removeNote n k => (d.removeNote n k).2
  | .canonicalize => d.canonical
  | .stamp => d.withLastApplied

def performAll (d : Document) (ops : List Operation) : Document := ops.foldl perform d

/-- The operation sets the metadata, or the name in it, and succeeds. -/
def Renames (d : Document) (op : Operation) : Prop :=
  ∃ path x, op = .set path x ∧ (Path.parse path = .ok [.key "metadata"] ∨
    Path.parse path = .ok [.key "metadata", .key "name"]) ∧ (d.set path x).outcome = .ok ()

/-- A document that was read from a tree, or made with an identity of its own. -/
inductive Made : Document → Prop
  | ofTree {t : Tree} {d : Document} : ofTree t = .ok d → Made d
  | new {apiVersion kind name : String} : apiVersion ≠ "" → kind ≠ "" → name ≠ "" →
      Made (new apiVersion kind name)

variable {d : Document} {apiVersion kind : String}

theorem Made.identified (h : d.Made) : Identified d.apiVersion d.kind d.root := by
  cases h with
  | ofTree h =>
      obtain ⟨⟨apiVersion, kind, hroot⟩, rfl⟩ := ofTree_eq_ok_iff.mp h
      rw [Document.apiVersion, Document.kind, Value.fieldText?, Value.fieldText?,
        hroot.apiVersion_eq, hroot.kind_eq]
      exact hroot
  | new hversion hkind hname =>
      refine ⟨rfl, rfl, hversion, rfl, hkind, _, rfl, _, _, rfl, rfl, hname, ?_⟩
      intro ns hns
      cases hns

theorem Identified.perform (h : Identified apiVersion kind d.root) (op : Operation) :
    Identified apiVersion kind (d.perform op).root := by
  cases op with
  | set path x => exact h.set path x
  | remove path => exact h.remove path
  | setNs ns => exact h.setNs ns
  | setNote n k v => exact h.setNote n k v
  | removeNote n k => exact h.removeNote n k
  | canonicalize => exact h.canonical
  | stamp => exact h.withLastApplied

theorem Identified.performAll (h : Identified apiVersion kind d.root) (ops : List Operation) :
    Identified apiVersion kind (d.performAll ops).root := by
  induction ops generalizing d with
  | nil => exact h
  | cons op ops ih => exact ih (h.perform op)

theorem Identified.renames_of_name_ne (h : Identified apiVersion kind d.root) {op : Operation}
    (hname : (d.perform op).name ≠ d.name) : d.Renames op := by
  cases op with
  | set path x => exact ⟨path, x, rfl, h.path_of_name_set_ne hname⟩
  | remove path => exact absurd (h.name_remove path) hname
  | setNs ns => exact absurd (d.name_setNs ns) hname
  | setNote n k v => exact absurd (congrArg Key.name (d.key_setNote n k v)) hname
  | removeNote n k => exact absurd (congrArg Key.name (d.key_removeNote n k)) hname
  | canonicalize => exact absurd d.name_canonical hname
  | stamp => exact absurd (congrArg Key.name d.key_withLastApplied) hname

/-- Whatever is done to a document, its `apiVersion` and `kind` stay, its metadata has a name, and
its tree is accepted again. A step that changes the name sets the metadata or the name in it. -/
theorem identity_of_performAll (h : d.Made) (ops : List Operation) :
    Identified d.apiVersion d.kind (d.performAll ops).root ∧
    ofTree (d.performAll ops).tree = .ok (d.performAll ops).unmarked ∧
    ∀ before op after, ops = before ++ op :: after →
      ((d.performAll before).perform op).name ≠ (d.performAll before).name →
      (d.performAll before).Renames op := by
  have hops := h.identified.performAll ops
  refine ⟨hops, ofTree_eq_ok_iff.mpr ⟨⟨_, _, hops⟩, rfl⟩, ?_⟩
  rintro before op - -
  exact (h.identified.performAll before).renames_of_name_ne

/-- Setting the kind is refused, metadata without a name is taken back, and only the last step
renames. -/
theorem identity_of_renamed :
    let d := new "v1" "ConfigMap" "draft"
    let edits := [.set "kind" ⟨.string "Secret", trivial⟩, .set "metadata" ⟨.null, trivial⟩,
      .remove "metadata.name"]
    let rename := .set "[\"metadata\"].name" ⟨.string "settings", trivial⟩
    let renamed := d.performAll (edits ++ [rename])
    d.Made ∧ renamed.name = "settings" ∧ Identified "v1" "ConfigMap" renamed.root ∧
      ofTree renamed.tree = .ok renamed.unmarked ∧ (d.performAll edits).Renames rename := by
  intro d edits rename renamed
  have hmade : d.Made := .new (by decide) (by decide) (by decide)
  obtain ⟨hidentified, haccepted, hrenames⟩ := identity_of_performAll hmade (edits ++ [rename])
  exact ⟨hmade, by decide, hidentified, haccepted, hrenames edits rename [] rfl (by decide)⟩

end Rollout.Document
