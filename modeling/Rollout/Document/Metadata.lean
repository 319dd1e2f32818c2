import Rollout.Document.Basic
/-!
Labels and annotations: two mappings of strings under `metadata`. Entries that
are not strings are not seen, but can be removed.
-/

namespace Rollout.Document

/-- The two string mappings of `metadata`. -/
inductive Note where
  | labels
  | annotations
  deriving DecidableEq

def Note.field : Note → String
  | labels => "labels"
  | annotations => "annotations"

variable (d : Document)

def noteFields (n : Note) : Fields := ((d.metadata.field? n.field).bind Value.fields?).getD []

/-- The string entries, by key. -/
def notes (n : Note) : List (String × String) :=
  let entries := (d.noteFields n).filterMap fun (k, v) => v.text?.map fun s => (k, s)
  entries.mergeSort fun a b => Text.le a.1 b.1

def note? (n : Note) (k : String) : Option String :=
  (Ordered.find? k (d.noteFields n)).bind Value.text?

def withNote (n : Note) (k v : String) (ms : Fields) : Fields :=
  let entries := ((Ordered.find? n.field ms).bind Value.fields?).getD []
  Ordered.put n.field (.mapping (Ordered.put k (.string v) entries)) ms

omit d in
theorem withNote_keepsKeys (n : Note) (k v : String) : KeepsKeys (withNote n k v) := by
  intro ms h
  refine h.put n.field (Value.WellKeyed.put ?_ k trivial)
  cases hf : (Ordered.find? n.field ms).bind Value.fields? with
  | none => simp [Ordered.keys]
  | some entries =>
      obtain ⟨x, hx, hfs⟩ := Option.bind_eq_some_iff.mp hf
      exact ((Value.wellKeyed_mapping.mp h).2 _ (Ordered.mem_of_find?_eq_some hx)).fields? hfs

/-- Sets an entry, in place of whatever is not a mapping. -/
def setNote (n : Note) (k v : String) : Document :=
  d.modifyMetadata (withNote n k v) (withNote_keepsKeys n k v)

/-- The metadata without an entry, and without the mapping if it was the last. -/
def withoutNote (n : Note) (k : String) (ms : Fields) : Fields :=
  match Ordered.find? n.field ms with
  | some (.mapping entries) =>
    if Ordered.has k entries then
      match Ordered.remove k entries with
      | [] => Ordered.remove n.field ms
      | rest => Ordered.put n.field (.mapping rest) ms
    else ms
  | _ => ms

omit d in
theorem withoutNote_keepsKeys (n : Note) (k : String) : KeepsKeys (withoutNote n k) := by
  intro ms h
  unfold withoutNote
  split
  · next entries he =>
      have hentries := (Value.wellKeyed_mapping.mp h).2 _ (Ordered.mem_of_find?_eq_some he)
      split
      · split
        · exact h.remove n.field
        · exact h.put n.field (hentries.remove k)
      · exact h
  · exact h

/-- What a removed entry is shown as: a string as it is, all else as JSON. -/
def shown : Value → String
  | .string s => s
  | v => v.toJson

/-- The removed entry and the document without it. -/
def removeNote (n : Note) (k : String) : Option String × Document :=
  ((Ordered.find? k (d.noteFields n)).map shown,
    d.modifyMetadata (withoutNote n k) (withoutNote_keepsKeys n k))

end Rollout.Document
