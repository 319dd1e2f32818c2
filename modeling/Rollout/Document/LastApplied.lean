import Rollout.Document.Metadata
import Rollout.Json.Reader
/-!
The record of what was last applied: the JSON text of a document without its own
record, kept in an annotation of the object.
-/

namespace Rollout

def lastAppliedKey : String := "kforge.io/last-applied"

namespace Document

/-- The document with the record of itself. -/
def withLastApplied (d : Document) : Document :=
  let bare := (d.removeNote .annotations lastAppliedKey).2
  bare.setNote .annotations lastAppliedKey bare.root.toJson

/-- The recorded tree; a record that cannot be read counts as none. -/
def lastApplied? (d : Document) : Option Value :=
  (d.note? .annotations lastAppliedKey).bind Value.ofJson?

end Document

end Rollout
