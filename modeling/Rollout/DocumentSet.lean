import Rollout.Document.Basic
/-!
The documents gathered by a build, in order, each with its source. No two have the
same identity when they are added; documents changed in place are found under
their new identity after `rekey`.
-/

namespace Rollout

structure DocumentSet where
  entries : Ordered Key (Document × String) := []
  deriving DecidableEq

namespace DocumentSet

/-- A step that may fail, and the set after it in either case. -/
abbrev Step (α : Type) := DocumentSet → Except BuildError α × DocumentSet

variable (s : DocumentSet)

def find? (k : Key) : Option Document := (Ordered.find? k s.entries).map (·.1)

def has (k : Key) : Bool := Ordered.has k s.entries

/-- Who added a document. -/
def source? (k : Key) : Option String := (Ordered.find? k s.entries).map (·.2)

def keys : List Key := Ordered.keys s.entries

def documents : List Document := (Ordered.values s.entries).map (·.1)

def size : Nat := s.entries.length

/-- Adds a document at the end, unless its identity is taken. -/
def insert (d : Document) (source : String) : Except BuildError DocumentSet :=
  match s.source? d.key with
  | some first => .error (.duplicateDocument d.key [first, source])
  | none => .ok { entries := Ordered.put d.key (d, source) s.entries }

/-- The removed document and the set without it. -/
def remove (k : Key) : Option Document × DocumentSet :=
  (s.find? k, { entries := Ordered.remove k s.entries })

/-- Changes documents in place, without looking at their identities. -/
def map (f : Document → Document) : DocumentSet :=
  { entries := Ordered.mapValues (fun e => (f e.1, e.2)) s.entries }

/-- Adds documents until one cannot be added. -/
def insertAll : List (Document × String) → Step Unit
  | [], s => (.ok (), s)
  | (d, source) :: r, s =>
    match s.insert d source with
    | .ok s => insertAll r s
    | .error e => (.error e, s)

/-- Files every document under its present identity. Where one repeats, the documents
before it are left. -/
def rekey : Step Unit := fun s => insertAll (Ordered.values s.entries) {}

end DocumentSet

end Rollout
