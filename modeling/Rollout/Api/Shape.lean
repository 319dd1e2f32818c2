import Rollout.Api.Instant
import Rollout.Value
/-!
Shapes of typed data. Data that has a shape is read into one form: fields it does not know
are left out, and so are nulls, and the others are in order.
-/

namespace Rollout

inductive Shape where
  | text
  /-- A whole number of 64 bits. -/
  | whole
  | flag
  | instant
  | any
  | list (item : Shape)
  /-- A mapping to texts, in order of its keys. -/
  | texts
  /-- A text that is required and missing is empty. -/
  | record (required : List String) (fields : List (String × Shape))

namespace Shape

/-- A mapping in which each value is a text. -/
def readTexts? (fs : Fields) : Option Value := do
  let entries ← fs.mapM fun (k, v) => do return (k, Value.string (← v.text?))
  return .mapping (Ordered.ofList (entries.mergeSort fun a b => Text.le a.1 b.1))

mutual

def read? : Shape → Value → Option Value
  | .text, .string s => some (.string s)
  | .whole, .number (.whole n) =>
    if -(Nat.pow 2 63 : Int) ≤ n ∧ n < Nat.pow 2 63 then some (.whole n) else none
  | .flag, .bool b => some (.bool b)
  | .instant, .string s => (Instant.parse? s).map fun t => .string t.text
  | .any, v => some v
  | .list item, .sequence vs => (vs.mapM item.read?).map .sequence
  | .texts, .mapping fs => readTexts? fs
  | .record required fields, .mapping fs =>
    (readFields? required fs fields).map fun read => .mapping (Ordered.ofList read)
  | _, _ => none

def readFields? (required : List String) (fs : Fields) : List (String × Shape) → Option Fields
  | [] => some []
  | (k, shape) :: rest => do
    let more ← readFields? required fs rest
    match (Ordered.find? k fs).filter (!·.isNull) with
    | some v => return (k, ← shape.read? v) :: more
    | none => return if required.contains k then (k, .string "") :: more else more

end

theorem mem_of_mapM_eq_some {α β : Type} {f : α → Option β} {as : List α} {bs : List β}
    (h : as.mapM f = some bs) : ∀ b ∈ bs, ∃ a ∈ as, f a = some b := by
  induction as generalizing bs with
  | nil =>
      cases h
      simp
  | cons a as ih =>
      rw [List.mapM_cons] at h
      obtain ⟨b, hb, h⟩ := Option.bind_eq_some_iff.mp h
      obtain ⟨bs, hbs, h⟩ := Option.bind_eq_some_iff.mp h
      cases h
      rw [List.forall_mem_cons]
      refine ⟨⟨a, List.mem_cons_self, hb⟩, fun c hc => ?_⟩
      obtain ⟨d, hd, hdc⟩ := ih hbs c hc
      exact ⟨d, List.mem_cons_of_mem a hd, hdc⟩

theorem wellKeyed_readTexts? {fs : Fields} {v : Value} (h : readTexts? fs = some v) :
    v.WellKeyed := by
  obtain ⟨entries, hentries, h⟩ := Option.bind_eq_some_iff.mp h
  cases h
  refine .ofList fun e he => ?_
  obtain ⟨⟨k, x⟩, -, hx⟩ :=
    mem_of_mapM_eq_some hentries e ((List.mergeSort_perm ..).mem_iff.mp he)
  obtain ⟨s, -, hs⟩ := Option.bind_eq_some_iff.mp hx
  cases hs
  trivial

mutual

theorem wellKeyed_read? : (shape : Shape) → {v w : Value} → v.WellKeyed → shape.read? v = some w →
    w.WellKeyed
  | .list item, v, w, hv, h => by
      cases v with
      | sequence vs =>
          obtain ⟨ws, hws, rfl⟩ := Option.map_eq_some_iff.mp h
          refine Value.wellKeyed_sequence.mpr fun x hx => ?_
          obtain ⟨y, hy, hyx⟩ := mem_of_mapM_eq_some hws x hx
          exact wellKeyed_read? item (Value.wellKeyed_sequence.mp hv y hy) hyx
      | _ => cases h
  | .record required fields, v, w, hv, h => by
      cases v with
      | mapping fs =>
          rw [read?] at h
          obtain ⟨read, hread, rfl⟩ := Option.map_eq_some_iff.mp h
          exact .ofList (wellKeyed_readFields? required fields hv hread)
      | _ => cases h
  | .texts, v, w, _, h => by
      cases v with
      | mapping fs => exact wellKeyed_readTexts? (by simpa [read?] using h)
      | _ => cases h
  | .any, v, w, hv, h => by
      cases h
      exact hv
  | .text, v, w, _, h | .flag, v, w, _, h => by
      cases v <;> cases h
      trivial
  | .whole, v, w, _, h => by
      rw [read?.eq_def] at h
      split at h
      all_goals first | contradiction | skip
      split at h <;> cases h
      trivial
  | .instant, v, w, _, h => by
      cases v with
      | string s =>
          rw [read?] at h
          obtain ⟨t, -, rfl⟩ := Option.map_eq_some_iff.mp h
          trivial
      | _ => cases h

theorem wellKeyed_readFields? (required : List String) : (fields : List (String × Shape)) →
    {fs read : Fields} → (Value.mapping fs).WellKeyed → readFields? required fs fields = some read →
    ∀ e ∈ read, e.2.WellKeyed
  | [], fs, read, _, h => by
      cases h
      simp
  | (k, shape) :: rest, fs, read, hfs, h => by
      obtain ⟨more, hmore, h⟩ := Option.bind_eq_some_iff.mp h
      have ih := wellKeyed_readFields? required rest hfs hmore
      split at h
      · next v hv =>
          obtain ⟨w, hw, h⟩ := Option.bind_eq_some_iff.mp h
          cases h
          have hfound := Ordered.mem_of_find?_eq_some (Option.filter_eq_some_iff.mp hv).1
          exact List.forall_mem_cons.mpr
            ⟨wellKeyed_read? shape ((Value.wellKeyed_mapping.mp hfs).2 _ hfound) hw, ih⟩
      · split at h
        · cases h
          exact List.forall_mem_cons.mpr ⟨trivial, ih⟩
        · cases h
          exact ih

end

def fieldsManager : Shape :=
  .record [] [("apiVersion", .text), ("fieldsType", .text), ("fieldsV1", .any), ("manager", .text),
    ("operation", .text), ("subresource", .text), ("time", .instant)]

def owner : Shape :=
  .record ["apiVersion", "kind", "name", "uid"]
    [("apiVersion", .text), ("blockOwnerDeletion", .flag), ("controller", .flag), ("kind", .text),
      ("name", .text), ("uid", .text)]

def metadata : Shape :=
  .record [] [("annotations", .texts), ("creationTimestamp", .instant),
    ("deletionGracePeriodSeconds", .whole), ("deletionTimestamp", .instant),
    ("finalizers", .list .text), ("generateName", .text), ("generation", .whole),
    ("labels", .texts), ("managedFields", .list fieldsManager), ("name", .text),
    ("namespace", .text), ("ownerReferences", .list owner), ("resourceVersion", .text),
    ("selfLink", .text), ("uid", .text)]

end Shape

end Rollout
