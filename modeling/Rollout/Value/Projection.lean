import Rollout.Value
/-!
Comparing a tree with another that has more fields, and merging one into the other.
Mappings are followed key by key; sequences are followed item by item only where
they have the same length.
-/

namespace Rollout.Value

mutual

/-- A tree restricted to the fields of another, in the order of the other. -/
def project (live : Value) : Value → Value
  | .mapping wanted => match live with
    | .mapping fs => .mapping (projectFields fs wanted)
    | v => v
  | .sequence wanted => match live with
    | .sequence vs =>
      if vs.length = wanted.length then .sequence (projectItems vs wanted) else .sequence vs
    | v => v
  | _ => live

def projectFields (live : Fields) : List (String × Value) → List (String × Value)
  | [] => []
  | (k, wanted) :: rest => match Ordered.find? k live with
    | some v => (k, project v wanted) :: projectFields live rest
    | none => projectFields live rest

def projectItems : List Value → List Value → List Value
  | v :: vs, wanted :: rest => project v wanted :: projectItems vs rest
  | _, _ => []

end

mutual

/-- A tree with the fields that only another has; where both have one, its own stays. -/
def withFieldsOf (v : Value) : Value → Value
  | .mapping more => match v with
    | .mapping fs => .mapping (extendFields fs more)
    | v => v
  | _ => v

def extendFields (fs : Fields) : List (String × Value) → Fields
  | [] => fs
  | (k, old) :: more =>
    let value := match Ordered.find? k fs with
      | some v => withFieldsOf v old
      | none => old
    extendFields (Ordered.put k value fs) more

end

mutual

/-- A tree with a patch over it; what is no mapping is replaced. -/
def merge (v : Value) : Value → Value
  | .mapping patch => match v with
    | .mapping fs => .mapping (mergeFields fs patch)
    | _ => .mapping patch
  | patch => patch

def mergeFields (fs : Fields) : List (String × Value) → Fields
  | [] => fs
  | (k, p) :: patch =>
    let value := match Ordered.find? k fs with
      | some v => merge v p
      | none => p
    mergeFields (Ordered.put k value fs) patch

end

mutual

theorem wellKeyed_merge : (p : Value) → {v : Value} → v.WellKeyed → p.WellKeyed →
    (v.merge p).WellKeyed
  | .mapping patch, v, hv, hp => by
      cases v with
      | mapping fs => exact wellKeyed_mergeFields patch hv (wellKeyed_mapping.mp hp).2
      | _ => exact hp
  | .sequence _, _, _, hp => by simpa only [merge] using hp
  | .null, _, _, _ | .bool _, _, _, _ | .number _, _, _, _ | .string _, _, _, _ => by simp [merge]

theorem wellKeyed_mergeFields : (patch : Fields) → {fs : Fields} → (mapping fs).WellKeyed →
    (∀ e ∈ patch, e.2.WellKeyed) → (mapping (mergeFields fs patch)).WellKeyed
  | [], _, hfs, _ => hfs
  | (k, p) :: patch, fs, hfs, hp => by
      have hpatch := List.forall_mem_cons.mp hp
      refine wellKeyed_mergeFields patch (hfs.put k ?_) hpatch.2
      split
      · next v hv =>
          exact wellKeyed_merge p ((wellKeyed_mapping.mp hfs).2 _
            (Ordered.mem_of_find?_eq_some hv)) hpatch.1
      · exact hpatch.1

end

mutual

theorem wellKeyed_withFieldsOf : (old : Value) → {v : Value} → v.WellKeyed → old.WellKeyed →
    (v.withFieldsOf old).WellKeyed
  | .mapping more, v, hv, ho => by
      cases v with
      | mapping fs => exact wellKeyed_extendFields more hv (wellKeyed_mapping.mp ho).2
      | _ => exact hv
  | .null, _, hv, _ | .bool _, _, hv, _ | .number _, _, hv, _ | .string _, _, hv, _
  | .sequence _, _, hv, _ => by simpa [withFieldsOf] using hv

theorem wellKeyed_extendFields : (more : Fields) → {fs : Fields} → (mapping fs).WellKeyed →
    (∀ e ∈ more, e.2.WellKeyed) → (mapping (extendFields fs more)).WellKeyed
  | [], _, hfs, _ => hfs
  | (k, old) :: more, fs, hfs, ho => by
      have hmore := List.forall_mem_cons.mp ho
      refine wellKeyed_extendFields more (hfs.put k ?_) hmore.2
      split
      · next v hv =>
          exact wellKeyed_withFieldsOf old ((wellKeyed_mapping.mp hfs).2 _
            (Ordered.mem_of_find?_eq_some hv)) hmore.1
      · exact hmore.1

end

end Rollout.Value
