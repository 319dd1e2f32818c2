import Rollout.Proofs.Path.Editing
import Rollout.Proofs.Path.Lookup
import Rollout.Proofs.Plan.Drift
import Rollout.Proofs.Value.Sameness
/-!
Fields that a document had when it was last applied and has no more. One that was dropped
from an item of a sequence is not compared, and an object is not updated for it.
-/

namespace Rollout

namespace Path

open Value (isSetField isRequirement)

/-- The path leads, through sequences of one length, to a mapping of the wanted tree without
the next key. -/
def Unseen : Path → (wanted live : Value) → Prop
  | .key k :: p, .mapping ws, live => match Ordered.find? k ws with
    | none => True
    | some w => ∃ v, live.field? k = some v ∧ Unseen p w v
  | .index i :: p, .sequence ws, .sequence vs =>
    ws.length = vs.length ∧ ∃ w v, ws[i]? = some w ∧ vs[i]? = some v ∧ Unseen p w v
  | _, _, _ => False

/-- The path is unseen, and enters an item of a sequence before. -/
def Hidden : Path → (desired live : Value) → Prop
  | .key k :: p, .mapping ds, live =>
    ∃ d v, Ordered.find? k ds = some d ∧ live.field? k = some v ∧ Hidden p d v
  | .index i :: p, .sequence ds, .sequence vs =>
    ds.length = vs.length ∧ ∃ d v, ds[i]? = some d ∧ vs[i]? = some v ∧ Unseen p d v
  | _, _, _ => False

/-- The path enters an item of a sequence. -/
def Enters : Path → Value → Prop
  | .index i :: _, .sequence vs => i < vs.length
  | _, _ => False

/-- The path enters an item of a sequence whose order means nothing. -/
def ThroughSet : Path → Value → Prop
  | .key k :: p, .mapping fs => ∃ v, Ordered.find? k fs = some v ∧
    (isSetField (isRequirement fs) k = true ∧ Enters p v ∨ ThroughSet p v)
  | .index i :: p, .sequence vs => ∃ v, vs[i]? = some v ∧ ThroughSet p v
  | _, _ => False

end Path

namespace Value

theorem withFieldsOf_null (v : Value) : v.withFieldsOf .null = v := by
  rw [withFieldsOf]
  rintro _ ⟨⟩

theorem withFieldsOf_mapping (fs : Fields) (previous : Value) :
    (Value.mapping fs).withFieldsOf previous =
      .mapping (extendFields fs (Path.fieldsFor previous)) := by
  cases previous <;> rfl

theorem withFieldsOf_eq_self {v previous : Value} (h : v.isMapping = false) :
    v.withFieldsOf previous = v := by
  cases previous with
  | mapping more =>
      cases v with
      | mapping fs => cases h
      | _ => rfl
  | _ => rfl

/-- A field of a union is the union with whatever was there before. -/
theorem find?_extendFields_of_some {fs more : Fields} (hmore : (Ordered.keys more).Nodup)
    {k : String} {v : Value} (hv : Ordered.find? k fs = some v) :
    Ordered.find? k (extendFields fs more) =
      some (v.withFieldsOf ((Ordered.find? k more).getD .null)) := by
  rw [find?_extendFields k hmore, hv]
  cases Ordered.find? k more with
  | none => exact congrArg some (withFieldsOf_null v).symm
  | some old => rfl

theorem project_eq_self {live wanted : Value} (h : live.isMapping ≠ wanted.isMapping) :
    live.project wanted = live := by
  cases live <;> cases wanted <;> first | rfl | exact absurd rfl h

/-- The number of items, if there is a sequence. -/
def itemCount? (v : Value) : Option Nat := v.items?.map List.length

theorem itemCount?_canonicalBy (order : List String) (v : Value) :
    (canonicalBy order v).itemCount? = v.itemCount? := by
  cases v <;> simp [canonicalBy, itemCount?, items?, canonicalItems_eq_map]

theorem itemCount?_eq_of_same_canonicalBy {order order' : List String} {v w : Value}
    (h : (canonicalBy order v).same (canonicalBy order' w)) : v.itemCount? = w.itemCount? := by
  rw [← itemCount?_canonicalBy order v, ← itemCount?_canonicalBy order' w]
  generalize canonicalBy order v = x, canonicalBy order' w = y at h
  cases x with
  | sequence xs =>
      cases y with
      | sequence ys => exact congrArg some (length_eq_of_sameItems h)
      | _ => cases h
  | _ =>
      cases y with
      | sequence ys => cases h
      | _ => rfl

theorem itemCount?_project (live wanted : Value) :
    (live.project wanted).itemCount? = live.itemCount? := by
  cases live with
  | sequence vs =>
      cases wanted with
      | sequence ws =>
          rw [project]
          split
          · next h => simp [itemCount?, items?, projectItems_length h]
          · rfl
      | _ => rfl
  | _ => cases wanted <;> rfl

/-- Entries of mappings that are the same are so themselves, or are sequences of one length. -/
theorem same_of_same_canonicalEntry {requirement : Bool} {k : String} {v w : Value}
    (h : (canonicalEntry requirement k v).same (canonicalEntry requirement k w)) :
    (canonicalBy (orderBelow k) v).same (canonicalBy (orderBelow k) w) ∨
      isSetField requirement k = true ∧ ∃ n, v.itemCount? = some n ∧ w.itemCount? = some n := by
  unfold canonicalEntry at h
  split at h
  · next hk =>
      rcases same_of_same_sortItems h with h | ⟨vs, ws, hv, hw, hlen⟩
      · exact .inl h
      · refine .inr ⟨hk, vs.length, ?_, ?_⟩
        · rw [← itemCount?_canonicalBy (orderBelow k) v, hv]
          rfl
        · rw [← itemCount?_canonicalBy (orderBelow k) w, hw, hlen]
          rfl
  · exact .inl h

theorem getElem?_projectItems {vs ws : List Value} {i : Nat} {v w : Value} (hv : vs[i]? = some v)
    (hw : ws[i]? = some w) : (projectItems vs ws)[i]? = some (v.project w) := by
  induction vs generalizing ws i with
  | nil => cases hv
  | cons x vs ih =>
      cases ws with
      | nil => cases hw
      | cons y ws =>
          cases i with
          | zero =>
              cases hv
              cases hw
              rfl
          | succ i => exact ih hv hw

end Value

namespace Path

open Value

/-- A path that only the longer of two sequences of one length could have enters both. -/
theorem enters_of_itemCount? {p : Path} {v w : Value} {n : Nat} (hv : (get? p v).isSome)
    (hw : get? p w = none) (hn : v.itemCount? = some n) (hm : w.itemCount? = some n) :
    Enters p w := by
  cases w with
  | sequence ws =>
      cases p with
      | nil => cases hw
      | cons s p =>
          cases s with
          | key k =>
              obtain ⟨fs, _, rfl, -⟩ := exists_of_get?_key hv
              cases hn
          | index i =>
              obtain ⟨vs, x, rfl, hx, -⟩ := exists_of_get?_index hv
              have hi : i < vs.length := (List.getElem?_eq_some_iff.mp hx).1
              have hlen : vs.length = ws.length :=
                Option.some.inj (hn.trans hm.symm)
              exact lt_of_lt_of_eq hi hlen
  | _ => cases hm

section Steps

variable {k : String} {i : Nat} {p : Path} {wanted live : Value}

theorem not_unseen_nil : ¬ Unseen [] wanted live := by
  intro h
  cases wanted <;> cases h

/-- A path that is unseen ends at its next key, or goes on unseen below it. -/
theorem unseen_key_cases (h : Unseen (.key k :: p) wanted live) :
    ∃ ws, wanted = .mapping ws ∧ (Ordered.find? k ws = none ∨
      ∃ w v, Ordered.find? k ws = some w ∧ live.field? k = some v ∧ Unseen p w v) := by
  cases wanted with
  | mapping ws =>
      rw [Unseen] at h
      refine ⟨ws, rfl, ?_⟩
      split at h
      · next hk => exact .inl hk
      · next w hk =>
          obtain ⟨v, hv, hun⟩ := h
          exact .inr ⟨w, v, hk, hv, hun⟩
  | _ => cases h

theorem unseen_index_cases (h : Unseen (.index i :: p) wanted live) :
    ∃ ws vs w v, wanted = .sequence ws ∧ live = .sequence vs ∧ ws.length = vs.length ∧
      ws[i]? = some w ∧ vs[i]? = some v ∧ Unseen p w v := by
  cases wanted with
  | sequence ws =>
      cases live with
      | sequence vs =>
          obtain ⟨hlen, w, v, hw, hv, hun⟩ := h
          exact ⟨ws, vs, w, v, rfl, rfl, hlen, hw, hv, hun⟩
      | _ => cases h
  | _ => cases h

theorem not_hidden_singleton (s : Segment) : ¬ Hidden [s] wanted live := by
  intro h
  cases s with
  | key k =>
      cases wanted with
      | mapping ds =>
          obtain ⟨d, v, -, -, hv⟩ := h
          cases hv
      | _ => cases h
  | index i =>
      cases wanted with
      | sequence ds =>
          cases live with
          | sequence vs =>
              obtain ⟨-, d, v, -, -, hun⟩ := h
              exact not_unseen_nil hun
          | _ => cases h
      | _ => cases h

end Steps

theorem get?_eq_none_of_unseen {path : Path} {wanted live : Value} (h : Unseen path wanted live) :
    path.get? wanted = none := by
  induction path generalizing wanted live with
  | nil => exact absurd h not_unseen_nil
  | cons s p ih =>
      cases s with
      | key k =>
          obtain ⟨ws, rfl, hk | ⟨w, v, hk, -, hun⟩⟩ := unseen_key_cases h
          · rw [get?_key_mapping, hk, Option.bind_none]
          · rw [get?_key_of_find? hk, ih hun]
      | index i =>
          obtain ⟨ws, vs, w, v, rfl, -, -, hw, -, hun⟩ := unseen_index_cases h
          rw [get?_index_of_getElem? hw, ih hun]

/-- With what was there before, the dropped field is unseen only if an item hides it. -/
theorem unseen_withFieldsOf_iff {path : Path} {desired previous live : Value}
    (hprevious : previous.WellKeyed) (hp : (path.get? previous).isSome) :
    Unseen path (desired.withFieldsOf previous) live ↔ Hidden path desired live := by
  induction path generalizing desired previous live with
  | nil => cases desired <;> simp [Hidden, Unseen.eq_def]
  | cons s p ih =>
      cases s with
      | key k =>
          obtain ⟨ps, old, rfl, hold, hp⟩ := exists_of_get?_key hp
          rw [wellKeyed_mapping] at hprevious
          cases desired with
          | mapping ds =>
              rw [withFieldsOf, Unseen, Hidden, find?_extendFields k hprevious.1, hold]
              cases hd : Ordered.find? k ds with
              | none =>
                  simp only [extended, reduceCtorEq, false_and, exists_false, iff_false]
                  rintro ⟨v, -, hv⟩
                  rw [get?_eq_none_of_unseen hv] at hp
                  cases hp
              | some d =>
                  have hwell := hprevious.2 _ (Ordered.mem_of_find?_eq_some hold)
                  simp [extended, ih hwell hp]
          | _ => rfl
      | index i =>
          obtain ⟨ps, old, rfl, -⟩ := exists_of_get?_index hp
          cases desired <;> cases live <;> rfl

section NotSame

variable {k : String} {i : Nat} {p : Path} {order order' : List String}

theorem isMapping_of_same {desired previous live : Value} (hlive : live.isMapping)
    (hsame : (canonicalBy order (live.project (desired.withFieldsOf previous))).same
      (canonicalBy order' desired)) : desired.isMapping := by
  by_contra hd
  rw [Bool.not_eq_true] at hd
  rw [withFieldsOf_eq_self hd, project_eq_self (by rw [hlive, hd]; nofun)] at hsame
  rw [isMapping_eq_of_same_canonicalBy hsame, hd] at hlive
  cases hlive

/-- A key that the live mapping has and the desired one lacks is unseen, if the two are the same. -/
theorem find?_eq_none_of_same {ds ls fs : Fields} {v : Value} (hfs : (Ordered.keys fs).Nodup)
    (hds : (Ordered.keys ds).Nodup) (hv : Ordered.find? k ls = some v)
    (hsame : (canonicalBy order (.mapping (projectFields ls fs))).same
      (canonicalBy order' (.mapping ds))) (hk : Ordered.find? k ds = none) :
    Ordered.find? k fs = none := by
  cases hf : Ordered.find? k fs with
  | none => rfl
  | some w =>
      have hproj : Ordered.find? k (projectFields ls fs) = some (v.project w) := by
        rw [find?_projectFields, hf, hv]
        rfl
      obtain ⟨x, hx, -⟩ := exists_same_of_same_mapping
        (hfs.sublist (keys_projectFields_sublist ls fs)) hds hsame hproj
      rw [hk] at hx
      cases hx

/-- Two mappings that are the same are so below a key that leads to no item of a set. -/
theorem same_below_key {ds ls fs : Fields} {d v w : Value} (hfs : (Ordered.keys fs).Nodup)
    (hds : (Ordered.keys ds).Nodup) (hv : Ordered.find? k ls = some v)
    (hw : Ordered.find? k fs = some w) (hd : Ordered.find? k ds = some d)
    (hnone : p.get? d = none) (hsome : (p.get? v).isSome)
    (hset : ¬ ThroughSet (.key k :: p) (.mapping ds))
    (hsame : (canonicalBy order (.mapping (projectFields ls fs))).same
      (canonicalBy order' (.mapping ds))) :
    (canonicalBy (orderBelow k) (v.project w)).same (canonicalBy (orderBelow k) d) := by
  have hproj : Ordered.find? k (projectFields ls fs) = some (v.project w) := by
    rw [find?_projectFields, hw, hv]
    rfl
  obtain ⟨x, hx, hentry⟩ := exists_same_of_same_mapping
    (hfs.sublist (keys_projectFields_sublist ls fs)) hds hsame hproj
  obtain rfl : d = x := Option.some.inj (hd.symm.trans hx)
  rcases same_of_same_canonicalEntry hentry with h | ⟨hk, n, hn, hm⟩
  · exact h
  · rw [itemCount?_project] at hn
    exact absurd ⟨d, hd, .inl ⟨hk, enters_of_itemCount? hsome hnone hn hm⟩⟩ hset

end NotSame

/-- What is seen of a live tree is not the desired tree, if a path that the desired tree lacks
is seen. -/
theorem not_same_of_not_unseen {path : Path} {desired previous live : Value}
    {order order' : List String} (hd : desired.WellKeyed) (hp : previous.WellKeyed)
    (hnone : path.get? desired = none) (hsome : (path.get? live).isSome)
    (hset : ¬ ThroughSet path desired)
    (hseen : ¬ Unseen path (desired.withFieldsOf previous) live) :
    ¬ (canonicalBy order (live.project (desired.withFieldsOf previous))).same
      (canonicalBy order' desired) := by
  intro hsame
  -- Along the path: what is the same stays so below each step, down to the missing key.
  induction path generalizing desired previous live order order' with
  | nil => cases hnone
  | cons s p ih =>
      cases s with
      | key k =>
          obtain ⟨ls, v, rfl, hv, hpv⟩ := exists_of_get?_key hsome
          have hmapping := isMapping_of_same rfl hsame
          cases desired with
          | mapping ds =>
              have hmore := wellKeyed_mapping.mp (wellKeyed_fieldsFor hp)
              have hfs := wellKeyed_mapping.mp (wellKeyed_extendFields _ hd hmore.2)
              rw [wellKeyed_mapping] at hd
              rw [withFieldsOf_mapping] at hsame hseen
              rw [project] at hsame
              cases hk : Ordered.find? k ds with
              | none =>
                  have hf := find?_eq_none_of_same hfs.1 hd.1 hv hsame hk
                  rw [Unseen, hf] at hseen
                  exact hseen trivial
              | some d =>
                  have hf := find?_extendFields_of_some hmore.1 hk
                  rw [get?_key_of_find? hk] at hnone
                  have hbelow := same_below_key hfs.1 hd.1 hv hf hk hnone hpv hset hsame
                  have hdwell := hd.2 _ (Ordered.mem_of_find?_eq_some hk)
                  refine ih hdwell ?_ hnone hpv (fun h => hset ⟨d, hk, .inr h⟩) ?_ hbelow
                  · exact wellKeyed_getD_null fun old hold =>
                      hmore.2 _ (Ordered.mem_of_find?_eq_some hold)
                  · intro hun
                    rw [Unseen, hf] at hseen
                    exact hseen ⟨v, hv, hun⟩
          | _ => cases hmapping
      | index i =>
          obtain ⟨vs, v, rfl, hv, hpv⟩ := exists_of_get?_index hsome
          have hcount := itemCount?_eq_of_same_canonicalBy hsame
          rw [itemCount?_project] at hcount
          cases desired with
          | sequence ds =>
              have hlen : vs.length = ds.length := Option.some.inj hcount
              rw [withFieldsOf_eq_self rfl] at hsame hseen
              rw [project, if_pos hlen] at hsame
              have hi : i < ds.length := hlen ▸ (List.getElem?_eq_some_iff.mp hv).1
              have hdi : ds[i]? = some ds[i] := List.getElem?_eq_getElem hi
              rw [get?_index_of_getElem? hdi] at hnone
              have hitem := same_of_same_sequence hsame (getElem?_projectItems hv hdi) hdi
              -- Of what was there before, nothing is added to items.
              rw [← withFieldsOf_null ds[i]] at hitem
              have hwell := wellKeyed_sequence.mp hd _ (List.getElem_mem hi)
              refine ih hwell wellKeyed_null hnone hpv
                (fun h => hset ⟨_, hdi, h⟩) (fun h => hseen ?_) hitem
              exact ⟨hlen.symm, ds[i], v, hdi, hv, withFieldsOf_null ds[i] ▸ h⟩
          | _ => cases hcount

theorem project_mapping_congr {ls ls' ws : Fields} {k : String} (hw : Ordered.find? k ws = none)
    (h : ∀ j, k ≠ j → Ordered.find? j ls' = Ordered.find? j ls) :
    (Value.mapping ls').project (.mapping ws) = (Value.mapping ls).project (.mapping ws) := by
  rw [project, project, projectFields_congr]
  rintro ⟨j, w⟩ hm
  rw [h j]
  rintro rfl
  exact Ordered.find?_eq_none_iff.mp hw (Ordered.mem_keys_of_mem hm)

/-- A field that is wanted is seen as before, if its change is not seen below it. -/
theorem project_modify_field {ls ws : Fields} {k : String} {w v : Value} {f : Value → Value}
    (hws : (Ordered.keys ws).Nodup) (hw : Ordered.find? k ws = some w)
    (hv : Ordered.find? k ls = some v) (hf : (f v).project w = v.project w) :
    (Value.mapping (Ordered.modify k f ls)).project (.mapping ws) =
      (Value.mapping ls).project (.mapping ws) := by
  rw [project, project, projectFields_congr]
  rintro ⟨j, x⟩ hm
  rw [Ordered.find?_modify]
  split
  · next hj =>
      subst hj
      obtain rfl : w = x :=
        Option.some.inj (hw.symm.trans (Ordered.find?_eq_some_of_mem hws hm))
      simp [hv, hf]
  · rfl

theorem project_modify_item {vs ws : List Value} {i : Nat} {w v : Value} {f : Value → Value}
    (hlen : ws.length = vs.length) (hw : ws[i]? = some w) (hv : vs[i]? = some v)
    (hf : (f v).project w = v.project w) :
    (Value.sequence (vs.modify i f)).project (.sequence ws) =
      (Value.sequence vs).project (.sequence ws) := by
  rw [project, project, List.length_modify, if_pos hlen.symm, if_pos hlen.symm,
    projectItems_modify]
  intro x y hx hy
  obtain rfl : v = x := Option.some.inj (hv.symm.trans hx)
  obtain rfl : w = y := Option.some.inj (hw.symm.trans hy)
  exact hf

/-- Taking out an entry that is unseen changes nothing of what is seen. -/
theorem project_modify_of_unseen {wanted live : Value} {q : Path} {s : Segment}
    (hw : wanted.WellKeyed) (h : Unseen (q ++ [s]) wanted live) :
    (Path.modify (removeChild s) q live).project wanted = live.project wanted := by
  induction q generalizing wanted live with
  | nil =>
      cases s with
      | key k =>
          obtain ⟨ws, rfl, hk | ⟨_, _, -, -, hun⟩⟩ := unseen_key_cases h
          · cases live with
            | mapping ls =>
                exact project_mapping_congr hk fun j hj => Ordered.find?_remove_of_ne hj ls
            | _ => rfl
          · exact absurd hun not_unseen_nil
      | index i =>
          obtain ⟨_, _, _, _, -, -, -, -, -, hun⟩ := unseen_index_cases h
          exact absurd hun not_unseen_nil
  | cons t q ih =>
      cases t with
      | key k =>
          obtain ⟨ws, rfl, hcases⟩ := unseen_key_cases h
          rw [wellKeyed_mapping] at hw
          cases live with
          | mapping ls =>
              rcases hcases with hk | ⟨w, v, hk, hv, hun⟩
              · refine project_mapping_congr hk fun j hj => ?_
                rw [Ordered.find?_modify, if_neg hj]
              · have hwell := hw.2 _ (Ordered.mem_of_find?_eq_some hk)
                exact project_modify_field hw.1 hk hv (ih hwell hun)
          | _ => rfl
      | index i =>
          obtain ⟨ws, vs, w, v, rfl, rfl, hlen, hwi, hvi, hun⟩ := unseen_index_cases h
          have hwell := wellKeyed_sequence.mp hw w (List.mem_of_getElem? hwi)
          exact project_modify_item hlen hwi hvi (ih hwell hun)

/-- Taking out an entry that is hidden changes no text outside of sequences. -/
theorem text?_modify_of_hidden {desired live : Value} {q : Path} {s : Segment}
    (h : Hidden (q ++ [s]) desired live) (ks : List String) :
    (get? (ks.map .key) (Path.modify (removeChild s) q live)).bind text? =
      (get? (ks.map .key) live).bind text? := by
  induction ks generalizing q desired live with
  | nil => exact text?_modify_removeChild s q live
  | cons j ks ih =>
      cases q with
      | nil => exact absurd h (not_hidden_singleton s)
      | cons t q =>
          cases t with
          | key k =>
              cases desired with
              | mapping ds =>
                  obtain ⟨d, v, -, hv, hun⟩ := h
                  cases live with
                  | mapping ls =>
                      rw [List.map_cons, modify, get?_key_mapping, get?_key_mapping,
                        Ordered.find?_modify]
                      split
                      · next hk =>
                          subst hk
                          have hv' : Ordered.find? k ls = some v := hv
                          rw [hv']
                          exact ih hun
                      · rfl
                  | _ => cases hv
              | _ => cases h
          | index i => cases live <;> rfl

end Path

namespace Document

theorem note?_eq_get? (d : Document) (n : Note) (k : String) :
    d.note? n k =
      (Path.get? (["metadata", n.field, k].map .key) d.root).bind Value.text? := by
  rw [note?, noteFields, metadata, List.map_cons, Path.get?, Path.child?]
  cases d.root.field? "metadata" with
  | none => rfl
  | some m =>
      rw [List.map_cons, Option.bind_some, Path.get?, Path.child?, Option.getD_some]
      cases m.field? n.field with
      | none => rfl
      | some x =>
          cases x <;> simp [Path.get?, Path.child?, Value.field?, Value.fields?, Ordered.find?]

/-- The document without what is at a path. -/
def without (d : Document) (path : Path) : Document :=
  d.withRoot ⟨(path.remove d.root).2, path.wellKeyed_remove d.wellKeyed⟩

theorem root_without (d : Document) (path : Path) :
    (d.without path).root = (path.remove d.root).2 := rfl

end Document

variable {desired live : Document} {previous : Value} {path : Path}

theorem lastApplied?_without (h : path.Hidden desired.root live.root)
    (hl : (path.get? live.root).isSome) : (live.without path).lastApplied? = live.lastApplied? := by
  rcases List.eq_nil_or_concat' path with rfl | ⟨q, s, rfl⟩
  · cases h
  · rw [Document.lastApplied?, Document.lastApplied?, Document.note?_eq_get?,
      Document.note?_eq_get?, Document.root_without, Path.remove_eq_modify hl,
      Path.text?_modify_of_hidden h]

/-- A hidden field makes no difference to what is seen. -/
theorem seen_without (hprevious : live.lastApplied? = some previous)
    (hp : (path.get? previous).isSome) (h : path.Hidden desired.root live.root)
    (hl : (path.get? live.root).isSome) : seen desired (live.without path) = seen desired live := by
  have hcompared : comparedFields desired (live.without path) = comparedFields desired live := by
    rw [comparedFields, comparedFields, lastApplied?_without h hl]
  have hwell := wellKeyed_comparedFields desired live
  have hunseen : path.Unseen (comparedFields desired live) live.root := by
    obtain ⟨text, -, ht⟩ := Option.bind_eq_some_iff.mp hprevious
    rw [comparedFields, hprevious]
    exact (Path.unseen_withFieldsOf_iff (Value.wellKeyed_ofJson? ht) hp).mpr h
  rw [seen, seen, hcompared, Document.root_without]
  rcases List.eq_nil_or_concat' path with rfl | ⟨q, s, rfl⟩
  · cases h
  · rw [Path.remove_eq_modify hl, Path.project_modify_of_unseen hwell hunseen]

/-- A field that was dropped plans an update, unless it is hidden in an item of a sequence: then
the plan is as if the live object did not have it. Items of sequences whose order means nothing
are not told apart by their places. -/
theorem update_iff_of_dropped (context : Nat) (hprevious : live.lastApplied? = some previous)
    (hp : (path.get? previous).isSome) (hd : path.get? desired.root = none)
    (hl : (path.get? live.root).isSome)
    (hset : path.ThroughSet desired.root → path.Hidden desired.root live.root) :
    (planChange desired (some live) context).action = .update ↔
      ¬ path.Hidden desired.root live.root ∨
        (planChange desired (some (live.without path)) context).action = .update := by
  by_cases hh : path.Hidden desired.root live.root
  · rw [action_planChange, action_planChange, seen_without hprevious hp hh hl]
    exact ⟨.inr, fun h => h.resolve_left (not_not_intro hh)⟩
  · obtain ⟨text, -, ht⟩ := Option.bind_eq_some_iff.mp hprevious
    have hwell := Value.wellKeyed_ofJson? ht
    have hunseen := (Path.unseen_withFieldsOf_iff hwell hp).not.mpr hh
    have hseen : ¬ (seen desired live).same desired.root.canonical := by
      rw [seen, comparedFields, hprevious]
      exact Path.not_same_of_not_unseen desired.wellKeyed hwell hd hl (fun h => hh (hset h)) hunseen
    rw [action_planChange, if_neg hseen]
    exact ⟨fun _ => .inl hh, fun _ => rfl⟩

/-- A pod with one container. -/
def barePod : Document where
  root := .mapping [("apiVersion", .string "v1"), ("kind", .string "Pod"),
    ("metadata", .mapping [("name", .string "web")]),
    ("spec", .mapping [("containers", .sequence [.mapping [("name", .string "app")]])])]
  wellKeyed := by simp [Ordered.keys]

/-- What was last applied to the pod: its container had a variable. -/
def appliedPod : String :=
  "\x7b\"apiVersion\":\"v1\",\"kind\":\"Pod\",\"metadata\":\x7b\"name\":\"web\"\x7d,\"spec\":" ++
  "\x7b\"containers\":[\x7b\"name\":\"app\",\"env\":" ++
  "[\x7b\"name\":\"MODE\",\"value\":\"debug\"\x7d]\x7d]\x7d\x7d"

def podSpec : Value :=
  .mapping [("containers", .sequence [.mapping [("name", .string "app"),
    ("env", .sequence [.mapping [("name", .string "MODE"), ("value", .string "debug")]])]])]

def appliedTree : Value :=
  .mapping [("apiVersion", .string "v1"), ("kind", .string "Pod"),
    ("metadata", .mapping [("name", .string "web")]), ("spec", podSpec)]

def livePod : Document where
  root := .mapping [("apiVersion", .string "v1"), ("kind", .string "Pod"),
    ("metadata", .mapping [("name", .string "web"),
      ("annotations", .mapping [(lastAppliedKey, .string appliedPod)])]), ("spec", podSpec)]
  wellKeyed := by simp [podSpec, Ordered.keys]

theorem lastApplied?_livePod : livePod.lastApplied? = some appliedTree := by decide +kernel

theorem comparedFields_livePod (desired : Document) :
    comparedFields desired livePod = desired.root.withFieldsOf appliedTree := by
  rw [comparedFields, lastApplied?_livePod]

/-- A spec that is dropped as a whole is taken out. -/
theorem update_of_dropped_spec :
    (planChange (.new "v1" "Pod" "web") (some livePod) 3).action = .update := by
  have hnone : Ordered.find? "spec" (Document.new "v1" "Pod" "web").fields = none := by decide
  have hhidden : ¬ Path.Hidden [.key "spec"] (Document.new "v1" "Pod" "web").root livePod.root := by
    rintro ⟨d, v, hd, -⟩
    exact Option.some_ne_none d (hd.symm.trans hnone)
  have hset : ¬ Path.ThroughSet [.key "spec"] (Document.new "v1" "Pod" "web").root := by
    rintro ⟨d, hd, -⟩
    exact Option.some_ne_none d (hd.symm.trans hnone)
  exact (update_iff_of_dropped 3 lastApplied?_livePod (by decide) (by decide) (by decide)
    fun h => absurd h hset).mpr (.inl hhidden)

/-- Dropped fields are not always taken out: a variable of a container stays. -/
theorem not_forall_dropped_update :
    ¬ ∀ (desired live : Document) (previous : Value) (path : Path) (context : Nat),
      live.lastApplied? = some previous → (path.get? previous).isSome →
      path.get? desired.root = none → (path.get? live.root).isSome →
      (planChange desired (some live) context).action = .update := by
  intro h
  have hupdate := h barePod livePod appliedTree
    [.key "spec", .key "containers", .index 0, .key "env", .index 0] 3 lastApplied?_livePod
    (by decide) (by decide) (by decide)
  have hseen : Value.isCanonicalBy Value.topOrder
      (livePod.root.project (comparedFields barePod livePod)) := by
    rw [comparedFields_livePod]
    decide +kernel
  rw [action_planChange_of_isCanonicalBy 3 (by decide +kernel) hseen, comparedFields_livePod]
    at hupdate
  revert hupdate
  decide +kernel

end Rollout
