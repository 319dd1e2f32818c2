import Rollout.Proofs.Manifest.Rendered
import Rollout.Proofs.Number.Rounding
import Rollout.Proofs.Value.Equivalence
/-!
What is read from a text, JSON or YAML, is normal: every floating-point number in it is in its
one form, however it is written. So documents that are read have a normal form.
-/

namespace Rollout

theorem Value.Normal.compositional : Value.Compositional Value.Normal where
  null := trivial
  bool _ := trivial
  string _ := trivial
  sequence := normal_sequence.mpr
  mapping h := normal_mapping.mpr fun e he => h e (Ordered.mem_ofList he)

namespace Json

variable {negative : Bool} {word : Nat} {power : Int} {cs r : List Char} {x y : Binary64}

/-- A number divided by a power of ten. -/
theorem normal_div_power {n : Nat}
    (h : (Binary64.ofRatio? false (Nat.pow 10 n) 1).bind x.div? = some y) : y.Normal := by
  obtain ⟨z, hz, hy⟩ := Option.bind_eq_some_iff.mp h
  have hpos := Binary64.significand_pos_of_ofRatio? one_ne_zero (Nat.pow_pos (by decide)) hz
  exact Binary64.normal_div? hpos.ne' hy

/-- Dividing step by step leaves a number normal that each step leaves normal. -/
theorem normal_divide {step : Binary64 → Nat → Option Binary64}
    (hstep : ∀ {x y n}, step x n = some y → y.Normal) :
    ∀ {fuel : Nat} {x y : Binary64} {n : Nat}, x.Normal → scale?.divide step fuel x n = some y →
      y.Normal
  | 0, x, y, n, hx, h => by
      rw [scale?.divide] at h
      exact Option.some.inj h ▸ hx
  | fuel + 1, x, y, n, hx, h => by
      rw [scale?.divide] at h
      split at h
      · exact Option.some.inj h ▸ hx
      split at h
      · exact hstep h
      · obtain ⟨z, hz, hy⟩ := Option.bind_eq_some_iff.mp h
        exact normal_divide hstep (hstep hz) hy

theorem normal_scale? (h : scale? negative word power = some y) : y.Normal := by
  obtain ⟨x, hx, h⟩ := Option.bind_eq_some_iff.mp h
  have hxnormal := Binary64.normal_ofRatio? one_ne_zero hx
  split at h
  · exact Option.some.inj h ▸ hxnormal
  split at h
  · cases h
  split at h
  · obtain ⟨_, -, hy⟩ := Option.bind_eq_some_iff.mp h
    exact Binary64.normal_mul? hy
  · exact normal_divide normal_div_power hxnormal h

theorem normal_exponent (h : exponent negative word power cs = some (x, r)) : x.Normal := by
  unfold exponent at h
  split at h
  split at h
  dsimp only at h
  split at h
  · cases h
  split at h
  · split at h
    · cases h
    · cases h
      exact Binary64.normal_zero negative
  · obtain ⟨y, hy, h⟩ := Option.bind_eq_some_iff.mp h
    cases h
    exact normal_scale? hy

/-- With a fraction, an exponent, both or neither, the digits are scaled in the end. -/
theorem normal_fraction (h : fraction negative word power cs = some (x, r)) : x.Normal := by
  have htail {word : Nat} {power : Int} {cs : List Char}
      (h : (do return (← scale? negative word power, cs)) = some (x, r)) : x.Normal := by
    obtain ⟨y, hy, h⟩ := Option.bind_eq_some_iff.mp h
    cases h
    exact normal_scale? hy
  unfold fraction at h
  dsimp only at h
  split at h
  · split at h
    · cases h
    · split at h
      · exact normal_exponent h
      · exact normal_exponent h
      · exact htail h
  · split at h
    · exact normal_exponent h
    · exact normal_exponent h
    · exact htail h

theorem normal_number {n : Number} (h : number negative cs = some (n, r)) : n.Normal := by
  unfold number at h
  split at h
  split at h
  · cases h
  · cases h
  split at h
  -- Whether the number is plain is not looked into: either way it is normal.
  extract_lets plain at h
  split at h
  · obtain ⟨⟨y, _⟩, hy, h⟩ := Option.bind_eq_some_iff.mp h
    cases h
    exact normal_fraction hy
  split at h
  · cases h
    trivial
  split at h
  · obtain ⟨y, hy, h⟩ := Option.bind_eq_some_iff.mp h
    cases h
    exact Binary64.normal_ofRatio? one_ne_zero hy
  · cases h
    trivial

end Json

/-- Every tree read from JSON is normal. -/
theorem Value.normal_ofJson? {text : String} {v : Value} (h : Value.ofJson? text = some v) :
    v.Normal :=
  Normal.compositional.ofJson? Json.normal_number h

namespace Yaml

/-- Every result of reading is as said, however many aliases were followed before. -/
def Yields {α : Type} (P : α → Prop) (m : Copying α) : Prop :=
  ∀ used a used', m.run used = .ok (a, used') → P a

namespace Yields

variable {α β : Type} {P : α → Prop} {Q : β → Prop}

theorem pure {a : α} (h : P a) : Yields P (Pure.pure a : Copying α) := by
  intro used b used' hb
  cases hb
  exact h

theorem throw (e : Fault) : Yields P (MonadExcept.throw e : Copying α) :=
  fun _ _ _ h => nomatch h

theorem lift {x : Except Fault α} (h : ∀ a, x = .ok a → P a) : Yields P (x : Copying α) := by
  intro used b used' hb
  obtain ⟨a, ha, hb⟩ := bind_eq_ok.mp hb
  cases hb
  exact h b ha

theorem bind {m : Copying α} {f : α → Copying β} (hm : Yields P m)
    (hf : ∀ a, P a → Yields Q (f a)) : Yields Q (m >>= f) := by
  intro used b used' h
  rw [StateT.run_bind, bind_eq_ok] at h
  obtain ⟨⟨a, used''⟩, ha, hb⟩ := h
  exact hf a (hm _ _ _ ha) _ _ _ hb

theorem trivial (m : Copying α) : Yields (fun _ => True) m := fun _ _ _ _ => True.intro

theorem mapM {f : α → Copying β} {l : List α} (hf : ∀ a ∈ l, Yields Q (f a)) :
    Yields (fun bs => ∀ b ∈ bs, Q b) (l.mapM f) := by
  induction l with
  | nil => exact pure (List.forall_mem_nil Q)
  | cons a l ih =>
      rw [List.forall_mem_cons] at hf
      rw [List.mapM_cons]
      refine hf.1.bind fun b hb => ?_
      exact (ih hf.2).bind fun bs hbs => pure (List.forall_mem_cons.mpr ⟨hb, hbs⟩)

end Yields

theorem normal_integerMeaning? {cs : List Char} {n : Number}
    (h : integerMeaning? cs = some (.number n)) : n.Normal := by
  obtain ⟨m, -, h⟩ := Option.bind_eq_some_iff.mp h
  split at h
  · cases h
    trivial
  split at h <;> cases h

theorem normal_floatMeaning? {s : String} {n : Number}
    (h : floatMeaning? s = some (.number n)) : n.Normal := by
  unfold floatMeaning? at h
  split at h
  · cases h
  obtain ⟨x, hx, h⟩ := Option.map_eq_some_iff.mp h
  cases h
  unfold float? at hx
  split at hx
  obtain ⟨_, -, hx⟩ := Option.bind_eq_some_iff.mp hx
  exact Binary64.normal_ofDecimal? hx

theorem normal_meaning {s : String} {n : Number} (h : meaning s = .number n) : n.Normal := by
  unfold meaning at h
  split at h
  · cases h
  split at h
  · cases h
  split at h
  · next m hm =>
      cases h
      exact normal_integerMeaning? hm
  split at h
  · cases h
  · cases hf : floatMeaning? s with
    | none =>
        rw [hf] at h
        cases h
    | some m =>
        rw [hf] at h
        cases h
        exact normal_floatMeaning? hf

theorem normal_ofMeaning {s : String} {m : Meaning} {t : Tree}
    (hm : ∀ n, m = .number n → n.Normal) (h : ofMeaning s m = .ok t) : t.1.Normal := by
  cases m with
  | number n =>
      cases h
      exact hm n rfl
  | null | infiniteOrNaN | bool b | text =>
      cases h
      trivial
  | largeWord => cases h

theorem normal_scalarValue {tag : Option String} {plain : Bool} {s : String} {t : Tree}
    (h : scalarValue tag plain s = .ok t) : t.1.Normal := by
  unfold scalarValue at h
  cases tag with
  | none =>
      dsimp only at h
      split at h
      · exact normal_ofMeaning (fun _ => normal_meaning) h
      · cases h
        trivial
  | some tag =>
      dsimp only at h
      split at h
      · cases h
      split at h
      · split at h
        · cases h
          trivial
        · cases h
      split at h
      · split at h
        · next m hm => exact normal_ofMeaning (fun n hn => normal_integerMeaning? (hn ▸ hm)) h
        · cases h
      split at h
      · split at h
        · next m hm => exact normal_ofMeaning (fun n hn => normal_floatMeaning? (hn ▸ hm)) h
        · cases h
      split at h
      · split at h
        · cases h
          trivial
        · cases h
      · cases h
        trivial

/-- The value of a node, from the values of what it holds, which may nest one less deep. -/
theorem yields_valueOf (d : Parsed) : (depth : Nat) → (node : Node) →
    Yields (fun t => t.1.Normal) (valueOf d depth node)
  | depth, node => by
      rw [valueOf]
      refine (Yields.trivial _).bind fun node _ => ?_
      match node with
      | .alias _ => exact .throw _
      | .scalar tag plain s => exact .lift fun _ => normal_scalarValue
      | .sequence tag items =>
          refine (Yields.trivial _).bind fun _ _ => ?_
          match depth with
          | 0 => exact .throw _
          | depth + 1 =>
              refine (Yields.mapM fun item _ => yields_valueOf d depth item).bind
                fun ts hts => .pure ?_
              exact Value.normal_sequence.mpr (List.forall_mem_map.mpr hts)
      | .mapping tag fields =>
          refine (Yields.trivial _).bind fun _ _ => ?_
          match depth with
          | 0 => exact .throw _
          | depth + 1 =>
              refine (Yields.mapM (Q := fun e => e.2.1.Normal) fun field _ => ?_).bind
                fun es hes => .pure ?_
              · refine (Yields.trivial _).bind fun k _ => ?_
                exact (yields_valueOf d depth field.2).bind fun t ht => .pure ht
              · exact Value.Normal.compositional.mapping (List.forall_mem_map.mpr hes)

end Yaml

/-- Every tree read from YAML is normal. -/
theorem Value.normal_read {text : String} {t : Tree} (h : Yaml.read text = .ok t) :
    t.1.Normal := by
  obtain ⟨tokens, -, h⟩ := bind_eq_ok.mp h
  obtain ⟨document, -, h⟩ := bind_eq_ok.mp h
  cases document with
  | none =>
      cases h
      trivial
  | some d =>
      obtain ⟨⟨u, used⟩, hu, h⟩ := map_eq_ok.mp h
      cases h
      exact Yaml.yields_valueOf d _ _ _ _ _ hu

theorem Document.normal_ofTree {t : Tree} {d : Document} (ht : t.1.Normal)
    (h : Document.ofTree t = .ok d) : d.root.Normal := by
  obtain ⟨_, -, h⟩ := bind_eq_ok.mp h
  cases h
  exact ht

theorem Manifest.normal_parsePiece {index : Nat} {piece : List Char} {d : Document}
    (h : parsePiece index piece = .ok (some d)) : d.root.Normal := by
  unfold parsePiece at h
  split at h
  · cases h
  dsimp only at h
  split at h
  · cases h
  · next root hroot =>
      split at h
      · cases h
      · obtain ⟨e, he, hd⟩ := map_eq_ok.mp h
        cases hd
        exact Document.normal_ofTree (Value.normal_read hroot) (mapError_eq_ok.mp he)

/-- Every document of a stream is normal. -/
theorem Manifest.normal_parse {text : String} {docs : List Document}
    (h : parse text = .ok docs) : ∀ d ∈ docs, d.root.Normal := by
  obtain ⟨pieces, hpieces, h⟩ := bind_eq_ok.mp h
  cases h
  have hnormal : ∀ p ∈ pieces, ∀ d, p = some d → d.root.Normal := by
    have hread := (mapM_eq_ok_iff.mp hpieces).imp
      (S := fun _ p => (∀ d, p = some d → d.root.Normal) ∧ True) fun piece p hp =>
        ⟨fun d hd => normal_parsePiece (hd ▸ hp), trivial⟩
    exact ((List.forall₂_and_left _ _).mp hread.flip).1
  intro d hd
  obtain ⟨p, hp, hd⟩ := List.mem_filterMap.mp hd
  exact hnormal p hp d hd

/-- A document of a stream is equivalent to another exactly if their canonical forms are one
tree. -/
theorem Manifest.equivalent_iff_of_parse {text : String} {docs : List Document} {d : Document}
    (h : parse text = .ok docs) (hd : d ∈ docs) (e : Document) :
    d.root.Equivalent e.root ↔ d.canonical.root = e.canonical.root :=
  Value.equivalent_iff d.wellKeyed (normal_parse h d hd)

end Rollout
