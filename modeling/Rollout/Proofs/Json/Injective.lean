import Rollout.Proofs.Json.Text
/-!
Different trees have different JSON texts, whatever the order of their keys and however deep
they are.
-/

namespace Rollout.Value

mutual

/-- Floating-point numbers are in their one form, everywhere in the tree. -/
def Normal : Value → Prop
  | .number n => n.Normal
  | .sequence vs => ItemsNormal vs
  | .mapping fs => FieldsNormal fs
  | _ => True

def ItemsNormal : List Value → Prop
  | [] => True
  | v :: vs => Normal v ∧ ItemsNormal vs

def FieldsNormal : List (String × Value) → Prop
  | [] => True
  | (_, v) :: fs => Normal v ∧ FieldsNormal fs

end

theorem itemsNormal_iff {vs : List Value} : ItemsNormal vs ↔ ∀ v ∈ vs, v.Normal := by
  induction vs with
  | nil => simp [ItemsNormal]
  | cons v vs ih => simp [ItemsNormal, ih]

theorem fieldsNormal_iff {fs : Fields} : FieldsNormal fs ↔ ∀ e ∈ fs, e.2.Normal := by
  induction fs with
  | nil => simp [FieldsNormal]
  | cons e fs ih => simp [FieldsNormal, ih]

@[simp] theorem normal_null : Normal .null := trivial

@[simp] theorem normal_bool (b : Bool) : Normal (.bool b) := trivial

@[simp] theorem normal_number {n : Number} : Normal (.number n) ↔ n.Normal := .rfl

@[simp] theorem normal_string (s : String) : Normal (.string s) := trivial

@[simp] theorem normal_sequence {vs : List Value} :
    (Value.sequence vs).Normal ↔ ∀ v ∈ vs, v.Normal := itemsNormal_iff

@[simp] theorem normal_mapping {fs : Fields} :
    (Value.mapping fs).Normal ↔ ∀ e ∈ fs, e.2.Normal := fieldsNormal_iff

/-- The character that a text begins with; any digit or sign counts as one. -/
def opening : Value → Char
  | .null => 'n'
  | .bool true => 't'
  | .bool false => 'f'
  | .number _ => '0'
  | .string _ => '"'
  | .sequence _ => '['
  | .mapping _ => '\x7b'

theorem exists_opening (v : Value) (r : List Char) :
    ∃ c cs, v.jsonChars ++ r = c :: cs ∧ v.opening = if Json.isNumeral c then '0' else c := by
  match v with
  | .null | .bool true | .bool false | .sequence [] | .sequence (_ :: _) | .mapping []
  | .mapping (_ :: _) | .string _ => exact ⟨_, _, rfl, rfl⟩
  | .number n =>
      obtain ⟨c, cs, htext⟩ := List.exists_cons_of_ne_nil (Json.text_ne_nil Json.numberLayout n)
      have hc : Json.isNumeral c := Json.isNumeral_of_mem_text (htext ▸ List.mem_cons_self)
      refine ⟨c, cs ++ r, ?_, (if_pos hc).symm⟩
      rw [jsonChars, htext, List.cons_append]

/-- Trees of different kinds begin differently. -/
theorem opening_eq {v w : Value} {r r' : List Char} (h : v.jsonChars ++ r = w.jsonChars ++ r') :
    v.opening = w.opening := by
  obtain ⟨c, cs, hv, hopening⟩ := exists_opening v r
  obtain ⟨d, ds, hw, hopening'⟩ := exists_opening w r'
  rw [hv, hw] at h
  obtain ⟨rfl, -⟩ := List.cons.inj h
  rw [hopening, hopening']

/-- A number ends where its text does, if no number can go on there. -/
theorem text_append_inj {m n : Number} (hm : m.Normal) (hn : n.Normal) {r r' : List Char}
    (hr : Json.Ended r) (hr' : Json.Ended r')
    (h : m.text Json.numberLayout ++ r = n.text Json.numberLayout ++ r') : m = n ∧ r = r' := by
  have htake {n : Number} {r : List Char} (hr : Json.Ended r) :
      (n.text Json.numberLayout ++ r).takeWhile Json.isNumeral = n.text Json.numberLayout := by
    rw [List.takeWhile_append_of_pos fun c hc => Json.isNumeral_of_mem_text hc]
    cases r with
    | nil => rw [List.takeWhile_nil, List.append_nil]
    | cons c r =>
        rw [List.takeWhile_cons_of_neg (by rw [hr c rfl]; exact Bool.false_ne_true),
          List.append_nil]
  have htext : m.text Json.numberLayout = n.text Json.numberLayout := by
    rw [← htake hr, h, htake hr']
  refine ⟨Number.text_injective hm hn htext, ?_⟩
  rw [htext] at h
  exact List.append_cancel_left h

mutual

/-- A tree is told by the beginning of a longer text, if no number can go on after it. -/
theorem jsonChars_append_inj : (v w : Value) → v.Normal → w.Normal → ∀ {r r' : List Char},
    Json.Ended r → Json.Ended r' → v.jsonChars ++ r = w.jsonChars ++ r' → v = w ∧ r = r'
  | .null, w, _, _, r, r', _, _, h => by
      have hopening := opening_eq h
      match w with
      | .null => exact ⟨rfl, List.append_cancel_left h⟩
      | .bool true | .bool false | .number _ | .string _ | .sequence _ | .mapping _ =>
          simp [opening] at hopening
  | .bool true, w, _, _, r, r', _, _, h => by
      have hopening := opening_eq h
      match w with
      | .bool true => exact ⟨rfl, List.append_cancel_left h⟩
      | .null | .bool false | .number _ | .string _ | .sequence _ | .mapping _ =>
          simp [opening] at hopening
  | .bool false, w, _, _, r, r', _, _, h => by
      have hopening := opening_eq h
      match w with
      | .bool false => exact ⟨rfl, List.append_cancel_left h⟩
      | .null | .bool true | .number _ | .string _ | .sequence _ | .mapping _ =>
          simp [opening] at hopening
  | .number m, w, hv, hw, r, r', hr, hr', h => by
      have hopening := opening_eq h
      match w with
      | .number n =>
          obtain ⟨rfl, hrest⟩ := text_append_inj hv hw hr hr' h
          exact ⟨rfl, hrest⟩
      | .null | .bool true | .bool false | .string _ | .sequence _ | .mapping _ =>
          simp [opening] at hopening
  | .string s, w, _, _, r, r', _, _, h => by
      have hopening := opening_eq h
      match w with
      | .string t =>
          obtain ⟨rfl, hrest⟩ := Json.quoted_append_inj h
          exact ⟨rfl, hrest⟩
      | .null | .bool true | .bool false | .number _ | .sequence _ | .mapping _ =>
          simp [opening] at hopening
  | .sequence vs, w, hv, hw, r, r', _, _, h => by
      have hopening := opening_eq h
      match w with
      | .sequence ws =>
          obtain ⟨rfl, hrest⟩ := sequence_append_inj vs ws hv hw h
          exact ⟨rfl, hrest⟩
      | .null | .bool true | .bool false | .number _ | .string _ | .mapping _ =>
          simp [opening] at hopening
  | .mapping fs, w, hv, hw, r, r', _, _, h => by
      have hopening := opening_eq h
      match w with
      | .mapping gs =>
          obtain ⟨rfl, hrest⟩ := mapping_append_inj fs gs hv hw h
          exact ⟨rfl, hrest⟩
      | .null | .bool true | .bool false | .number _ | .string _ | .sequence _ =>
          simp [opening] at hopening

theorem sequence_append_inj : (vs ws : List Value) → ItemsNormal vs → ItemsNormal ws →
    ∀ {r r' : List Char}, (Value.sequence vs).jsonChars ++ r = (Value.sequence ws).jsonChars ++ r' →
      vs = ws ∧ r = r'
  | [], [], _, _, r, r', h => ⟨rfl, List.append_cancel_left h⟩
  | [], w :: ws, _, _, r, r', h => by
      rw [jsonChars_sequence_append] at h
      obtain ⟨c, cs, hw, -, hclose⟩ := exists_jsonChars w
      rw [hw] at h
      exact absurd (List.cons.inj (List.cons.inj h).2).1.symm hclose
  | v :: vs, [], _, _, r, r', h => by
      rw [jsonChars_sequence_append] at h
      obtain ⟨c, cs, hv, -, hclose⟩ := exists_jsonChars v
      rw [hv] at h
      exact absurd (List.cons.inj (List.cons.inj h).2).1 hclose
  | v :: vs, w :: ws, hv, hw, r, r', h => by
      rw [jsonChars_sequence_append, jsonChars_sequence_append] at h
      obtain ⟨rfl, hrest⟩ := jsonChars_append_inj v w hv.1 hw.1 (ended_itemsJson vs r)
        (ended_itemsJson ws r') (List.cons.inj h).2
      obtain ⟨rfl, hr⟩ := itemsJson_append_inj vs ws hv.2 hw.2 hrest
      exact ⟨rfl, hr⟩

theorem itemsJson_append_inj : (vs ws : List Value) → ItemsNormal vs → ItemsNormal ws →
    ∀ {r r' : List Char}, itemsJson vs ++ r = itemsJson ws ++ r' → vs = ws ∧ r = r'
  | [], [], _, _, r, r', h => ⟨rfl, List.append_cancel_left h⟩
  | [], w :: ws, _, _, r, r', h => by
      rw [itemsJson_cons_append] at h
      exact absurd (List.cons.inj h).1 (by decide)
  | v :: vs, [], _, _, r, r', h => by
      rw [itemsJson_cons_append] at h
      exact absurd (List.cons.inj h).1 (by decide)
  | v :: vs, w :: ws, hv, hw, r, r', h => by
      rw [itemsJson_cons_append, itemsJson_cons_append] at h
      obtain ⟨rfl, hrest⟩ := jsonChars_append_inj v w hv.1 hw.1 (ended_itemsJson vs r)
        (ended_itemsJson ws r') (List.cons.inj h).2
      obtain ⟨rfl, hr⟩ := itemsJson_append_inj vs ws hv.2 hw.2 hrest
      exact ⟨rfl, hr⟩

theorem mapping_append_inj : (fs gs : Fields) → FieldsNormal fs → FieldsNormal gs →
    ∀ {r r' : List Char}, (Value.mapping fs).jsonChars ++ r = (Value.mapping gs).jsonChars ++ r' →
      fs = gs ∧ r = r'
  | [], [], _, _, r, r', h => ⟨rfl, List.append_cancel_left h⟩
  | [], (k, w) :: gs, _, _, r, r', h => by
      rw [jsonChars_mapping_append] at h
      exact absurd (List.cons.inj (List.cons.inj h).2).1 (by decide)
  | (k, v) :: fs, [], _, _, r, r', h => by
      rw [jsonChars_mapping_append] at h
      exact absurd (List.cons.inj (List.cons.inj h).2).1 (by decide)
  | (k, v) :: fs, (l, w) :: gs, hv, hw, r, r', h => by
      rw [jsonChars_mapping_append, jsonChars_mapping_append] at h
      obtain ⟨rfl, hvalue⟩ := Json.quoted_append_inj (List.cons.inj h).2
      obtain ⟨rfl, hrest⟩ := jsonChars_append_inj v w hv.1 hw.1 (ended_fieldsJson fs r)
        (ended_fieldsJson gs r') (List.cons.inj hvalue).2
      obtain ⟨rfl, hr⟩ := fieldsJson_append_inj fs gs hv.2 hw.2 hrest
      exact ⟨rfl, hr⟩

theorem fieldsJson_append_inj : (fs gs : Fields) → FieldsNormal fs → FieldsNormal gs →
    ∀ {r r' : List Char}, fieldsJson fs ++ r = fieldsJson gs ++ r' → fs = gs ∧ r = r'
  | [], [], _, _, r, r', h => ⟨rfl, List.append_cancel_left h⟩
  | [], (k, w) :: gs, _, _, r, r', h => by
      rw [fieldsJson_cons_append] at h
      exact absurd (List.cons.inj h).1 (by decide)
  | (k, v) :: fs, [], _, _, r, r', h => by
      rw [fieldsJson_cons_append] at h
      exact absurd (List.cons.inj h).1 (by decide)
  | (k, v) :: fs, (l, w) :: gs, hv, hw, r, r', h => by
      rw [fieldsJson_cons_append, fieldsJson_cons_append] at h
      obtain ⟨rfl, hvalue⟩ := Json.quoted_append_inj (List.cons.inj h).2
      obtain ⟨rfl, hrest⟩ := jsonChars_append_inj v w hv.1 hw.1 (ended_fieldsJson fs r)
        (ended_fieldsJson gs r') (List.cons.inj hvalue).2
      obtain ⟨rfl, hr⟩ := fieldsJson_append_inj fs gs hv.2 hw.2 hrest
      exact ⟨rfl, hr⟩

end

/-- Different trees have different texts. -/
theorem toJson_injective {v w : Value} (hv : v.Normal) (hw : w.Normal) (h : v.toJson = w.toJson) :
    v = w := by
  have hchars : v.jsonChars ++ [] = w.jsonChars ++ [] := by
    rw [List.append_nil, List.append_nil]
    exact String.ofList_injective h
  exact (jsonChars_append_inj v w hv hw Json.ended_nil Json.ended_nil hchars).1

end Rollout.Value
