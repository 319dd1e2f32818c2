import Mathlib.Data.List.TakeWhile
import Rollout.Proofs.Json.Text
import Rollout.Proofs.Value.Projection
/-!
Reading the JSON text of a tree. What is read has no field that the tree lacks, whatever becomes
of its numbers.
-/

namespace Rollout

namespace Json

/-- The second text is what is left of the first after characters of numbers. -/
def Takes (cs rest : List Char) : Prop := ∃ t, cs = t ++ rest ∧ ∀ c ∈ t, isNumeral c

namespace Takes

variable {cs rest r : List Char}

theorem refl (cs : List Char) : Takes cs cs := ⟨[], rfl, nofun⟩

theorem trans (h : Takes cs rest) (h' : Takes rest r) : Takes cs r := by
  obtain ⟨t, rfl, ht⟩ := h
  obtain ⟨u, rfl, hu⟩ := h'
  refine ⟨t ++ u, (List.append_assoc ..).symm, fun c hc => ?_⟩
  exact (List.mem_append.mp hc).elim (ht c) (hu c)

theorem cons {c : Char} (hc : isNumeral c) (h : Takes cs rest) : Takes (c :: cs) rest := by
  obtain ⟨t, rfl, ht⟩ := h
  exact ⟨c :: t, rfl, List.forall_mem_cons.mpr ⟨hc, ht⟩⟩

theorem digits (cs : List Char) : Takes cs (digitsOf cs).2 := by
  refine ⟨(digitsOf cs).1, (List.takeWhile_append_dropWhile ..).symm, fun c hc => ?_⟩
  exact isNumeral_of_isDigit (List.mem_takeWhile_imp hc)

/-- Of a text that begins with a number, no more can be taken than the number. -/
theorem left (h : Takes cs rest) (hr : Takes cs r) (hend : Ended r) : Takes rest r := by
  obtain ⟨t, rfl, ht⟩ := h
  obtain ⟨u, hu, hnumeral⟩ := hr
  rcases List.append_eq_append_iff.mp hu with ⟨v, rfl, rfl⟩ | ⟨v, rfl, rfl⟩
  · exact ⟨v, rfl, fun c hc => hnumeral c (List.mem_append_right _ hc)⟩
  · cases v with
    | nil => exact refl rest
    | cons c v =>
        have hc : isNumeral c := ht c (List.mem_append_right _ List.mem_cons_self)
        rw [hend c rfl] at hc
        cases hc

end Takes

theorem takes_exponent {negative : Bool} {word : Nat} {power : Int} {cs rest : List Char}
    {x : Binary64} (h : exponent negative word power cs = some (x, rest)) : Takes cs rest := by
  unfold exponent at h
  dsimp only at h
  -- Whatever the sign, all digits after it are taken.
  split at h
  all_goals
    split at h
    · cases h
    split at h
    · split at h
      · cases h
      · cases h
        first
        | exact .cons rfl (.digits _)
        | exact .digits _
    · obtain ⟨y, -, h⟩ := Option.bind_eq_some_iff.mp h
      cases h
      first
      | exact .cons rfl (.digits _)
      | exact .digits _

/-- What may follow the digits: an exponent, or nothing. -/
theorem takes_scale {negative : Bool} {word : Nat} {power : Int} {cs rest : List Char}
    {x : Binary64} (h : (match cs with
      | 'e' :: r | 'E' :: r => exponent negative word power r
      | _ => do return (← scale? negative word power, cs)) = some (x, rest)) : Takes cs rest := by
  split at h
  · exact .cons rfl (takes_exponent h)
  · exact .cons rfl (takes_exponent h)
  · obtain ⟨y, -, h⟩ := Option.bind_eq_some_iff.mp h
    cases h
    exact .refl _

theorem takes_fraction {negative : Bool} {word : Nat} {power : Int} {cs rest : List Char}
    {x : Binary64} (h : fraction negative word power cs = some (x, rest)) : Takes cs rest := by
  unfold fraction at h
  dsimp only at h
  split at h
  · split at h
    · cases h
    · exact .cons rfl ((Takes.digits _).trans (takes_scale h))
  · exact takes_scale h

theorem takes_number {negative : Bool} {cs rest : List Char} {n : Number}
    (h : number negative cs = some (n, rest)) : Takes cs rest := by
  unfold number at h
  dsimp only at h
  split at h
  · cases h
  · cases h
  · refine (Takes.digits cs).trans ?_
    -- Whether the number is plain decides what it is, not where it ends.
    split at h
    all_goals
      split at h
      · obtain ⟨⟨x, _⟩, hx, h⟩ := Option.bind_eq_some_iff.mp h
        cases h
        exact takes_fraction hx
      split at h
      · cases h
        exact .refl _
      split at h
      · obtain ⟨x, -, h⟩ := Option.bind_eq_some_iff.mp h
        cases h
        exact .refl _
      · cases h
        exact .refl _

theorem skipSpace_cons {c : Char} (h : isSpace c = false) (cs : List Char) :
    skipSpace (c :: cs) = c :: cs :=
  List.dropWhile_cons_of_neg (Bool.not_eq_true _ ▸ h)

/-- What is found after a number that ends is what was written after it. -/
theorem eq_of_skipSpace {rest r ds : List Char} {c d : Char} (h : Takes rest (c :: r))
    (hc : isSpace c = false) (hd : isNumeral d = false) (heq : skipSpace rest = d :: ds) :
    d :: ds = c :: r := by
  obtain ⟨t, rfl, ht⟩ := h
  cases t with
  | nil => exact heq.symm.trans (skipSpace_cons hc r)
  | cons b t =>
      have hb : isNumeral b := ht b List.mem_cons_self
      rw [List.cons_append, skipSpace_cons (isSpace_of_isNumeral hb)] at heq
      obtain ⟨rfl, -⟩ := List.cons.inj heq
      rw [hb] at hd
      cases hd

section Equations

variable (fuel depth : Nat) (cs : List Char)

theorem value_quote : value (fuel + 1) depth ('"' :: cs) =
    (string cs.length.succ cs).bind fun x => some (.string (String.ofList x.1), x.2) := rfl

theorem value_minus : value (fuel + 1) depth ('-' :: cs) =
    (number true cs).bind fun x => some (.number x.1, x.2) := rfl

theorem value_digit {c : Char} (h : isNumeral c) (hminus : c ≠ '-') :
    value (fuel + 1) depth (c :: cs) =
      (number false (c :: cs)).bind fun x => some (.number x.1, x.2) := by
  rw [value, skipSpace_cons (isSpace_of_isNumeral h)]
  split
  case h_8 => rfl
  all_goals
    next heq =>
      obtain ⟨rfl, -⟩ := List.cons.inj heq
      first
      | exact absurd rfl hminus
      | exact absurd h (by decide)

theorem value_opened :
    value (fuel + 1) (depth + 1) ('[' :: cs) = (match depth + 1, skipSpace cs with
      | 0, _ => none
      | _ + 1, ']' :: r => some (Value.sequence [], r)
      | depth + 1, r => (items fuel depth r).bind fun x => some (.sequence x.1, x.2)) := rfl

/-- A sequence with items. -/
theorem value_bracket {c : Char} (hspace : isSpace c = false) (h : c ≠ ']') :
    value (fuel + 1) (depth + 1) ('[' :: c :: cs) =
      (items fuel depth (c :: cs)).bind fun x => some (.sequence x.1, x.2) := by
  rw [value_opened, skipSpace_cons hspace]
  split
  case h_1 hdepth => cases hdepth
  case h_2 heq => exact absurd (List.cons.inj heq).1 h
  case h_3 hdepth _ =>
    cases hdepth
    rfl

/-- A field after its key. -/
theorem fields_quoted (k : String) : fields (fuel + 1) depth (quoted k ++ ':' :: cs) =
    (value fuel depth cs).bind fun x => match skipSpace x.2 with
      | ',' :: r => (fields fuel depth r).bind fun y => some ((k, x.1) :: y.1, y.2)
      | '\x7d' :: r => some ([(k, x.1)], r)
      | _ => none := by
  obtain ⟨ds, hds, hread⟩ := string_quoted k (':' :: cs)
  rw [hds, fields, skipSpace_cons rfl]
  change (string ds.length.succ ds).bind _ = _
  rw [hread, Option.bind_some]
  change (value fuel depth cs).bind _ = _
  rw [String.ofList_toList]
  rfl

end Equations

theorem takes_value {n : Number} {p : Value} {fuel depth : Nat} {r rest : List Char}
    (hr : Ended r) (h : value (fuel + 1) depth (n.text numberLayout ++ r) = some (p, rest)) :
    p.isMapping = false ∧ Takes rest r := by
  obtain ⟨c, cs, htext⟩ := List.exists_cons_of_ne_nil (text_ne_nil numberLayout n)
  have hnumeral : ∀ d ∈ c :: cs, isNumeral d := fun d hd => isNumeral_of_mem_text (htext ▸ hd)
  obtain ⟨hc, hcs⟩ := List.forall_mem_cons.mp hnumeral
  rw [htext, List.cons_append] at h
  by_cases hminus : c = '-'
  · subst hminus
    rw [value_minus] at h
    obtain ⟨⟨m, _⟩, hm, h⟩ := Option.bind_eq_some_iff.mp h
    cases h
    exact ⟨rfl, (takes_number hm).left ⟨cs, rfl, hcs⟩ hr⟩
  · rw [value_digit fuel depth _ hc hminus] at h
    obtain ⟨⟨m, _⟩, hm, h⟩ := Option.bind_eq_some_iff.mp h
    cases h
    exact ⟨rfl, (takes_number hm).left ⟨c :: cs, rfl, hnumeral⟩ hr⟩

open Value (Within itemsJson fieldsJson)

mutual

theorem within_of_value : (v : Value) → v.WellKeyed → ∀ {fuel depth r rest p}, Ended r →
    value fuel depth (v.jsonChars ++ r) = some (p, rest) → Within p v ∧ Takes rest r
  | _, _, 0, _, _, _, _, _, h => by cases h
  | .null, _, fuel + 1, depth, r, rest, p, _, h => by
      cases h
      exact ⟨.leaf rfl, .refl r⟩
  | .bool true, _, fuel + 1, depth, r, rest, p, _, h => by
      cases h
      exact ⟨.leaf rfl, .refl r⟩
  | .bool false, _, fuel + 1, depth, r, rest, p, _, h => by
      cases h
      exact ⟨.leaf rfl, .refl r⟩
  | .number n, _, fuel + 1, depth, r, rest, p, hr, h => by
      obtain ⟨hp, htakes⟩ := takes_value hr h
      exact ⟨.leaf hp, htakes⟩
  | .string s, _, fuel + 1, depth, r, rest, p, _, h => by
      obtain ⟨cs, hs, hread⟩ := string_quoted s r
      rw [Value.jsonChars, hs, value_quote, hread] at h
      cases h
      exact ⟨.leaf rfl, .refl r⟩
  | .sequence [], _, fuel + 1, depth, r, rest, p, _, h => by
      cases depth with
      | zero => cases h
      | succ depth =>
          cases h
          exact ⟨.leaf rfl, .refl r⟩
  | .sequence (v :: vs), hv, fuel + 1, depth, r, rest, p, hr, h => by
      obtain ⟨c, cs, hc, hspace, hbracket⟩ := Value.exists_jsonChars v
      cases depth with
      | zero => cases h
      | succ depth =>
          rw [Value.jsonChars_sequence_append, hc, List.cons_append,
            value_bracket fuel depth _ hspace hbracket] at h
          obtain ⟨⟨ps, _⟩, hps, h⟩ := Option.bind_eq_some_iff.mp h
          rw [← List.cons_append, ← hc] at hps
          cases h
          have hrest := rest_of_items v vs (Value.wellKeyed_sequence.mp hv) hps
          exact ⟨.leaf rfl, hrest ▸ .refl r⟩
  | .mapping [], _, fuel + 1, depth, r, rest, p, _, h => by
      cases depth with
      | zero => cases h
      | succ depth =>
          cases h
          exact ⟨Value.within_mapping List.nodup_nil nofun, .refl r⟩
  | .mapping ((k, v) :: fs), hv, fuel + 1, depth, r, rest, p, hr, h => by
      cases depth with
      | zero => cases h
      | succ depth =>
          obtain ⟨hkeys, hfields⟩ := Value.wellKeyed_mapping.mp hv
          rw [Value.jsonChars_mapping_append] at h
          obtain ⟨⟨ps, _⟩, hps, h⟩ := Option.bind_eq_some_iff.mp h
          cases h
          obtain ⟨hrest, hwithin⟩ := within_of_fields k v fs hfields hps
          refine ⟨Value.within_mapping hkeys fun e he => hwithin e (Ordered.mem_ofList he), ?_⟩
          exact hrest ▸ .refl r

theorem rest_of_items : (v : Value) → (vs : List Value) → (∀ x ∈ v :: vs, x.WellKeyed) →
    ∀ {fuel depth r rest ps},
      items fuel depth (v.jsonChars ++ (itemsJson vs ++ r)) = some (ps, rest) → rest = r
  | _, _, _, 0, _, _, _, _, h => by cases h
  | v, [], hvs, fuel + 1, depth, r, rest, ps, h => by
      rw [items] at h
      obtain ⟨⟨p, left⟩, hp, h⟩ := Option.bind_eq_some_iff.mp h
      obtain ⟨-, htakes⟩ := within_of_value v (hvs v List.mem_cons_self) (Value.ended_itemsJson [] r) hp
      dsimp only at h
      split at h
      · next heq => cases eq_of_skipSpace htakes rfl rfl heq
      · next heq =>
          cases eq_of_skipSpace htakes rfl rfl heq
          cases h
          rfl
      · cases h
  | v, w :: ws, hvs, fuel + 1, depth, r, rest, ps, h => by
      obtain ⟨hv, hws⟩ := List.forall_mem_cons.mp hvs
      rw [items] at h
      obtain ⟨⟨p, left⟩, hp, h⟩ := Option.bind_eq_some_iff.mp h
      obtain ⟨-, htakes⟩ := within_of_value v hv (Value.ended_itemsJson (w :: ws) r) hp
      rw [Value.itemsJson_cons_append] at htakes
      dsimp only at h
      split at h
      · next heq =>
          cases eq_of_skipSpace htakes rfl rfl heq
          obtain ⟨⟨ps, _⟩, hps, h⟩ := Option.bind_eq_some_iff.mp h
          cases h
          exact rest_of_items w ws hws hps
      · next heq => cases eq_of_skipSpace htakes rfl rfl heq
      · cases h

theorem within_of_fields : (k : String) → (v : Value) → (fs : Fields) →
    (∀ e ∈ (k, v) :: fs, e.2.WellKeyed) → ∀ {fuel depth r rest ps},
      fields fuel depth (quoted k ++ ':' :: (v.jsonChars ++ (fieldsJson fs ++ r))) =
        some (ps, rest) →
      rest = r ∧ ∀ e ∈ ps, ∃ w, (e.1, w) ∈ (k, v) :: fs ∧ Within e.2 w
  | _, _, _, _, 0, _, _, _, _, h => by cases h
  | k, v, [], hfs, fuel + 1, depth, r, rest, ps, h => by
      rw [fields_quoted] at h
      obtain ⟨⟨p, left⟩, hp, h⟩ := Option.bind_eq_some_iff.mp h
      obtain ⟨hwithin, htakes⟩ :=
        within_of_value v (hfs (k, v) List.mem_cons_self) (Value.ended_fieldsJson [] r) hp
      dsimp only at h
      split at h
      · next heq => cases eq_of_skipSpace htakes rfl rfl heq
      · next heq =>
          cases eq_of_skipSpace htakes rfl rfl heq
          cases h
          exact ⟨rfl, List.forall_mem_singleton.mpr ⟨v, List.mem_cons_self, hwithin⟩⟩
      · cases h
  | k, v, (j, w) :: fs, hfs, fuel + 1, depth, r, rest, ps, h => by
      obtain ⟨hv, hfs⟩ := List.forall_mem_cons.mp hfs
      rw [fields_quoted] at h
      obtain ⟨⟨p, left⟩, hp, h⟩ := Option.bind_eq_some_iff.mp h
      obtain ⟨hwithin, htakes⟩ := within_of_value v hv (Value.ended_fieldsJson ((j, w) :: fs) r) hp
      rw [Value.fieldsJson_cons_append] at htakes
      dsimp only at h
      split at h
      · next heq =>
          cases eq_of_skipSpace htakes rfl rfl heq
          obtain ⟨⟨ps, _⟩, hps, h⟩ := Option.bind_eq_some_iff.mp h
          cases h
          obtain ⟨hrest, hall⟩ := within_of_fields j w fs hfs hps
          refine ⟨hrest, List.forall_mem_cons.mpr ⟨⟨v, List.mem_cons_self, hwithin⟩, ?_⟩⟩
          intro e he
          obtain ⟨x, hx, hex⟩ := hall e he
          exact ⟨x, List.mem_cons_of_mem _ hx, hex⟩
      · next heq => cases eq_of_skipSpace htakes rfl rfl heq
      · cases h

end

end Json

namespace Value

/-- The JSON text of a tree is never read as a tree with other fields. -/
theorem within_of_ofJson? {v p : Value} (hv : v.WellKeyed) (h : ofJson? v.toJson = some p) :
    p.Within v := by
  rw [ofJson?, toJson, String.toList_ofList] at h
  obtain ⟨⟨q, rest⟩, hq, h⟩ := Option.bind_eq_some_iff.mp h
  dsimp only at h
  split at h
  · cases h
    rw [← List.append_nil v.jsonChars] at hq
    exact (Json.within_of_value v hv Json.ended_nil hq).1
  · cases h

end Value

end Rollout
