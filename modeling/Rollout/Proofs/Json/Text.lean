import Rollout.Json.Reader
import Rollout.Json.Writer
import Rollout.Proofs.Number.Text
/-!
The parts of a JSON text: strings, which are read as they were written, and numbers, of which
no more is known than the characters they are made of.
-/

namespace Rollout.Json

theorem hexValue_hexDigit : ∀ n < 16, hexValue (hexDigit n) = some n := by decide

theorem hexQuad_control {n : Nat} (h : n < 32) (r : List Char) :
    hexQuad ('0' :: '0' :: hexDigit (n / 16) :: hexDigit (n % 16) :: r) = some (n, r) := by
  have hzero : hexValue '0' = some 0 := by decide
  have hhigh := hexValue_hexDigit (n / 16) (by omega)
  have hlow := hexValue_hexDigit (n % 16) (by omega)
  have hn : (0 * 16 + 0) * 256 + n / 16 * 16 + n % 16 = n := by omega
  rw [hexQuad]
  simp only [hzero, hhigh, hlow, Option.bind_eq_bind, Option.bind_some, Option.pure_def, hn]

theorem character_self {c : Char} (hspace : ¬ c < ' ') (hslash : c ≠ '\\') (r : List Char) :
    character (c :: r) = some (c, r) := by
  rw [character.eq_def]
  split
  · next h => exact absurd (List.cons.inj h).1 hslash
  · next h => exact absurd (List.cons.inj h).1 hslash
  · next h =>
      obtain ⟨rfl, rfl⟩ := List.cons.inj h
      rw [if_neg (not_or.mpr ⟨hspace, hslash⟩)]
  · next h => cases h

/-- A character is read as it was written. -/
theorem character_escape (c : Char) (r : List Char) : character (escape c ++ r) = some (c, r) := by
  unfold escape
  iterate 7
    split
    · next h =>
        subst h
        rfl
  split
  · next hspace =>
      have hn : c.toNat < 32 := hspace
      change (hexQuad ('0' :: '0' :: hexDigit (c.toNat / 16) :: hexDigit (c.toNat % 16) :: r)).bind
        _ = _
      rw [hexQuad_control hn, Option.bind_some]
      dsimp only
      rw [if_pos (Or.inl (by omega)), Char.ofNat_toNat]
  · next hslash _ _ _ _ _ hspace => exact character_self hspace hslash r

/-- No character is written so that it would close the string. -/
theorem exists_escape (c : Char) : ∃ d cs, escape c = d :: cs ∧ d ≠ '"' := by
  unfold escape
  split
  · exact ⟨_, _, rfl, by decide⟩
  · next hquote =>
      iterate 7
        split
        · exact ⟨_, _, rfl, by decide⟩
      exact ⟨c, [], rfl, hquote⟩

/-- A string is read as it was written, up to its closing quote. -/
theorem string_flatMap_escape (s r : List Char) {fuel : Nat} (h : s.length < fuel) :
    string fuel (s.flatMap escape ++ '"' :: r) = some (s, r) := by
  induction s generalizing fuel with
  | nil =>
      cases fuel with
      | zero => cases h
      | succ fuel => rfl
  | cons c s ih =>
      cases fuel with
      | zero => cases h
      | succ fuel =>
          obtain ⟨d, cs, hescape, hquote⟩ := exists_escape c
          have hread := character_escape c (s.flatMap escape ++ '"' :: r)
          rw [List.flatMap_cons, List.append_assoc]
          rw [hescape] at hread ⊢
          rw [List.cons_append] at hread ⊢
          rw [string]
          · rw [hread, Option.bind_eq_bind, Option.bind_some]
            dsimp only
            rw [ih (Nat.lt_of_succ_lt_succ h)]
            rfl
          · rintro r' hr'
            exact hquote (List.cons.inj hr').1

theorem length_le_length_flatMap_escape (s : List Char) :
    s.length ≤ (s.flatMap escape).length := by
  induction s with
  | nil => exact Nat.zero_le _
  | cons c s ih =>
      obtain ⟨d, cs, hescape, -⟩ := exists_escape c
      rw [List.flatMap_cons, hescape, List.cons_append, List.length_cons, List.length_cons,
        List.length_append]
      omega

/-- What follows an opening quote is read as it was written. -/
theorem string_quoted (s : String) (r : List Char) :
    ∃ cs, quoted s ++ r = '"' :: cs ∧ string cs.length.succ cs = some (s.toList, r) := by
  refine ⟨s.toList.flatMap escape ++ '"' :: r, ?_, string_flatMap_escape s.toList r ?_⟩
  · rw [quoted, List.cons_append, List.cons_append, List.append_assoc]
    rfl
  · have hle := length_le_length_flatMap_escape s.toList
    rw [List.length_append]
    omega

/-- A string ends where its text does, so it is told by the beginning of a longer text. -/
theorem quoted_append_inj {s t : String} {r r' : List Char} (h : quoted s ++ r = quoted t ++ r') :
    s = t ∧ r = r' := by
  obtain ⟨cs, hs, hread⟩ := string_quoted s r
  obtain ⟨ds, ht, hread'⟩ := string_quoted t r'
  obtain rfl : cs = ds := by simpa [hs, ht] using h
  obtain ⟨hst, hr⟩ := Prod.mk.inj (Option.some.inj (hread.symm.trans hread'))
  exact ⟨String.toList_inj.mp hst, hr⟩

/-- The characters that numbers are made of. -/
def isNumeral (c : Char) : Bool := c.isDigit || ['-', '+', '.', 'e', 'E'].contains c

theorem isNumeral_of_isDigit {c : Char} (h : c.isDigit) : isNumeral c := by
  rw [isNumeral, h, Bool.true_or]

theorem isNumeral_of_mem_toDigits {n : Nat} {c : Char} (h : c ∈ Nat.toDigits 10 n) :
    isNumeral c :=
  isNumeral_of_isDigit (Decimal.isDigit_of_mem_toDigits h)

theorem isNumeral_of_mem_toString {n : Int} {c : Char} (h : c ∈ (toString n).toList) :
    isNumeral c := by
  rcases Number.isDigit_or_of_mem_toString h with h | rfl
  · exact isNumeral_of_isDigit h
  · decide

theorem isNumeral_of_mem_zeros {n : Int} {c : Char} (h : c ∈ zeros n) : isNumeral c :=
  isNumeral_of_isDigit (Decimal.isDigit_of_mem_zeros h)

theorem isNumeral_of_mem_exponent {f : DecimalLayout} {e : Int} {c : Char}
    (h : c ∈ f.exponent e) : isNumeral c := by
  rw [DecimalLayout.exponent, List.cons_append, List.mem_cons, List.mem_append] at h
  rcases h with rfl | h | h
  · decide
  · split at h
    · obtain rfl := List.mem_singleton.mp h
      decide
    · cases h
  · exact isNumeral_of_mem_toString h

theorem isNumeral_of_mem_lay {f : DecimalLayout} {d : Decimal} {c : Char} (h : c ∈ f.lay d) :
    isNumeral c := by
  have hdigits {c : Char} (hc : c ∈ Nat.toDigits 10 d.digits) := isNumeral_of_mem_toDigits hc
  have hpoint : isNumeral '.' := by decide
  have hzero : isNumeral '0' := by decide
  unfold DecimalLayout.lay at h
  dsimp only at h
  split at h
  · simp only [List.mem_append, List.mem_cons, List.not_mem_nil, or_false] at h
    rcases h with (h | h) | rfl | rfl
    · exact hdigits h
    · exact isNumeral_of_mem_zeros h
    · exact hpoint
    · exact hzero
  split at h
  · simp only [List.mem_append, List.mem_cons, List.not_mem_nil, or_false] at h
    rcases h with (h | rfl) | h
    · exact hdigits (List.mem_of_mem_take h)
    · exact hpoint
    · exact hdigits (List.mem_of_mem_drop h)
  split at h
  · simp only [List.mem_append, List.mem_cons, List.not_mem_nil, or_false] at h
    rcases h with ((rfl | rfl) | h) | h
    · exact hzero
    · exact hpoint
    · exact isNumeral_of_mem_zeros h
    · exact hdigits h
  split at h
  · next first second rest heq =>
      simp only [List.cons_append, List.mem_cons, List.mem_append] at h
      rcases h with rfl | rfl | rfl | h | h
      · exact hdigits (heq ▸ List.mem_cons_self)
      · exact hpoint
      · exact hdigits (heq ▸ List.mem_cons_of_mem _ List.mem_cons_self)
      · exact hdigits (heq ▸ List.mem_cons_of_mem _ (List.mem_cons_of_mem _ h))
      · exact isNumeral_of_mem_exponent h
  · rcases List.mem_append.mp h with h | h
    · exact hdigits h
    · exact isNumeral_of_mem_exponent h

theorem isNumeral_of_mem_text {f : DecimalLayout} {n : Number} {c : Char} (h : c ∈ n.text f) :
    isNumeral c := by
  cases n with
  | whole n => exact isNumeral_of_mem_toString h
  | float x =>
      rw [Number.text, Binary64.text, List.mem_append] at h
      rcases h with h | h
      · split at h
        · obtain rfl := List.mem_singleton.mp h
          decide
        · cases h
      · split at h
        · simp only [List.mem_cons, List.not_mem_nil, or_false] at h
          rcases h with rfl | rfl | rfl <;> decide
        · exact isNumeral_of_mem_lay h

theorem text_ne_nil (f : DecimalLayout) (n : Number) : n.text f ≠ [] := by
  cases n with
  | whole n => exact Number.toString_ne_nil n
  | float x =>
      obtain ⟨c, cs, hunsigned, -⟩ := x.exists_unsigned f
      change (if x.negative then ['-'] else []) ++ x.unsigned f ≠ []
      rw [hunsigned]
      exact List.append_ne_nil_of_right_ne_nil _ (List.cons_ne_nil c cs)

/-- A number cannot go on with the text. -/
def Ended (r : List Char) : Prop := ∀ c ∈ r.head?, isNumeral c = false

theorem ended_nil : Ended [] := by
  intro c hc
  cases hc

theorem isSpace_of_isNumeral {c : Char} (h : isNumeral c) : isSpace c = false := by
  rw [Bool.eq_false_iff]
  intro hspace
  simp only [isSpace, Bool.or_eq_true, decide_eq_true_eq] at hspace
  rcases hspace with ((rfl | rfl) | rfl) | rfl <;> exact absurd h (by decide)

end Rollout.Json

namespace Rollout.Value

theorem jsonChars_sequence_append (v : Value) (vs : List Value) (r : List Char) :
    (Value.sequence (v :: vs)).jsonChars ++ r = '[' :: (v.jsonChars ++ (itemsJson vs ++ r)) := by
  simp [jsonChars]

theorem itemsJson_cons_append (v : Value) (vs : List Value) (r : List Char) :
    itemsJson (v :: vs) ++ r = ',' :: (v.jsonChars ++ (itemsJson vs ++ r)) := by
  simp [itemsJson]

theorem jsonChars_mapping_append (k : String) (v : Value) (fs : Fields) (r : List Char) :
    (Value.mapping ((k, v) :: fs)).jsonChars ++ r =
      '\x7b' :: (Json.quoted k ++ ':' :: (v.jsonChars ++ (fieldsJson fs ++ r))) := by
  simp [jsonChars]

theorem fieldsJson_cons_append (k : String) (v : Value) (fs : Fields) (r : List Char) :
    fieldsJson ((k, v) :: fs) ++ r =
      ',' :: (Json.quoted k ++ ':' :: (v.jsonChars ++ (fieldsJson fs ++ r))) := by
  simp [fieldsJson]

/-- A text begins with a character of its own, never with a space or a closing bracket. -/
theorem exists_jsonChars (v : Value) :
    ∃ c cs, v.jsonChars = c :: cs ∧ Json.isSpace c = false ∧ c ≠ ']' := by
  match v with
  | .null | .bool true | .bool false | .sequence [] | .sequence (_ :: _) | .mapping []
  | .mapping (_ :: _) | .string _ => exact ⟨_, _, rfl, by decide, by decide⟩
  | .number n =>
      obtain ⟨c, cs, htext⟩ := List.exists_cons_of_ne_nil (Json.text_ne_nil Json.numberLayout n)
      have hc : Json.isNumeral c := Json.isNumeral_of_mem_text (htext ▸ List.mem_cons_self)
      refine ⟨c, cs, htext, Json.isSpace_of_isNumeral hc, ?_⟩
      rintro rfl
      exact absurd hc (by decide)

theorem ended_itemsJson (vs : List Value) (r : List Char) : Json.Ended (itemsJson vs ++ r) := by
  cases vs with
  | nil | cons v vs =>
      rintro c ⟨⟩
      decide

theorem ended_fieldsJson (fs : Fields) (r : List Char) : Json.Ended (fieldsJson fs ++ r) := by
  cases fs with
  | nil | cons e fs =>
      rintro c ⟨⟩
      decide

end Rollout.Value
