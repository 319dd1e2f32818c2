import Mathlib.Data.List.TakeWhile
import Rollout.Json.Writer
import Rollout.Proofs.Number.Shortest
/-!
The text of a number tells which number it is. What a decimal text stands for can be read off
it, and that is the value of the shortest decimal; whole numbers have no point and no exponent.
-/

namespace Rollout

/-- The number after the mark of an exponent. -/
def Decimal.signed : List Char → Int
  | '-' :: ds => -Nat.ofDigitChars 10 ds 0
  | '+' :: ds => Nat.ofDigitChars 10 ds 0
  | ds => Nat.ofDigitChars 10 ds 0

/-- A text up to the mark of its exponent. -/
def Decimal.mantissa (cs : List Char) : List Char := cs.takeWhile (· ≠ 'e')

def Decimal.exponentOf (cs : List Char) : Int := signed (cs.dropWhile (· ≠ 'e')).tail

/-- How many digits stand after the point. -/
def Decimal.places (cs : List Char) : Nat := (cs.dropWhile (· ≠ '.')).tail.length

/-- What a decimal text without a sign stands for. -/
def Decimal.ofText (cs : List Char) : ℚ :=
  Nat.ofDigitChars 10 ((mantissa cs).filter Char.isDigit) 0 *
    10 ^ (exponentOf cs - places (mantissa cs))

namespace Decimal

variable {m : List Char}

theorem mantissa_eq_self (h : 'e' ∉ m) : mantissa m = m := by
  refine List.takeWhile_eq_self_iff.mpr fun c hc => decide_eq_true ?_
  rintro rfl
  exact h hc

theorem ofText_mantissa (h : 'e' ∉ m) :
    ofText m = Nat.ofDigitChars 10 (m.filter Char.isDigit) 0 * 10 ^ (-(places m : Int)) := by
  have hdrop : m.dropWhile (· ≠ 'e') = [] := by
    rw [List.dropWhile_eq_nil_iff]
    intro c hc
    refine decide_eq_true ?_
    rintro rfl
    exact h hc
  have hexponent : exponentOf m = 0 := by
    rw [exponentOf, hdrop]
    rfl
  rw [ofText, mantissa_eq_self h, hexponent, zero_sub]

theorem ofDigitChars_toDigits (n : Nat) : Nat.ofDigitChars 10 (Nat.toDigits 10 n) 0 = n :=
  Nat.ofDigitChars_toDigits (by decide) (by decide)

theorem isDigit_of_mem_toDigits {n : Nat} {c : Char} (h : c ∈ Nat.toDigits 10 n) : c.isDigit :=
  Nat.isDigit_of_mem_toDigits (by decide) (by decide) h

theorem signed_digits {ds : List Char} (h : ∀ c ∈ ds, c.isDigit) :
    signed ds = Nat.ofDigitChars 10 ds 0 := by
  unfold signed
  split
  · cases h '-' List.mem_cons_self
  · cases h '+' List.mem_cons_self
  · rfl

/-- A whole number can be read off its text. -/
theorem signed_toString (n : Int) : signed (toString n).toList = n := by
  rw [Int.toString_eq_repr, Int.repr_eq_if]
  split
  · rw [Nat.toList_repr, signed_digits fun c hc => isDigit_of_mem_toDigits hc,
      ofDigitChars_toDigits]
    omega
  · rw [String.toList_append, Nat.toList_repr]
    change -((Nat.ofDigitChars 10 (Nat.toDigits 10 (-n).toNat) 0 : Nat) : Int) = n
    rw [ofDigitChars_toDigits]
    omega

theorem signed_exponent (f : DecimalLayout) (e : Int) : signed (f.exponent e).tail = e := by
  rw [DecimalLayout.exponent, List.cons_append, List.tail_cons]
  split
  · next h =>
      have hrepr : (toString e).toList = Nat.toDigits 10 e.toNat := by
        rw [Int.toString_eq_repr, Int.repr_eq_if, if_pos h.2, Nat.toList_repr]
      rw [hrepr]
      change ((Nat.ofDigitChars 10 (Nat.toDigits 10 e.toNat) 0 : Nat) : Int) = e
      rw [ofDigitChars_toDigits]
      omega
  · exact signed_toString e

theorem ofText_exponent (f : DecimalLayout) (h : 'e' ∉ m) (e : Int) :
    ofText (m ++ f.exponent e) =
      Nat.ofDigitChars 10 (m.filter Char.isDigit) 0 * 10 ^ (e - places m) := by
  have hm : ∀ c ∈ m, (decide (c ≠ 'e')) = true := by
    intro c hc
    refine decide_eq_true ?_
    rintro rfl
    exact h hc
  have hmark : f.exponent e = 'e' :: (f.exponent e).tail := rfl
  have hmantissa : mantissa (m ++ f.exponent e) = m := by
    rw [mantissa, List.takeWhile_append_of_pos hm, hmark, List.takeWhile_cons_of_neg (by decide),
      List.append_nil]
  have hexponent : exponentOf (m ++ f.exponent e) = e := by
    rw [exponentOf, List.dropWhile_append_of_pos hm, hmark, List.dropWhile_cons_of_neg (by decide),
      List.tail_cons]
    exact signed_exponent f e
  rw [ofText, hmantissa, hexponent]

theorem isDigit_of_mem_zeros {n : Int} {c : Char} (h : c ∈ zeros n) : c.isDigit := by
  rw [List.eq_of_mem_replicate h]
  rfl

section Digits

variable {w fr : List Char} (hw : ∀ c ∈ w, c.isDigit) (hfr : ∀ c ∈ fr, c.isDigit)

include hw

theorem not_mem_digits {c : Char} (hc : c.isDigit = false) : c ∉ w := by
  intro h
  rw [hw c h] at hc
  cases hc

theorem places_digits : places w = 0 := by
  have hdrop : w.dropWhile (· ≠ '.') = [] := by
    rw [List.dropWhile_eq_nil_iff]
    intro c hc
    refine decide_eq_true ?_
    rintro rfl
    exact not_mem_digits hw rfl hc
  rw [places, hdrop]
  rfl

theorem places_point : places (w ++ '.' :: fr) = fr.length := by
  have hpos : ∀ c ∈ w, (decide (c ≠ '.')) = true := by
    intro c hc
    refine decide_eq_true ?_
    rintro rfl
    exact not_mem_digits hw rfl hc
  rw [places, List.dropWhile_append_of_pos hpos, List.dropWhile_cons_of_neg (by decide),
    List.tail_cons]

include hfr in
theorem filter_point : (w ++ '.' :: fr).filter Char.isDigit = w ++ fr := by
  rw [List.filter_append, List.filter_cons_of_neg (by decide), List.filter_eq_self.mpr hw,
    List.filter_eq_self.mpr hfr]

include hfr in
theorem not_mem_point : 'e' ∉ w ++ '.' :: fr := by
  simp only [List.mem_append, List.mem_cons, not_or]
  exact ⟨not_mem_digits hw rfl, by decide, not_mem_digits hfr rfl⟩

include hfr in
theorem ofText_point :
    ofText (w ++ '.' :: fr) = Nat.ofDigitChars 10 (w ++ fr) 0 * 10 ^ (-(fr.length : Int)) := by
  rw [ofText_mantissa (not_mem_point hw hfr), filter_point hw hfr, places_point hw]

include hfr in
theorem ofText_point_exponent (f : DecimalLayout) (e : Int) :
    ofText (w ++ '.' :: fr ++ f.exponent e) =
      Nat.ofDigitChars 10 (w ++ fr) 0 * 10 ^ (e - fr.length) := by
  rw [ofText_exponent f (not_mem_point hw hfr), filter_point hw hfr, places_point hw]

theorem ofText_digits_exponent (f : DecimalLayout) (e : Int) :
    ofText (w ++ f.exponent e) = Nat.ofDigitChars 10 w 0 * 10 ^ e := by
  rw [ofText_exponent f (not_mem_digits hw rfl), List.filter_eq_self.mpr hw, places_digits hw,
    Nat.cast_zero, sub_zero]

/-- Zeros behind the digits, before the point. -/
theorem ofText_zeros {p : Int} (hp : 0 ≤ p) :
    ofText (w ++ zeros p ++ ['.', '0']) = Nat.ofDigitChars 10 w 0 * 10 ^ p := by
  have hdigits : ∀ c ∈ w ++ zeros p, c.isDigit := by
    intro c hc
    exact (List.mem_append.mp hc).elim (hw c) isDigit_of_mem_zeros
  have hpower : (10 : ℚ) ^ p.toNat = 10 ^ p := by
    rw [← zpow_natCast, Int.toNat_of_nonneg hp]
  have hzero : ['0'] = List.replicate 1 '0' := rfl
  rw [ofText_point hdigits (List.forall_mem_singleton.mpr rfl), hzero, Nat.ofDigitChars_append,
    Nat.ofDigitChars_append, zeros, Nat.ofDigitChars_replicate_zero,
    Nat.ofDigitChars_replicate_zero]
  push_cast
  rw [hpower]
  norm_num
  ring

/-- A point between the digits. -/
theorem ofText_take_drop (n : Nat) :
    ofText (w.take n ++ ['.'] ++ w.drop n) =
      Nat.ofDigitChars 10 w 0 * 10 ^ (-((w.length - n : Nat) : Int)) := by
  rw [List.append_assoc, List.singleton_append,
    ofText_point (fun c hc => hw c (List.mem_of_mem_take hc))
      (fun c hc => hw c (List.mem_of_mem_drop hc)),
    List.take_append_drop, List.length_drop]

/-- Zeros between the point and the digits. -/
theorem ofText_zeros_append (n : Int) :
    ofText (['0', '.'] ++ zeros n ++ w) =
      Nat.ofDigitChars 10 w 0 * 10 ^ (-((n.toNat + w.length : Nat) : Int)) := by
  have hdigits : ∀ c ∈ zeros n ++ w, c.isDigit := by
    intro c hc
    exact (List.mem_append.mp hc).elim isDigit_of_mem_zeros (hw c)
  have htext : ['0', '.'] ++ zeros n ++ w = ['0'] ++ '.' :: (zeros n ++ w) := rfl
  have hzero : ['0'] = List.replicate 1 '0' := rfl
  rw [htext, ofText_point (List.forall_mem_singleton.mpr rfl) hdigits, List.length_append, hzero,
    Nat.ofDigitChars_append, Nat.ofDigitChars_append, zeros, List.length_replicate,
    Nat.ofDigitChars_replicate_zero, Nat.ofDigitChars_replicate_zero, Nat.mul_zero]

end Digits

/-- A text stands for the number that it was made of. -/
theorem ofText_lay (f : DecimalLayout) (d : Decimal) : ofText (f.lay d) = d.value := by
  have hds : ∀ c ∈ Nat.toDigits 10 d.digits, c.isDigit := fun c hc => isDigit_of_mem_toDigits hc
  have hread := ofDigitChars_toDigits d.digits
  have hnil : Nat.toDigits 10 d.digits ≠ [] := Nat.toDigits_ne_nil
  unfold DecimalLayout.lay Decimal.value
  generalize Nat.toDigits 10 d.digits = ds at hds hread hnil
  dsimp only
  split
  · next h => rw [ofText_zeros hds h.1, hread]
  split
  · next h =>
      have hpower : -((ds.length - (ds.length + d.power).toNat : Nat) : Int) = d.power := by omega
      rw [ofText_take_drop hds, hread, hpower]
  split
  · next h =>
      have hpower : -(((-(ds.length + d.power)).toNat + ds.length : Nat) : Int) = d.power := by
        omega
      rw [ofText_zeros_append hds, hread, hpower]
  split
  · next first second rest _ _ _ =>
      obtain ⟨hfirst, hrest⟩ := List.forall_mem_cons.mp hds
      have hpower : ((first :: second :: rest).length + d.power - 1 : Int) -
          (second :: rest).length = d.power := by
        rw [List.length_cons (a := first)]
        omega
      have htext (e : List Char) : first :: '.' :: second :: rest ++ e =
          [first] ++ '.' :: (second :: rest) ++ e := rfl
      rw [htext, ofText_point_exponent (List.forall_mem_singleton.mpr hfirst) hrest, hpower,
        List.singleton_append, hread]
  · next hlong =>
      have hlen : ds.length = 1 := by
        match ds, hnil, hlong with
        | [_], _, _ => rfl
        | first :: second :: rest, _, hlong => exact absurd rfl (hlong first second rest)
      rw [ofText_digits_exponent hds, hread, hlen, Nat.cast_one, add_sub_cancel_left]

theorem value_strip (fuel n : Nat) (p : Int) :
    (Binary64.trimZeros.strip fuel n p).value = n * 10 ^ p := by
  induction fuel generalizing n p with
  | zero => rfl
  | succ fuel ih =>
      rw [Binary64.trimZeros.strip]
      split
      · next h =>
          have hn : (n : ℚ) = (n / 10 : Nat) * 10 := by
            have : n = n / 10 * 10 := by omega
            exact_mod_cast this
          rw [ih, zpow_add₀ (by norm_num), zpow_one, hn]
          ring
      · rfl

/-- Zeros at the end do not change what a decimal stands for. -/
theorem value_trimZeros (d : Decimal) : (Binary64.trimZeros d).value = d.value :=
  value_strip 400 d.digits d.power

/-- Every text of a decimal begins with a digit. -/
theorem exists_lay (f : DecimalLayout) (d : Decimal) : ∃ c cs, f.lay d = c :: cs ∧ c.isDigit := by
  have hds : ∀ c ∈ Nat.toDigits 10 d.digits, c.isDigit := fun c hc => isDigit_of_mem_toDigits hc
  obtain ⟨c, ds, hcons⟩ := List.exists_cons_of_ne_nil (Nat.toDigits_ne_nil (b := 10) (n := d.digits))
  have hc : c.isDigit := hds c (hcons ▸ List.mem_cons_self)
  unfold DecimalLayout.lay
  dsimp only
  rw [hcons]
  split
  · exact ⟨c, _, rfl, hc⟩
  split
  · next h =>
      obtain ⟨k, hk⟩ : ∃ k, ((c :: ds).length + d.power).toNat = k + 1 :=
        ⟨((c :: ds).length + d.power).toNat - 1, by omega⟩
      rw [hk]
      exact ⟨c, _, rfl, hc⟩
  split
  · exact ⟨'0', _, rfl, rfl⟩
  split
  · next heq =>
      obtain ⟨rfl, -⟩ := List.cons.inj heq
      exact ⟨c, _, rfl, hc⟩
  · exact ⟨c, _, rfl, hc⟩

/-- A decimal text has a point or an exponent. -/
theorem exists_mark (f : DecimalLayout) (d : Decimal) :
    ∃ c ∈ f.lay d, c = '.' ∨ c = 'e' := by
  unfold DecimalLayout.lay
  dsimp only
  split
  · exact ⟨'.', by simp, .inl rfl⟩
  split
  · exact ⟨'.', by simp, .inl rfl⟩
  split
  · exact ⟨'.', by simp, .inl rfl⟩
  split
  · exact ⟨'.', by simp, .inl rfl⟩
  · exact ⟨'e', by simp [DecimalLayout.exponent], .inr rfl⟩

end Decimal

namespace Binary64

variable {x y : Binary64} {f : DecimalLayout}

/-- The text without the sign. -/
def unsigned (f : DecimalLayout) (x : Binary64) : List Char :=
  if x.isZero then ['0', '.', '0'] else f.lay (trimZeros x.shortest)

theorem exists_unsigned (f : DecimalLayout) (x : Binary64) :
    ∃ c cs, x.unsigned f = c :: cs ∧ c.isDigit := by
  unfold unsigned
  split
  · exact ⟨'0', _, rfl, rfl⟩
  · exact Decimal.exists_lay f _

theorem value_shortest_pos (hx : x.Normal) (hpos : 0 < x.significand) : 0 < x.shortest.value := by
  have hreads := readsBack_shortest hx hpos
  have hlower : 0 < x.lower := by
    have hm : (1 : ℚ) ≤ x.significand := by exact_mod_cast hpos
    refine mul_pos ?_ (by positivity)
    rcases reach_cases x with ⟨hr, -⟩ | ⟨hr, -⟩ <;> rw [hr] <;> push_cast <;> linarith
  rw [readsBack_iff hpos] at hreads
  split at hreads <;> linarith

theorem ofText_unsigned (f : DecimalLayout) (x : Binary64) :
    Decimal.ofText (x.unsigned f) = if x.significand = 0 then 0 else x.shortest.value := by
  unfold unsigned
  by_cases hx : x.significand = 0
  · rw [if_pos (by simpa [isZero] using hx), if_pos hx]
    have hzero : Decimal.ofText ['0', '.', '0'] = _ :=
      @Decimal.ofText_point ['0'] ['0'] (List.forall_mem_singleton.mpr rfl)
        (List.forall_mem_singleton.mpr rfl)
    rw [hzero]
    norm_num [Nat.ofDigitChars]
  · rw [if_neg (by simpa [isZero] using hx), if_neg hx, Decimal.ofText_lay, Decimal.value_trimZeros]

/-- The text without the sign tells the number without its sign. -/
theorem eq_of_unsigned (hx : x.Normal) (hy : y.Normal) (h : x.unsigned f = y.unsigned f) :
    x.significand = y.significand ∧ x.exponent = y.exponent := by
  have hvalue := congrArg Decimal.ofText h
  rw [ofText_unsigned, ofText_unsigned] at hvalue
  by_cases hxzero : x.significand = 0
  · by_cases hyzero : y.significand = 0
    · have hxe := hx.full
      have hye := hy.full
      omega
    · rw [if_pos hxzero, if_neg hyzero] at hvalue
      exact absurd hvalue (value_shortest_pos hy (Nat.pos_of_ne_zero hyzero)).ne
  · by_cases hyzero : y.significand = 0
    · rw [if_neg hxzero, if_pos hyzero] at hvalue
      exact absurd hvalue (value_shortest_pos hx (Nat.pos_of_ne_zero hxzero)).ne'
    · rw [if_neg hxzero, if_neg hyzero] at hvalue
      have hxpos := Nat.pos_of_ne_zero hxzero
      have hypos := Nat.pos_of_ne_zero hyzero
      exact eq_of_readsBack hx hy hxpos hypos (readsBack_shortest hx hxpos)
        (readsBack_shortest hy hypos) hvalue

/-- Different numbers have different texts. -/
theorem text_injective (hx : x.Normal) (hy : y.Normal) (h : x.text f = y.text f) : x = y := by
  obtain ⟨c, cs, hc, hdigit⟩ := exists_unsigned f x
  obtain ⟨d, ds, hd, hdigit'⟩ := exists_unsigned f y
  have hsign {c : Char} (hc : c.isDigit) : c ≠ '-' := by
    rintro rfl
    cases hc
  change (if x.negative then ['-'] else []) ++ x.unsigned f =
    (if y.negative then ['-'] else []) ++ y.unsigned f at h
  have hboth : x.negative = y.negative ∧ x.unsigned f = y.unsigned f := by
    cases hxn : x.negative <;> cases hyn : y.negative <;>
      simp only [hxn, hyn, if_true, Bool.false_eq_true, if_false, List.nil_append,
        List.singleton_append] at h
    · exact ⟨rfl, h⟩
    · rw [hc] at h
      exact absurd (List.cons.inj h).1 (hsign hdigit)
    · rw [hd] at h
      exact absurd (List.cons.inj h).1.symm (hsign hdigit')
    · exact ⟨rfl, (List.cons.inj h).2⟩
  obtain ⟨hsignificand, hexponent⟩ := eq_of_unsigned hx hy hboth.2
  obtain ⟨n, m, e⟩ := x
  obtain ⟨n', m', e'⟩ := y
  obtain rfl : n = n' := hboth.1
  obtain rfl : m = m' := hsignificand
  obtain rfl : e = e' := hexponent
  rfl

end Binary64

namespace Number

variable {f : DecimalLayout}

/-- Floating-point numbers are in their one form. -/
def Normal : Number → Prop
  | whole _ => True
  | float x => x.Normal

theorem isDigit_or_of_mem_toString {n : Int} {c : Char} (h : c ∈ (toString n).toList) :
    c.isDigit ∨ c = '-' := by
  rw [Int.toString_eq_repr, Int.repr_eq_if] at h
  split at h
  · rw [Nat.toList_repr] at h
    exact .inl (Decimal.isDigit_of_mem_toDigits h)
  · rw [String.toList_append, Nat.toList_repr, List.mem_append] at h
    rcases h with h | h
    · exact .inr (List.mem_singleton.mp h)
    · exact .inl (Decimal.isDigit_of_mem_toDigits h)

theorem toString_ne_nil (n : Int) : (toString n).toList ≠ [] := by
  rw [Int.toString_eq_repr, Int.repr_eq_if]
  split
  · rw [Nat.toList_repr]
    exact Nat.toDigits_ne_nil
  · rw [String.toList_append]
    exact List.append_ne_nil_of_left_ne_nil (by decide) _

theorem exists_mark_text (f : DecimalLayout) (x : Binary64) :
    ∃ c ∈ (float x).text f, c = '.' ∨ c = 'e' := by
  have hunsigned : ∃ c ∈ x.unsigned f, c = '.' ∨ c = 'e' := by
    unfold Binary64.unsigned
    split
    · exact ⟨'.', by simp, .inl rfl⟩
    · exact Decimal.exists_mark f _
  obtain ⟨c, hc, hmark⟩ := hunsigned
  exact ⟨c, List.mem_append_right _ hc, hmark⟩

theorem text_whole_ne_text_float (n : Int) (x : Binary64) :
    (whole n).text f ≠ (float x).text f := by
  intro h
  obtain ⟨c, hc, hmark⟩ := exists_mark_text f x
  rw [← h] at hc
  rcases isDigit_or_of_mem_toString hc with hdigit | rfl
  · rcases hmark with rfl | rfl <;> cases hdigit
  · rcases hmark with hmark | hmark <;> cases hmark

/-- Different numbers have different texts; a whole number is never written as a floating-point
number is. -/
theorem text_injective {m n : Number} (hm : m.Normal) (hn : n.Normal)
    (h : m.text f = n.text f) : m = n := by
  cases m with
  | whole m =>
      cases n with
      | whole n =>
          have hread := congrArg Decimal.signed h
          rw [text, text, Decimal.signed_toString, Decimal.signed_toString] at hread
          exact congrArg whole hread
      | float y => exact absurd h (text_whole_ne_text_float m y)
  | float x =>
      cases n with
      | whole n => exact absurd h.symm (text_whole_ne_text_float n x)
      | float y => exact congrArg float (Binary64.text_injective hm hn h)

end Number

end Rollout
