import Rollout.Proofs.Number.Shortest
/-!
Rounding leaves every number in its one form.
-/

namespace Rollout

theorem roundHalfEven_le {num den b : Nat} (h : num < den * b) : roundHalfEven num den ≤ b := by
  have hdiv : num / den < b := Nat.div_lt_of_lt_mul h
  unfold roundHalfEven
  dsimp only
  split <;> omega

theorem le_roundHalfEven {num den b : Nat} (hden : 0 < den) (h : den * b ≤ num) :
    b ≤ roundHalfEven num den := by
  have hdiv : b ≤ num / den := (Nat.le_div_iff_mul_le hden).mpr (Nat.mul_comm den b ▸ h)
  unfold roundHalfEven
  dsimp only
  split <;> omega

namespace Binary64

variable {num den : Nat}

theorem scaled_pos (num : Nat) (hden : 0 < den) (q : Int) : 0 < (scaled num den q).2 :=
  (lowered_eq (b := 2) (by decide) num hden q (r := scaled num den q) rfl).1

/-- A quotient over a power of two, compared with a natural number. -/
theorem scaled_lt_iff (hden : 0 < den) (q : Int) (b : Nat) :
    (scaled num den q).1 < (scaled num den q).2 * b ↔ (num : ℚ) < b * den * 2 ^ q := by
  obtain ⟨hpos, hvalue⟩ := lowered_eq (b := 2) (by decide) num hden q
    (r := scaled num den q) rfl
  have hd : (0 : ℚ) < (scaled num den q).2 := Nat.cast_pos.mpr hpos
  have hden' : (0 : ℚ) < den := Nat.cast_pos.mpr hden
  have hp : (0 : ℚ) < 2 ^ q := by positivity
  rw [← Nat.cast_lt (α := ℚ), Nat.cast_mul, hvalue, mul_comm ((scaled num den q).2 : ℚ),
    mul_lt_mul_iff_left₀ hd, Nat.cast_ofNat, div_lt_iff₀ hp, div_lt_iff₀ hden']
  ring_nf

/-- The exponent that is tried first leaves 52 or 53 bits before the point. -/
theorem log2_bounds (hnum : num ≠ 0) (hden : den ≠ 0) :
    (2 : ℚ) ^ 52 * den * 2 ^ ((num.log2 : Int) - den.log2 - 52 - 1) ≤ num ∧
      (num : ℚ) < 2 ^ 53 * den * 2 ^ ((num.log2 : Int) - den.log2 - 52) := by
  have hnumlo : (2 : ℚ) ^ num.log2 ≤ num := by exact_mod_cast Nat.log2_self_le hnum
  have hnumhi : (num : ℚ) < 2 ^ (num.log2 + 1) := by exact_mod_cast Nat.lt_log2_self
  have hdenlo : (2 : ℚ) ^ den.log2 ≤ den := by exact_mod_cast Nat.log2_self_le hden
  have hdenhi : (den : ℚ) < 2 ^ (den.log2 + 1) := by exact_mod_cast Nat.lt_log2_self
  have hzpow (e : Int) : (0 : ℚ) < 2 ^ e := by positivity
  have hsplit (a b : Int) : (2 : ℚ) ^ (a + b) = 2 ^ a * 2 ^ b := zpow_add₀ (by norm_num) a b
  constructor
  · calc (2 : ℚ) ^ 52 * den * 2 ^ ((num.log2 : Int) - den.log2 - 52 - 1)
        ≤ 2 ^ 52 * 2 ^ (den.log2 + 1) * 2 ^ ((num.log2 : Int) - den.log2 - 52 - 1) := by
          gcongr
      _ = 2 ^ ((52 : Int) + (den.log2 + 1) + (num.log2 - den.log2 - 52 - 1)) := by
          rw [hsplit, hsplit]
          norm_cast
      _ = 2 ^ (num.log2 : Int) := by
          congr 1
          ring
      _ ≤ num := by rwa [zpow_natCast]
  · calc (num : ℚ) < 2 ^ (num.log2 + 1) := hnumhi
      _ = 2 ^ ((53 : Int) + den.log2 + (num.log2 - den.log2 - 52)) := by
          rw [← zpow_natCast]
          congr 1
          push_cast
          ring
      _ = 2 ^ 53 * 2 ^ den.log2 * 2 ^ ((num.log2 : Int) - den.log2 - 52) := by
          rw [hsplit, hsplit]
          norm_cast
      _ ≤ 2 ^ 53 * den * 2 ^ ((num.log2 : Int) - den.log2 - 52) := by
          gcongr

/-- With the chosen exponent there are 53 bits before the point, or the exponent is the least. -/
theorem exponentOf_bounds (hnum : num ≠ 0) (hden : den ≠ 0) :
    (num : ℚ) < 2 ^ 53 * den * 2 ^ exponentOf num den ∧ -1074 ≤ exponentOf num den ∧
      ((2 : ℚ) ^ 52 * den * 2 ^ exponentOf num den ≤ num ∨ exponentOf num den = -1074) := by
  obtain ⟨hlow, hhigh⟩ := log2_bounds hnum hden
  have hdenpos : (0 : ℚ) < den := Nat.cast_pos.mpr (Nat.pos_of_ne_zero hden)
  have htest := @scaled_lt_iff num den (Nat.pos_of_ne_zero hden)
    ((num.log2 : Int) - den.log2 - 52) (Nat.pow 2 52)
  unfold exponentOf
  dsimp only
  generalize (num.log2 : Int) - den.log2 - 52 = guess at *
  obtain ⟨q, hq, hqlow, hqhigh⟩ : ∃ q, q = (if (scaled num den guess).1 <
        (scaled num den guess).2 * Nat.pow 2 52 then guess - 1 else guess) ∧
      (2 : ℚ) ^ 52 * den * 2 ^ q ≤ num ∧ (num : ℚ) < 2 ^ 53 * den * 2 ^ q := by
    refine ⟨_, rfl, ?_⟩
    have hdouble : (2 : ℚ) ^ guess = 2 * 2 ^ (guess - 1) := by
      rw [← zpow_one_add₀ (by norm_num)]
      congr 1
      ring
    split
    · next hlt =>
        rw [htest, hdouble] at hlt
        refine ⟨hlow, hlt.trans_eq ?_⟩
        push_cast [Nat.pow_eq]
        ring
    · next hge =>
        rw [htest, not_lt] at hge
        refine ⟨?_, hhigh⟩
        push_cast [Nat.pow_eq] at hge
        exact hge
  rw [← hq]
  refine ⟨hqhigh.trans_le ?_, le_max_right _ _, ?_⟩
  · gcongr
    · norm_num
    · exact le_max_left _ _
  · rcases le_total q (-1074) with hle | hle
    · exact .inr (max_eq_right hle)
    · rw [max_eq_left hle]
      exact .inl hqlow

theorem normal_zero (negative : Bool) : (zero negative).Normal :=
  ⟨Nat.two_pow_pos 53, Int.le_refl _, .inr rfl⟩

/-- What a quotient other than zero is rounded to: its significand with the chosen exponent, or
the least of 53 bits with the next exponent where rounding carries. -/
theorem eq_of_ofRatio? {negative : Bool} {x : Binary64} {q : Int} {m : Nat}
    (hnum : num ≠ 0) (hq : exponentOf num den = q)
    (hm : roundHalfEven (scaled num den q).1 (scaled num den q).2 = m)
    (h : ofRatio? negative num den = some x) :
    x = if m = 2 ^ 53 then ⟨negative, 2 ^ 52, q + 1⟩ else ⟨negative, m, q⟩ := by
  -- Variables in place of what would be computed when the pairs are taken apart.
  obtain ⟨full, hfull⟩ : ∃ n, Nat.pow 2 53 = n := ⟨_, rfl⟩
  obtain ⟨half, hhalf⟩ : ∃ n, Nat.pow 2 52 = n := ⟨_, rfl⟩
  unfold ofRatio? at h
  rw [if_neg hnum, hq, hfull, hhalf] at h
  dsimp only at h
  rw [hm, Option.ite_none_left_eq_some] at h
  obtain rfl := Option.some.inj h.2
  rw [Nat.pow_eq] at hfull hhalf
  rw [hfull, hhalf]
  split <;> rfl

/-- A rounded quotient is in the one form. -/
theorem normal_ofRatio? {negative : Bool} {x : Binary64} (hden : den ≠ 0)
    (h : ofRatio? negative num den = some x) : x.Normal := by
  by_cases hnum : num = 0
  · rw [ofRatio?, if_pos hnum] at h
    obtain rfl := Option.some.inj h
    exact normal_zero negative
  have hpos : 0 < den := Nat.pos_of_ne_zero hden
  obtain ⟨hlt, hle, hlow⟩ := exponentOf_bounds hnum hden
  obtain ⟨q, hq⟩ : ∃ q, exponentOf num den = q := ⟨_, rfl⟩
  rw [hq] at hlt hle hlow
  rw [eq_of_ofRatio? hnum hq rfl h]
  split
  · exact ⟨Nat.pow_lt_pow_right (by decide) (by decide), hle.trans (Int.le_add_one le_rfl),
      .inl le_rfl⟩
  · next hcarry =>
      refine ⟨lt_of_le_of_ne ?_ hcarry, hle, hlow.imp_left fun hlow => ?_⟩
      · refine roundHalfEven_le ((scaled_lt_iff hpos q (2 ^ 53)).mpr ?_)
        rwa [Nat.cast_pow, Nat.cast_ofNat]
      · refine le_roundHalfEven (scaled_pos num hpos q) ?_
        rwa [← not_lt, scaled_lt_iff hpos, not_lt, Nat.cast_pow, Nat.cast_ofNat]

/-- A quotient of one or more is not rounded to zero. -/
theorem significand_pos_of_ofRatio? {negative : Bool} {x : Binary64} (hden : den ≠ 0)
    (hle : den ≤ num) (h : ofRatio? negative num den = some x) : 0 < x.significand := by
  have hpos : 0 < den := Nat.pos_of_ne_zero hden
  have hnum : num ≠ 0 := (hpos.trans_le hle).ne'
  obtain ⟨-, -, hlow⟩ := exponentOf_bounds hnum hden
  obtain ⟨q, hq⟩ : ∃ q, exponentOf num den = q := ⟨_, rfl⟩
  rw [hq] at hlow
  rw [eq_of_ofRatio? hnum hq rfl h]
  split
  · exact Nat.two_pow_pos 52
  refine le_roundHalfEven (b := 1) (scaled_pos num hpos q) ?_
  rw [← not_lt, scaled_lt_iff hpos, not_lt, Nat.cast_one, one_mul]
  have hden' : (0 : ℚ) ≤ den * 2 ^ q := by positivity
  rcases hlow with hlow | rfl
  · calc (den : ℚ) * 2 ^ q ≤ 2 ^ 52 * (den * 2 ^ q) := le_mul_of_one_le_left hden' (by norm_num)
      _ = 2 ^ 52 * den * 2 ^ q := (mul_assoc _ _ _).symm
      _ ≤ num := hlow
  · calc (den : ℚ) * 2 ^ (-1074 : Int) ≤ den * 1 := by
          gcongr
          exact zpow_le_one_of_nonpos₀ (by norm_num) (by norm_num)
      _ = den := mul_one _
      _ ≤ num := Nat.cast_le.mpr hle

/-- What a decimal is read as is in the one form. -/
theorem normal_ofDecimal? {negative : Bool} {digits : Nat} {power : Int} {x : Binary64}
    (h : ofDecimal? negative digits power = some x) : x.Normal := by
  unfold ofDecimal? at h
  dsimp only at h
  split at h
  · obtain rfl := Option.some.inj h
    exact normal_zero negative
  split at h
  · cases h
  split at h
  · exact normal_ofRatio? (Nat.pow_pos (by decide)).ne' h
  · exact normal_ofRatio? one_ne_zero h

/-- A rounded product is in the one form. -/
theorem normal_mul? {x y z : Binary64} (h : x.mul? y = some z) : z.Normal := by
  have hx := (ratio_eq x).1
  have hy := (ratio_eq y).1
  exact normal_ofRatio? (Nat.mul_pos hx hy).ne' h

/-- A rounded quotient by a number other than zero is in the one form. -/
theorem normal_div? {x y z : Binary64} (hy : y.significand ≠ 0) (h : x.div? y = some z) :
    z.Normal := by
  have hnum : 0 < y.ratio.1 := by
    unfold ratio
    split
    · exact Nat.pos_of_ne_zero hy
    · exact Nat.mul_pos (Nat.pos_of_ne_zero hy) (Nat.pow_pos (by decide))
  exact normal_ofRatio? (Nat.mul_pos (ratio_eq x).1 hnum).ne' h

end Binary64

end Rollout
