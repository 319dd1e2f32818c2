import Mathlib.Algebra.Order.Field.Power
import Mathlib.Data.Rat.Floor
import Mathlib.Tactic.FieldSimp
import Mathlib.Tactic.Linarith
import Mathlib.Tactic.Ring
import Rollout.Number.Shortest
/-!
The shortest decimal of a floating-point number lies where only that number is the nearest one,
so that different numbers have different decimals.
-/

namespace Rollout

/-- The number that a decimal stands for. -/
def Decimal.value (d : Decimal) : ℚ := d.digits * 10 ^ d.power

/-- The number as a quotient of naturals. -/
def Decimal.ratio (d : Decimal) : Nat × Nat :=
  if d.power < 0 then (d.digits, Nat.pow 10 (-d.power).toNat)
  else (d.digits * Nat.pow 10 d.power.toNat, 1)

section Powers

variable {b : Nat} (hb : 0 < b)

include hb

/-- A multiple of a power, as a quotient of naturals. -/
theorem raised_eq (n : Nat) (q : Int) {r : Nat × Nat}
    (hr : r = if q < 0 then (n, Nat.pow b (-q).toNat) else (n * Nat.pow b q.toNat, 1)) :
    0 < r.2 ∧ (r.1 : ℚ) = n * b ^ q * r.2 := by
  have hb' : (b : ℚ) ≠ 0 := by positivity
  subst hr
  split
  · next hq =>
      obtain ⟨k, rfl⟩ : ∃ k : Nat, q = -k := ⟨(-q).toNat, by omega⟩
      rw [neg_neg, Int.toNat_natCast]
      refine ⟨Nat.pow_pos hb, ?_⟩
      rw [zpow_neg, zpow_natCast, Nat.pow_eq, Nat.cast_pow]
      field_simp
  · next hq =>
      obtain ⟨k, rfl⟩ : ∃ k : Nat, q = k := ⟨q.toNat, by omega⟩
      rw [Int.toNat_natCast]
      refine ⟨Nat.one_pos, ?_⟩
      rw [zpow_natCast, Nat.pow_eq, Nat.cast_mul, Nat.cast_pow, Nat.cast_one, mul_one]

/-- A quotient divided by a power, as a quotient of naturals. -/
theorem lowered_eq (n : Nat) {d : Nat} (hd : 0 < d) (q : Int) {r : Nat × Nat}
    (hr : r = if q < 0 then (n * Nat.pow b (-q).toNat, d) else (n, d * Nat.pow b q.toNat)) :
    0 < r.2 ∧ (r.1 : ℚ) = n / d / b ^ q * r.2 := by
  have hb' : (b : ℚ) ≠ 0 := by positivity
  have hd' : (d : ℚ) ≠ 0 := by positivity
  subst hr
  split
  · next hq =>
      obtain ⟨k, rfl⟩ : ∃ k : Nat, q = -k := ⟨(-q).toNat, by omega⟩
      rw [neg_neg, Int.toNat_natCast]
      refine ⟨hd, ?_⟩
      rw [zpow_neg, zpow_natCast, Nat.pow_eq, Nat.cast_mul, Nat.cast_pow]
      field_simp
  · next hq =>
      obtain ⟨k, rfl⟩ : ∃ k : Nat, q = k := ⟨q.toNat, by omega⟩
      rw [Int.toNat_natCast]
      refine ⟨Nat.mul_pos hd (Nat.pow_pos hb), ?_⟩
      rw [zpow_natCast, Nat.pow_eq, Nat.cast_mul, Nat.cast_pow]
      field_simp

end Powers

namespace Binary64

/-- The one form that every finite number has. -/
structure Normal (x : Binary64) : Prop where
  lt : x.significand < 2 ^ 53
  le : -1074 ≤ x.exponent
  full : 2 ^ 52 ≤ x.significand ∨ x.exponent = -1074

/-- The number without its sign. -/
def magnitude (x : Binary64) : ℚ := x.significand * 2 ^ x.exponent

/-- Four times the least real that rounds to the number, if its significand is even. -/
def lower (x : Binary64) : ℚ := (4 * x.significand - x.reach.1) * 2 ^ x.exponent

/-- Four times the greatest real that rounds to the number, if its significand is even. -/
def upper (x : Binary64) : ℚ := (4 * x.significand + x.reach.2) * 2 ^ x.exponent

variable {x y : Binary64} {d : Decimal}

theorem reach_cases (x : Binary64) :
    x.reach = (1, 2) ∧ x.significand = 2 ^ 52 ∧ -1074 < x.exponent ∨
      x.reach = (2, 2) ∧ (x.significand ≠ 2 ^ 52 ∨ x.exponent ≤ -1074) := by
  unfold reach
  split
  · next h => exact .inl ⟨rfl, h⟩
  · next h =>
      refine .inr ⟨rfl, ?_⟩
      by_cases hx : x.significand = 2 ^ 52
      · exact .inr (not_lt.mp fun hlt => h ⟨hx, hlt⟩)
      · exact .inl hx

theorem quarters_eq (x : Binary64) (d : Decimal) :
    0 < (x.quarters d).2 ∧
      ((x.quarters d).1 : ℚ) = 4 * d.value / 2 ^ x.exponent * (x.quarters d).2 := by
  obtain ⟨hpos, hratio⟩ := raised_eq (b := 10) (by decide) d.digits d.power (r := d.ratio) rfl
  obtain ⟨hpos', hscaled⟩ := lowered_eq (b := 2) (by decide) d.ratio.1 hpos x.exponent
    (r := scaled d.ratio.1 d.ratio.2 x.exponent) rfl
  have hvalue : (d.ratio.1 : ℚ) / d.ratio.2 = d.value := by
    have hne : (d.ratio.2 : ℚ) ≠ 0 := (Nat.cast_pos.mpr hpos).ne'
    rw [hratio, mul_div_cancel_right₀ _ hne]
    rfl
  rw [hvalue] at hscaled
  refine ⟨hpos', ?_⟩
  change ((4 * (scaled d.ratio.1 d.ratio.2 x.exponent).1 : Nat) : ℚ) =
    4 * d.value / 2 ^ x.exponent * (scaled d.ratio.1 d.ratio.2 x.exponent).2
  rw [Nat.cast_mul, hscaled]
  push_cast
  ring

/-- A decimal reads back as a number that it is nearest to. -/
theorem readsBack_iff (hx : 0 < x.significand) :
    x.readsBack d = true ↔
      if x.significand % 2 = 0 then x.lower ≤ 4 * d.value ∧ 4 * d.value ≤ x.upper
      else x.lower < 4 * d.value ∧ 4 * d.value < x.upper := by
  obtain ⟨hpos, hvalue⟩ := quarters_eq x d
  have he : (0 : ℚ) < (x.quarters d).2 := Nat.cast_pos.mpr hpos
  have hp : (0 : ℚ) < 2 ^ x.exponent := by positivity
  have hreach : x.reach.1 ≤ 4 * x.significand := by
    rcases reach_cases x with ⟨h, -⟩ | ⟨h, -⟩ <;> rw [h] <;> omega
  -- Both sides are compared over the denominators of the decimal and of the exponent.
  have hlow : (((4 * x.significand - x.reach.1) * (x.quarters d).2 : Nat) : ℚ) =
      x.lower / 2 ^ x.exponent * (x.quarters d).2 := by
    rw [Nat.cast_mul, Nat.cast_sub hreach, lower, mul_div_cancel_right₀ _ hp.ne']
    push_cast
    rfl
  have hhigh : (((4 * x.significand + x.reach.2) * (x.quarters d).2 : Nat) : ℚ) =
      x.upper / 2 ^ x.exponent * (x.quarters d).2 := by
    rw [Nat.cast_mul, upper, mul_div_cancel_right₀ _ hp.ne']
    push_cast
    rfl
  have hle {a b : Nat} {r s : ℚ} (ha : (a : ℚ) = r / 2 ^ x.exponent * (x.quarters d).2)
      (hb : (b : ℚ) = s / 2 ^ x.exponent * (x.quarters d).2) : a ≤ b ↔ r ≤ s := by
    rw [← Nat.cast_le (α := ℚ), ha, hb, mul_le_mul_iff_left₀ he, div_le_div_iff_of_pos_right hp]
  unfold readsBack
  dsimp only
  split
  · rw [Bool.and_eq_true, decide_eq_true_iff, decide_eq_true_iff, hle hlow hvalue,
      hle hvalue hhigh]
  · rw [Bool.and_eq_true, decide_eq_true_iff, decide_eq_true_iff, ← not_le, ← not_le,
      hle hvalue hlow, hle hhigh hvalue, not_le, not_le]

/-- One number comes before another on the number line. -/
def Precedes (x y : Binary64) : Prop :=
  x.exponent < y.exponent ∨ x.exponent = y.exponent ∧ x.significand < y.significand

theorem reach_snd (x : Binary64) : x.reach.2 = 2 := by
  rcases reach_cases x with ⟨h, -⟩ | ⟨h, -⟩ <;> rw [h]

/-- The next binade begins where the last ends; its first number reaches half as far down. -/
theorem upper_lt_of_exponent_lt (hx : x.Normal) (hy : y.Normal) (h : x.exponent < y.exponent) :
    x.upper ≤ y.lower ∧ (x.significand % 2 = 0 → x.upper < y.lower) := by
  obtain ⟨k, hk⟩ : ∃ k : Nat, y.exponent = x.exponent + 1 + k :=
    ⟨(y.exponent - x.exponent - 1).toNat, by omega⟩
  have hfull : 2 ^ 52 ≤ y.significand := by
    rcases hy.full with hfull | hmin
    · exact hfull
    · have := hx.le
      omega
  -- The least real that rounds to the greater number, in quarters of a unit of its exponent.
  have hlow : (2 ^ 54 - 1 : ℚ) ≤ 4 * y.significand - y.reach.1 := by
    rcases reach_cases y with ⟨hr, hs, -⟩ | ⟨hr, hs⟩
    · rw [hr, hs]
      norm_num
    · have hne : 2 ^ 52 + 1 ≤ y.significand := by
        have := hx.le
        omega
      have hne' : (2 ^ 52 + 1 : ℚ) ≤ y.significand := by exact_mod_cast hne
      rw [hr]
      push_cast
      linarith
  have hpow : (2 : ℚ) ^ y.exponent = 2 ^ x.exponent * (2 * 2 ^ k) := by
    rw [hk, zpow_add₀ two_ne_zero, zpow_add₀ two_ne_zero, zpow_natCast, zpow_one]
    ring
  have hk1 : (1 : ℚ) ≤ 2 ^ k := one_le_pow₀ one_le_two
  have hp : (0 : ℚ) < 2 ^ x.exponent := by positivity
  have hscale : 2 ^ x.exponent * (2 ^ 55 - 2 : ℚ) ≤ y.lower := by
    have htwo : (2 ^ 54 - 1 : ℚ) * 2 ≤ (4 * y.significand - y.reach.1) * (2 * 2 ^ k) :=
      mul_le_mul hlow (by linarith) zero_le_two ((by norm_num : (0 : ℚ) ≤ 2 ^ 54 - 1).trans hlow)
    rw [lower, hpow, mul_left_comm]
    refine mul_le_mul_of_nonneg_left ?_ hp.le
    linarith
  have hm : x.significand + 1 ≤ 2 ^ 53 := hx.lt
  constructor
  · refine le_trans ?_ hscale
    have hm' : (x.significand + 1 : ℚ) ≤ 2 ^ 53 := by exact_mod_cast hm
    rw [upper, reach_snd, mul_comm]
    refine mul_le_mul_of_nonneg_left ?_ hp.le
    push_cast
    linarith
  · intro heven
    refine lt_of_lt_of_le ?_ hscale
    have hm' : (x.significand + 2 : ℚ) ≤ 2 ^ 53 := by
      have : x.significand + 2 ≤ 2 ^ 53 := by omega
      exact_mod_cast this
    rw [upper, reach_snd, mul_comm]
    refine mul_lt_mul_of_pos_left ?_ hp
    push_cast
    linarith

/-- Within a binade the midpoint to the next number belongs to the even one. -/
theorem upper_lt_of_significand_lt (hx : x.Normal) (he : x.exponent = y.exponent)
    (h : x.significand < y.significand) :
    x.upper ≤ y.lower ∧ (x.significand % 2 = 0 → y.significand % 2 = 0 → x.upper < y.lower) := by
  have hp : (0 : ℚ) < 2 ^ x.exponent := by positivity
  have hreach : y.reach = (2, 2) := by
    rcases reach_cases y with ⟨-, hs, hmin⟩ | ⟨hr, -⟩
    · rcases hx.full with hfull | hmin' <;> omega
    · exact hr
  constructor
  · have hm : (x.significand + 1 : ℚ) ≤ y.significand := by exact_mod_cast h
    rw [upper, lower, reach_snd, hreach, ← he]
    refine mul_le_mul_of_nonneg_right ?_ hp.le
    push_cast
    linarith
  · intro hxeven hyeven
    have hm : (x.significand + 2 : ℚ) ≤ y.significand := by
      have : x.significand + 2 ≤ y.significand := by omega
      exact_mod_cast this
    rw [upper, lower, reach_snd, hreach, ← he]
    refine mul_lt_mul_of_pos_right ?_ hp
    push_cast
    linarith

theorem Precedes.not_readsBack {d' : Decimal} (h : x.Precedes y) (hx : x.Normal) (hy : y.Normal)
    (hxpos : 0 < x.significand) (hypos : 0 < y.significand) (hd : x.readsBack d)
    (hvalue : d.value = d'.value) : ¬ y.readsBack d' := by
  intro hd'
  rw [readsBack_iff hxpos] at hd
  rw [readsBack_iff hypos, ← hvalue] at hd'
  rcases h with he | ⟨he, hm⟩
  · obtain ⟨hle, hlt⟩ := upper_lt_of_exponent_lt hx hy he
    split at hd
    · next hxeven =>
        have := hlt hxeven
        split at hd' <;> linarith
    · split at hd' <;> linarith
  · obtain ⟨hle, hlt⟩ := upper_lt_of_significand_lt hx he hm
    split at hd
    · next hxeven =>
        split at hd'
        · next hyeven =>
            have := hlt hxeven hyeven
            linarith
        · linarith
    · split at hd' <;> linarith

/-- Numbers with decimals of one value are the same but for their signs. -/
theorem eq_of_readsBack {d' : Decimal} (hx : x.Normal) (hy : y.Normal) (hxpos : 0 < x.significand)
    (hypos : 0 < y.significand) (hd : x.readsBack d) (hd' : y.readsBack d')
    (hvalue : d.value = d'.value) :
    x.significand = y.significand ∧ x.exponent = y.exponent := by
  by_contra hne
  have hprecedes : x.Precedes y ∨ y.Precedes x := by
    unfold Precedes
    omega
  rcases hprecedes with h | h
  · exact h.not_readsBack hx hy hxpos hypos hd hvalue hd'
  · exact h.not_readsBack hy hx hypos hxpos hd' hvalue.symm hd

section Search

theorem zpow_climb_mul_le (fuel n d : Nat) (h : d ≤ n) :
    (10 : ℚ) ^ leadingPower.climb fuel n d * d ≤ n := by
  induction fuel generalizing d with
  | zero => simpa [leadingPower.climb] using h
  | succ fuel ih =>
      rw [leadingPower.climb]
      split
      · next hle =>
          calc (10 : ℚ) ^ (1 + leadingPower.climb fuel n (10 * d)) * d
              = 10 ^ leadingPower.climb fuel n (10 * d) * (10 * d : Nat) := by
                rw [zpow_add₀ (by norm_num), zpow_one]
                push_cast
                ring
            _ ≤ n := ih (10 * d) hle
      · simpa using h

theorem zpow_fall_mul_le (fuel n d : Nat) (h : d ≤ n * 10 ^ fuel) :
    (10 : ℚ) ^ leadingPower.fall fuel n d * d ≤ n := by
  induction fuel generalizing n with
  | zero => simpa [leadingPower.fall] using h
  | succ fuel ih =>
      rw [leadingPower.fall]
      split
      · have hten : d ≤ 10 * n * 10 ^ fuel := by
          rw [Nat.pow_succ] at h
          linarith
        have := ih (10 * n) hten
        rw [zpow_sub₀ (by norm_num), zpow_one, div_mul_eq_mul_div, div_le_iff₀ (by norm_num)]
        push_cast at this
        linarith
      · next hge =>
          have : (d : ℚ) ≤ n := by exact_mod_cast not_lt.mp hge
          simpa using this

/-- The leading digit stands no higher than at the number. -/
theorem zpow_leadingPower_mul_le {n d : Nat} (h : d ≤ n * 10 ^ 400) :
    (10 : ℚ) ^ leadingPower n d * d ≤ n := by
  rw [leadingPower]
  split
  · exact zpow_fall_mul_le 400 n d h
  · next hge => exact zpow_climb_mul_le 400 n d (not_lt.mp hge)

theorem ratio_eq (x : Binary64) :
    0 < x.ratio.2 ∧ (x.ratio.1 : ℚ) = x.magnitude * x.ratio.2 := by
  obtain ⟨hpos, h⟩ := raised_eq (b := 2) (by decide) x.significand x.exponent (r := x.ratio) rfl
  refine ⟨hpos, ?_⟩
  rw [h, magnitude]
  push_cast
  rfl

/-- A number lies between its neighbours on a grid. -/
theorem gridNeighbours_eq (x : Binary64) (power : Int) :
    (x.gridNeighbours power).1.value ≤ x.magnitude ∧
      x.magnitude < (x.gridNeighbours power).2.value ∧
      (x.gridNeighbours power).2.value = (x.gridNeighbours power).1.value + 10 ^ power := by
  obtain ⟨hpos, hratio⟩ := ratio_eq x
  let s := if power < 0 then (x.ratio.1 * Nat.pow 10 (-power).toNat, x.ratio.2)
    else (x.ratio.1, x.ratio.2 * Nat.pow 10 power.toNat)
  obtain ⟨hspos, hs⟩ := lowered_eq (b := 10) (by decide) x.ratio.1 hpos power (r := s) rfl
  have hlow : (x.gridNeighbours power).1 = ⟨s.1 / s.2, power⟩ := rfl
  have hhigh : (x.gridNeighbours power).2 = ⟨s.1 / s.2 + 1, power⟩ := rfl
  have hp : (0 : ℚ) < 10 ^ power := by positivity
  have hs2 : (0 : ℚ) < s.2 := Nat.cast_pos.mpr hspos
  have hr2 : (x.ratio.2 : ℚ) ≠ 0 := (Nat.cast_pos.mpr hpos).ne'
  rw [hratio, mul_div_cancel_right₀ _ hr2, Nat.cast_ofNat] at hs
  have hfloor : ((s.1 / s.2 : Nat) : ℚ) ≤ x.magnitude / 10 ^ power := by
    have hle : s.1 / s.2 * s.2 ≤ s.1 := Nat.div_mul_le_self ..
    have hle' : ((s.1 / s.2 : Nat) : ℚ) * s.2 ≤ s.1 := by exact_mod_cast hle
    rw [hs] at hle'
    exact le_of_mul_le_mul_right hle' hs2
  have hceil : x.magnitude / 10 ^ power < (s.1 / s.2 : Nat) + 1 := by
    have hlt : s.1 < (s.1 / s.2 + 1) * s.2 := by
      rw [mul_comm]
      exact Nat.lt_mul_div_succ s.1 hspos
    have hlt' : (s.1 : ℚ) < ((s.1 / s.2 : Nat) + 1) * s.2 := by exact_mod_cast hlt
    rw [hs] at hlt'
    exact lt_of_mul_lt_mul_right hlt' hs2.le
  rw [hlow, hhigh, Decimal.value, Decimal.value]
  refine ⟨(le_div_iff₀ hp).mp hfloor, ?_, ?_⟩
  · push_cast
    exact (div_lt_iff₀ hp).mp hceil
  · push_cast
    ring

theorem readsBack_of_between (hx : 0 < x.significand) (hlow : x.lower < 4 * d.value)
    (hhigh : 4 * d.value < x.upper) : x.readsBack d := by
  rw [readsBack_iff hx]
  split
  · exact ⟨hlow.le, hhigh.le⟩
  · exact ⟨hlow, hhigh⟩

/-- A grid with sixteen more digits is finer than the reach of the number. -/
theorem exists_readsBack (hx : x.Normal) (hpos : 0 < x.significand) {power : Int}
    (h : (10 : ℚ) ^ (power + 16) ≤ x.magnitude) :
    x.readsBack (x.gridNeighbours power).1 ∨ x.readsBack (x.gridNeighbours power).2 := by
  obtain ⟨hle, hlt, hstep⟩ := gridNeighbours_eq x power
  have hp : (0 : ℚ) < 2 ^ x.exponent := by positivity
  have hlower : x.lower = 4 * x.magnitude - x.reach.1 * 2 ^ x.exponent := by
    rw [lower, magnitude]
    ring
  have hupper : x.upper = 4 * x.magnitude + 2 * 2 ^ x.exponent := by
    rw [upper, magnitude, reach_snd]
    push_cast
    ring
  have hfine : 10 ^ 16 * (10 : ℚ) ^ power ≤ x.significand * 2 ^ x.exponent := by
    rw [zpow_add₀ (by norm_num)] at h
    rw [mul_comm]
    exact_mod_cast h
  have hreach : 2 * (10 : ℚ) ^ power < x.reach.1 * 2 ^ x.exponent ∧
      (x.reach.1 : ℚ) * 2 ^ x.exponent ≤ 2 * 2 ^ x.exponent := by
    rcases reach_cases x with ⟨hr, hs, -⟩ | ⟨hr, -⟩
    · rw [hr]
      rw [hs] at hfine
      push_cast at hfine ⊢
      constructor <;> linarith
    · have hm : (x.significand : ℚ) ≤ 2 ^ 53 := by exact_mod_cast hx.lt.le
      have := mul_le_mul_of_nonneg_right hm hp.le
      rw [hr]
      push_cast
      constructor <;> linarith
  -- The nearer neighbour is at most half a step away.
  rcases le_total (2 * (x.magnitude - (x.gridNeighbours power).1.value)) (10 ^ power) with hnear | hfar
  · left
    apply readsBack_of_between hpos <;> linarith
  · right
    apply readsBack_of_between hpos <;> linarith

theorem readsBack_of_nearestOn {power : Int} (h : x.nearestOn power = some d) : x.readsBack d := by
  unfold nearestOn at h
  dsimp only at h
  split at h
  · cases h
  · next hlow _ =>
      cases h
      exact hlow
  · next hhigh =>
      cases h
      exact hhigh
  · next hlow hhigh =>
      split at h
      · cases h
        exact hlow
      · cases h
        exact hhigh

theorem isSome_nearestOn {power : Int}
    (h : x.readsBack (x.gridNeighbours power).1 ∨ x.readsBack (x.gridNeighbours power).2) :
    (x.nearestOn power).isSome := by
  unfold nearestOn
  dsimp only
  split
  · next hlow hhigh => simp [hlow, hhigh] at h
  · rfl
  · rfl
  · split <;> rfl

/-- The search stops at the first grid with a decimal that reads back. -/
theorem readsBack_search {fuel k : Nat} {power : Int} (hk : k < fuel)
    (h : (x.nearestOn (power - k)).isSome) : x.readsBack (shortest.search x fuel power) := by
  induction fuel generalizing k power with
  | zero => cases hk
  | succ fuel ih =>
      rw [shortest.search]
      cases hd : x.nearestOn power with
      | some d => exact readsBack_of_nearestOn hd
      | none =>
          cases k with
          | zero =>
              rw [Nat.cast_zero, sub_zero, hd] at h
              cases h
          | succ k =>
              refine ih (Nat.lt_of_succ_lt_succ hk) ?_
              rwa [Nat.cast_succ, add_comm, ← sub_sub] at h

/-- The least number is not far below one: three halvings are less than one tenth. -/
theorem ratio_le (hx : x.Normal) (hpos : 0 < x.significand) {k : Nat} (hk : 1074 ≤ 3 * k) :
    x.ratio.2 ≤ x.ratio.1 * 10 ^ k := by
  unfold ratio
  split
  · have hexponent : (-x.exponent).toNat ≤ 3 * k := by
      have := hx.le
      omega
    calc Nat.pow 2 (-x.exponent).toNat ≤ 2 ^ (3 * k) := Nat.pow_le_pow_right (by decide) hexponent
      _ = (2 ^ 3) ^ k := Nat.pow_mul 2 3 k
      _ ≤ 10 ^ k := Nat.pow_le_pow_left (by decide) k
      _ ≤ x.significand * 10 ^ k := Nat.le_mul_of_pos_left _ hpos
  · exact Nat.mul_pos (Nat.mul_pos hpos (Nat.pow_pos (by decide))) (Nat.pow_pos (by decide))

/-- The shortest decimal of a number reads back as the number. -/
theorem readsBack_shortest (hx : x.Normal) (hpos : 0 < x.significand) :
    x.readsBack x.shortest := by
  obtain ⟨hden, hratio⟩ := ratio_eq x
  have hden' : (0 : ℚ) < x.ratio.2 := Nat.cast_pos.mpr hden
  have hlead : (10 : ℚ) ^ leadingPower x.ratio.1 x.ratio.2 ≤ x.magnitude := by
    have hle := zpow_leadingPower_mul_le (ratio_le hx hpos (by decide))
    rw [hratio] at hle
    exact le_of_mul_le_mul_right hle hden'
  -- Seventeen digits suffice: the last grid is finer than the reach.
  have hlast : (x.nearestOn (leadingPower x.ratio.1 x.ratio.2 - (16 : Nat))).isSome :=
    isSome_nearestOn (exists_readsBack hx hpos (by simpa using hlead))
  exact readsBack_search (by decide) hlast

end Search

end Binary64

end Rollout
