import Mathlib
import Lox.Numeral.Shortest

/-!
# Decimals that round to a binary number

The rationals that round to a magnitude lie between half the gap to the number below and half the gap to the number
above. No rational rounds to two magnitudes, and the shortest decimal of a magnitude rounds to it: at seventeen digits
the decimal grid is finer than the gaps, so the search does not come to its end without a point.
-/

namespace Lox.Numeral

/-! ## Magnitudes of binary64 numbers -/

/-- The magnitudes that binary64 numbers have: all but the smallest have a mantissa of fifty-three bits. -/
structure Magnitude.Canonical (x : Magnitude) : Prop where
  mantissa : x.mantissa < 2 ^ 53
  exponent : -1074 ≤ x.exponent
  normal : -1074 < x.exponent → 2 ^ 52 ≤ x.mantissa
  narrowBelow : x.narrowBelow = true ↔ x.mantissa = 2 ^ 52 ∧ -1074 < x.exponent

namespace Magnitude

def value (x : Magnitude) : ℚ := x.mantissa * 2 ^ x.exponent

/-- A quarter of the gap to the number above. -/
def quarter (x : Magnitude) : ℚ := 2 ^ (x.exponent - 2)

/-- The lower end of what rounds to the magnitude, in quarters. -/
def low (x : Magnitude) : ℕ := if x.narrowBelow then 4 * x.mantissa - 1 else 4 * x.mantissa - 2

/-- The upper end of what rounds to the magnitude, in quarters. -/
def high (x : Magnitude) : ℕ := 4 * x.mantissa + 2

/-- A rational rounds to the magnitude. A tie goes to the even mantissa. -/
def Rounds (x : Magnitude) (v : ℚ) : Prop :=
  if x.mantissa % 2 = 0 then x.low * x.quarter ≤ v ∧ v ≤ x.high * x.quarter
  else x.low * x.quarter < v ∧ v < x.high * x.quarter

theorem quarter_pos (x : Magnitude) : 0 < x.quarter := zpow_pos (by norm_num) _

theorem value_eq (x : Magnitude) : x.value = 4 * x.mantissa * x.quarter := by
  rw [value, quarter, zpow_sub₀ (by norm_num)]
  norm_num
  ring

theorem rounds_of_lt {x : Magnitude} {v : ℚ} (hlow : x.low * x.quarter < v) (hhigh : v < x.high * x.quarter) :
    x.Rounds v := by
  unfold Rounds
  split
  · exact ⟨hlow.le, hhigh.le⟩
  · exact ⟨hlow, hhigh⟩

theorem Rounds.le {x : Magnitude} {v : ℚ} (h : x.Rounds v) :
    x.low * x.quarter ≤ v ∧ v ≤ x.high * x.quarter := by
  unfold Rounds at h
  split at h
  · exact h
  · exact ⟨h.1.le, h.2.le⟩

theorem Rounds.lt_of_odd {x : Magnitude} {v : ℚ} (h : x.Rounds v) (hodd : x.mantissa % 2 = 1) :
    x.low * x.quarter < v ∧ v < x.high * x.quarter := by
  rwa [Rounds, if_neg (by omega)] at h

theorem rounds_value (x : Magnitude) : x.Rounds x.value := by
  have hq := x.quarter_pos
  have hlow : x.low ≤ 4 * x.mantissa := by
    unfold low
    split <;> omega
  have hlow' : (x.low : ℚ) ≤ 4 * x.mantissa := by exact_mod_cast hlow
  rw [value_eq]
  unfold Rounds
  split
  case isTrue =>
    refine ⟨by gcongr, ?_⟩
    rw [high]
    push_cast
    nlinarith
  case isFalse hodd =>
    have hless : x.low < 4 * x.mantissa := by
      unfold low
      split <;> omega
    have hless' : (x.low : ℚ) < 4 * x.mantissa := by exact_mod_cast hless
    refine ⟨by gcongr, ?_⟩
    rw [high]
    push_cast
    nlinarith

/-! ## No rational rounds to two magnitudes -/

/-- In the order of their ends, the numbers that round to different magnitudes only touch. -/
theorem Rounds.not_above {x y : Magnitude} {v : ℚ} (hx : x.Rounds v) (hy : y.Rounds v)
    (hends : x.high * x.quarter ≤ y.low * y.quarter)
    (hodd : x.high * x.quarter = y.low * y.quarter → x.mantissa % 2 = 1 ∨ y.mantissa % 2 = 1) : False := by
  have hxle := hx.le
  have hyle := hy.le
  have heq : x.high * x.quarter = y.low * y.quarter := by linarith
  rcases hodd heq with hodd | hodd
  · have := hx.lt_of_odd hodd
    linarith
  · have := hy.lt_of_odd hodd
    linarith

theorem Rounds.mantissa_le {x y : Magnitude} {v : ℚ} (hx : x.Rounds v) (hy : y.Rounds v)
    (hexp : x.exponent = y.exponent) : y.mantissa ≤ x.mantissa := by
  by_contra hlt
  push Not at hlt
  have hq := x.quarter_pos
  have hquarter : y.quarter = x.quarter := by rw [quarter, quarter, hexp]
  have hends : x.high ≤ y.low := by
    unfold high low
    split <;> omega
  have hends' : (x.high : ℚ) ≤ y.low := by exact_mod_cast hends
  refine hx.not_above hy (by rw [hquarter]; gcongr) fun heq => ?_
  rw [hquarter, mul_left_inj' hq.ne'] at heq
  have heq' : x.high = y.low := by exact_mod_cast heq
  unfold high low at heq'
  split at heq' <;> omega

theorem Rounds.exponent_le {x y : Magnitude} {v : ℚ} (hcx : x.Canonical) (hcy : y.Canonical) (hx : x.Rounds v)
    (hy : y.Rounds v) : y.exponent ≤ x.exponent := by
  by_contra hlt
  push Not at hlt
  have hq := x.quarter_pos
  have hnormal := hcy.normal (by have := hcx.exponent; omega)
  have hmantissa := hcx.mantissa
  -- the gaps of `y` are at least twice those of `x`
  have hquarter : 2 * x.quarter ≤ y.quarter := by
    rw [quarter, quarter, ← zpow_one_add₀ (by norm_num)]
    exact zpow_le_zpow_right₀ (by norm_num) (by omega)
  have hlow : 2 ^ 54 - 1 ≤ y.low := by
    unfold low
    split
    case isTrue => omega
    case isFalse hwide =>
      have hne : y.mantissa ≠ 2 ^ 52 := fun h =>
        hwide (hcy.narrowBelow.2 ⟨h, by have := hcx.exponent; omega⟩)
      omega
  have hlow' : (2 ^ 54 - 1 : ℚ) ≤ y.low := by
    have : ((2 ^ 54 - 1 : ℕ) : ℚ) ≤ y.low := by exact_mod_cast hlow
    norm_num at this ⊢
    exact this
  have hhigh : (x.high : ℚ) ≤ 2 * (2 ^ 54 - 1) := by
    have : x.high ≤ 2 * (2 ^ 54 - 1) := by
      unfold high
      omega
    have : (x.high : ℚ) ≤ ((2 * (2 ^ 54 - 1) : ℕ) : ℚ) := by exact_mod_cast this
    norm_num at this ⊢
    exact this
  have hbetween : 2 * (2 ^ 54 - 1) * x.quarter ≤ y.low * y.quarter :=
    calc 2 * (2 ^ 54 - 1) * x.quarter = (2 ^ 54 - 1) * (2 * x.quarter) := by ring
      _ ≤ y.low * y.quarter := by gcongr
  have hupper : x.high * x.quarter ≤ 2 * (2 ^ 54 - 1) * x.quarter := by gcongr
  refine hx.not_above hy (hupper.trans hbetween) fun heq => Or.inl ?_
  -- only the largest mantissa, which is odd, comes up to there
  have hmax : (x.high : ℚ) = 2 * (2 ^ 54 - 1) := by
    apply mul_right_cancel₀ hq.ne'
    linarith
  have hmax' : x.high = 2 * (2 ^ 54 - 1) := by
    have : (x.high : ℚ) = ((2 * (2 ^ 54 - 1) : ℕ) : ℚ) := by rw [hmax]; norm_num
    exact_mod_cast this
  unfold high at hmax'
  omega

theorem Rounds.unique {x y : Magnitude} {v : ℚ} (hcx : x.Canonical) (hcy : y.Canonical) (hx : x.Rounds v)
    (hy : y.Rounds v) : x = y := by
  have hexponent : x.exponent = y.exponent := le_antisymm (hy.exponent_le hcy hcx hx) (hx.exponent_le hcx hcy hy)
  have hmantissa : x.mantissa = y.mantissa :=
    le_antisymm (hy.mantissa_le hx hexponent.symm) (hx.mantissa_le hy hexponent)
  have hnarrow : x.narrowBelow = y.narrowBelow := by
    rw [Bool.eq_iff_iff, hcx.narrowBelow, hcy.narrowBelow, hexponent, hmantissa]
  cases x
  cases y
  simp_all

end Magnitude

/-! ## The decimal grids -/

def Decimal.value (d : Decimal) : ℚ := d.coefficient * 10 ^ d.scale

theorem zpow_eq_div {b : ℚ} (hb : b ≠ 0) (z : ℤ) : b ^ z = b ^ z.toNat / b ^ (-z).toNat := by
  have hz : (z.toNat : ℤ) - (-z).toNat = z := Int.toNat_sub_toNat_neg z
  rw [← zpow_natCast, ← zpow_natCast, ← zpow_sub₀ hb, hz]

namespace Magnitude

variable (x : Magnitude) (scale : ℤ)

/-- Quarters are multiplied by `numer`, and points of the grid by `denom`, before they are compared. -/
def numer : ℕ := Nat.pow 2 (x.exponent - 2).toNat * Nat.pow 10 (-scale).toNat

def denom : ℕ := Nat.pow 2 (-(x.exponent - 2)).toNat * Nat.pow 10 scale.toNat

/-- The point of the grid at or next below the magnitude. -/
def below : ℕ := 4 * x.mantissa * x.numer scale / x.denom scale

def inside (c : ℕ) : Bool :=
  if x.mantissa % 2 = 0 then x.low * x.numer scale ≤ c * x.denom scale && c * x.denom scale ≤ x.high * x.numer scale
  else x.low * x.numer scale < c * x.denom scale && c * x.denom scale < x.high * x.numer scale

variable {x scale} {tie : Tie} {c : ℕ}

theorem denom_pos : 0 < x.denom scale := Nat.mul_pos (Nat.pow_pos (by decide)) (Nat.pow_pos (by decide))

theorem exists_common_factor (x : Magnitude) (scale : ℤ) :
    ∃ k : ℚ, 0 < k ∧ (∀ a : ℕ, ((a * x.numer scale : ℕ) : ℚ) = a * x.quarter * k) ∧
      ∀ c : ℕ, ((c * x.denom scale : ℕ) : ℚ) = c * 10 ^ scale * k := by
  refine ⟨2 ^ (-(x.exponent - 2)).toNat * 10 ^ (-scale).toNat, by positivity, fun a => ?_, fun c => ?_⟩
  · rw [quarter, zpow_eq_div (by norm_num), numer, Nat.pow_eq, Nat.pow_eq]
    push_cast
    field_simp
  · rw [zpow_eq_div (by norm_num), denom, Nat.pow_eq, Nat.pow_eq]
    push_cast
    field_simp

theorem mul_numer_le_iff (a c : ℕ) :
    a * x.numer scale ≤ c * x.denom scale ↔ (a : ℚ) * x.quarter ≤ c * 10 ^ scale := by
  obtain ⟨k, hk, hnumer, hdenom⟩ := exists_common_factor x scale
  rw [← Nat.cast_le (α := ℚ), hnumer, hdenom, mul_le_mul_iff_left₀ hk]

theorem mul_denom_le_iff (a c : ℕ) :
    c * x.denom scale ≤ a * x.numer scale ↔ (c : ℚ) * 10 ^ scale ≤ a * x.quarter := by
  obtain ⟨k, hk, hnumer, hdenom⟩ := exists_common_factor x scale
  rw [← Nat.cast_le (α := ℚ), hnumer, hdenom, mul_le_mul_iff_left₀ hk]

theorem inside_iff : x.inside scale c = true ↔ x.Rounds (c * 10 ^ scale) := by
  unfold inside Rounds
  split
  · rw [Bool.and_eq_true, decide_eq_true_iff, decide_eq_true_iff, mul_numer_le_iff, mul_denom_le_iff]
  · rw [Bool.and_eq_true, decide_eq_true_iff, decide_eq_true_iff, ← not_le, ← not_le, mul_denom_le_iff,
      mul_numer_le_iff, not_le, not_le]

/-- The magnitude lies between the point below and the next. -/
theorem below_le (x : Magnitude) (scale : ℤ) :
    (x.below scale : ℚ) * 10 ^ scale ≤ x.value ∧ x.value < (x.below scale + 1) * 10 ^ scale := by
  have hvalue : x.value = ((4 * x.mantissa : ℕ) : ℚ) * x.quarter := by
    rw [value_eq]
    push_cast
    rfl
  rw [hvalue]
  constructor
  · rw [← mul_denom_le_iff]
    exact Nat.div_mul_le_self _ _
  · have hlt : ¬ (x.below scale + 1) * x.denom scale ≤ 4 * x.mantissa * x.numer scale :=
      not_le.2 ((Nat.div_lt_iff_lt_mul denom_pos).1 (Nat.lt_succ_self _))
    rw [mul_denom_le_iff, not_le] at hlt
    exact_mod_cast hlt

theorem onGrid?_eq : x.onGrid? tie scale =
    match x.inside scale (x.below scale), x.inside scale (x.below scale + 1) with
    | false, false => none
    | true, false => some (x.below scale)
    | false, true => some (x.below scale + 1)
    | true, true =>
      match compare (2 * (4 * x.mantissa * x.numer scale - x.below scale * x.denom scale)) (x.denom scale) with
      | .lt => some (x.below scale)
      | .gt => some (x.below scale + 1)
      | .eq =>
        match tie with
        | .up => some (x.below scale + 1)
        | .toEven => some (if x.below scale % 2 = 0 then x.below scale else x.below scale + 1) := rfl

/-- A point that is found rounds to the magnitude. -/
theorem rounds_of_onGrid? (h : x.onGrid? tie scale = some c) : x.Rounds (c * 10 ^ scale) := by
  rw [onGrid?_eq] at h
  apply inside_iff.1
  cases hb : x.inside scale (x.below scale) <;> cases ha : x.inside scale (x.below scale + 1) <;>
    rw [hb, ha] at h
  case false.false => cases h
  case false.true =>
    cases h
    exact ha
  case true.false =>
    cases h
    exact hb
  case true.true =>
    have hc : c = x.below scale ∨ c = x.below scale + 1 := by
      dsimp only at h
      split at h
      · exact .inl (Option.some.inj h).symm
      · exact .inr (Option.some.inj h).symm
      · cases tie with
        | up => exact .inr (Option.some.inj h).symm
        | toEven =>
          dsimp only at h
          split at h
          · exact .inl (Option.some.inj h).symm
          · exact .inr (Option.some.inj h).symm
    rcases hc with rfl | rfl
    · exact hb
    · exact ha

/-- A point is found if one of the two next to the magnitude rounds to it. -/
theorem onGrid?_isSome (h : x.Rounds (x.below scale * 10 ^ scale) ∨ x.Rounds ((x.below scale + 1) * 10 ^ scale)) :
    (x.onGrid? tie scale).isSome = true := by
  have hinside : x.inside scale (x.below scale) = true ∨ x.inside scale (x.below scale + 1) = true := by
    rw [inside_iff, inside_iff]
    exact_mod_cast h
  rw [onGrid?_eq]
  split
  case h_1 hb ha => simp [hb, ha] at hinside
  case h_2 => rfl
  case h_3 => rfl
  case h_4 =>
    split
    · rfl
    · rfl
    · cases tie <;> rfl

end Magnitude

/-! ## Seventeen digits -/

theorem lt_pow_digitCount (n : ℕ) : n < 10 ^ digitCount n :=
  (Nat.length_toDigits_le_iff (by norm_num) Nat.length_toDigits_pos).1 le_rfl

theorem pow_digitCount_le {n : ℕ} (hn : 0 < n) : 10 ^ (digitCount n - 1) ≤ n := by
  by_cases hone : digitCount n - 1 = 0
  · rw [hone]
    exact hn
  · by_contra hlt
    have hle := (Nat.length_toDigits_le_iff (by norm_num) (Nat.pos_of_ne_zero hone)).2 (not_le.1 hlt)
    have hpos : 0 < digitCount n := Nat.length_toDigits_pos
    rw [digitCount] at *
    omega

namespace Magnitude

variable {x : Magnitude} {tie : Tie}

theorem pow_leading_le (h : 0 < x.mantissa) : (10 : ℚ) ^ x.leading ≤ x.value := by
  have hvalue : x.value =
      ((x.mantissa * 2 ^ x.exponent.toNat : ℕ) : ℚ) / ((2 ^ (-x.exponent).toNat : ℕ) : ℚ) := by
    rw [value, zpow_eq_div (by norm_num)]
    push_cast
    ring
  have hnum : 0 < x.mantissa * 2 ^ x.exponent.toNat := Nat.mul_pos h (Nat.two_pow_pos _)
  have hden : 0 < 2 ^ (-x.exponent).toNat := Nat.two_pow_pos _
  rw [hvalue]
  unfold leading
  simp only [Nat.pow_eq]
  generalize x.mantissa * 2 ^ x.exponent.toNat = num at *
  generalize 2 ^ (-x.exponent).toNat = den at *
  have hden' : (0 : ℚ) < den := by exact_mod_cast hden
  split
  case isTrue hle =>
    have hquot : 0 < num / den := Nat.div_pos hle hden
    have hcount : 0 < digitCount (num / den) := Nat.length_toDigits_pos
    have hexp : ((digitCount (num / den) : ℤ) - 1) = ((digitCount (num / den) - 1 : ℕ) : ℤ) := by omega
    have hpow : 10 ^ (digitCount (num / den) - 1) * den ≤ num :=
      (Nat.mul_le_mul_right den (pow_digitCount_le hquot)).trans (Nat.div_mul_le_self num den)
    rw [hexp, zpow_natCast, le_div_iff₀ hden']
    exact_mod_cast hpow
  case isFalse hlt =>
    have hnum' : (0 : ℚ) < num := by exact_mod_cast hnum
    -- the quotient rounded up is at most a power of ten
    have hceil : (den + num - 1) / num ≤ 10 ^ digitCount ((den + num - 1) / num - 1) := by
      have := lt_pow_digitCount ((den + num - 1) / num - 1)
      omega
    generalize digitCount ((den + num - 1) / num - 1) = count at *
    have hpow : den ≤ 10 ^ count * num := by
      have hup : den ≤ (den + num - 1) / num * num := by
        have := Nat.div_add_mod (den + num - 1) num
        have := Nat.mod_lt (den + num - 1) hnum
        rw [Nat.mul_comm]
        omega
      exact hup.trans (Nat.mul_le_mul_right num hceil)
    rw [zpow_neg, zpow_natCast, inv_le_comm₀ (by positivity) (by positivity), inv_div, div_le_iff₀ hnum']
    exact_mod_cast hpow

/-- Seventeen digits make a grid on which one of the two points next to the magnitude rounds to it. -/
theorem onGrid?_leading (hx : x.Canonical) (h : 0 < x.mantissa) :
    (x.onGrid? tie (x.leading - 16)).isSome = true := by
  apply onGrid?_isSome
  have hq := x.quarter_pos
  have hlead := pow_leading_le h
  obtain ⟨hbelow, habove⟩ := below_le x (x.leading - 16)
  have hgrid : (10 : ℚ) ^ (x.leading - 16) * 10 ^ 16 = 10 ^ x.leading := by
    rw [← zpow_natCast, ← zpow_add₀ (by norm_num)]
    norm_num
  rw [← hgrid, value_eq] at hlead
  rw [value_eq] at hbelow habove
  generalize (10 : ℚ) ^ (x.leading - 16) = step at *
  have hhigh : (x.high : ℚ) = 4 * x.mantissa + 2 := by
    rw [high]
    push_cast
    rfl
  by_cases hnarrow : x.narrowBelow = true
  case pos =>
    -- the point above is less than half the gap above away
    have hlow : (x.low : ℚ) + 1 = 4 * x.mantissa := by
      have : x.low + 1 = 4 * x.mantissa := by
        rw [low, if_pos hnarrow]
        omega
      exact_mod_cast this
    have hmantissa : (x.mantissa : ℚ) = 2 ^ 52 := by
      rw [(hx.narrowBelow.1 hnarrow).1]
      norm_num
    have hstep : step < 2 * x.quarter := by
      rw [hmantissa] at hlead
      linarith
    right
    apply rounds_of_lt
    · rw [eq_sub_of_add_eq hlow]
      linarith
    · rw [hhigh]
      linarith
  case neg =>
    -- the nearer point is less than half a gap away
    have hlow : (x.low : ℚ) + 2 = 4 * x.mantissa := by
      have : x.low + 2 = 4 * x.mantissa := by
        rw [low, if_neg hnarrow]
        omega
      exact_mod_cast this
    have hmantissa : (x.mantissa : ℚ) * x.quarter ≤ 2 ^ 53 * x.quarter := by
      have : (x.mantissa : ℚ) ≤ 2 ^ 53 := by exact_mod_cast hx.mantissa.le
      gcongr
    have hstep : step < 4 * x.quarter := by linarith
    by_cases hhalf : 4 * x.mantissa * x.quarter - x.below (x.leading - 16) * step ≤ step / 2
    · left
      apply rounds_of_lt
      · rw [eq_sub_of_add_eq hlow]
        linarith
      · rw [hhigh]
        linarith
    · right
      apply rounds_of_lt
      · rw [eq_sub_of_add_eq hlow]
        linarith
      · rw [hhigh]
        linarith

theorem search_rounds {more : ℕ} {scale : ℤ} (h : (x.onGrid? tie (scale - more)).isSome = true) :
    x.Rounds (x.search tie more scale).value := by
  induction more generalizing scale with
  | zero =>
    obtain ⟨c, hc⟩ := Option.isSome_iff_exists.1 h
    rw [Nat.cast_zero, sub_zero] at hc
    rw [search, hc]
    exact rounds_of_onGrid? hc
  | succ more ih =>
    rw [search]
    split
    case h_1 c hc => exact rounds_of_onGrid? hc
    case h_2 =>
      apply ih
      rwa [sub_sub, add_comm, ← Nat.cast_succ]

end Magnitude

theorem Decimal.value_strip (fuel : ℕ) (d : Decimal) : (d.strip fuel).value = d.value := by
  induction fuel generalizing d with
  | zero => rfl
  | succ fuel ih =>
    rw [strip]
    split
    case isTrue hten =>
      have hcoefficient : (d.coefficient : ℚ) = (d.coefficient / 10 : ℕ) * 10 := by
        exact_mod_cast (Nat.div_mul_cancel (Nat.dvd_of_mod_eq_zero hten.2)).symm
      rw [ih, value, value, zpow_add_one₀ (by norm_num), hcoefficient]
      ring
    case isFalse => rfl

/-- The shortest decimal of a magnitude rounds to it. -/
theorem Magnitude.shortest_rounds {x : Magnitude} (hx : x.Canonical) (tie : Tie) :
    x.Rounds (x.shortest tie).value := by
  unfold shortest
  split
  case isTrue hzero =>
    have hvalue : (⟨0, 0⟩ : Decimal).value = x.value := by simp [Decimal.value, value, hzero]
    rw [hvalue]
    exact x.rounds_value
  case isFalse hpos =>
    dsimp only
    rw [Decimal.value_strip]
    exact search_rounds (onGrid?_leading hx (Nat.pos_of_ne_zero hpos))

end Lox.Numeral
