import Mathlib.Data.Rat.Floor
import Mathlib.Tactic.FieldSimp
import Mathlib.Tactic.Linarith
import TimedInput.Number.Rounding

/-!
# How far rounding goes

A number is moved by half of the last of the bits that are kept at most, and so by a small fraction
of itself. The nearest integer is found on both sides of zero, and of two that are as near it is
the one further from zero.
-/

namespace TimedInput.Rounding

section Powers

theorem pow2_eq_zpow (k : Int) : pow2 k = (2 : ℚ) ^ k := by
  cases k with
  | ofNat n =>
    change ((Nat.pow 2 n : Nat) : ℚ) = 2 ^ (n : Int)
    rw [zpow_natCast, Nat.pow_eq, Nat.cast_pow, Nat.cast_ofNat]
  | negSucc n =>
    change 1 / ((Nat.pow 2 (n + 1) : Nat) : ℚ) = _
    rw [zpow_negSucc, Nat.pow_eq, Nat.cast_pow, Nat.cast_ofNat, one_div]

theorem pow2_pos (k : Int) : 0 < pow2 k := by
  rw [pow2_eq_zpow]
  exact zpow_pos two_pos k

theorem pow2_add (j k : Int) : pow2 (j + k) = pow2 j * pow2 k := by
  simp only [pow2_eq_zpow]
  exact zpow_add₀ two_ne_zero j k

theorem pow2_natCast (n : Nat) : pow2 n = 2 ^ n := by
  rw [pow2_eq_zpow, zpow_natCast]

theorem pow2_le_iff {j k : Int} : pow2 j ≤ pow2 k ↔ j ≤ k := by
  rw [pow2_eq_zpow, pow2_eq_zpow]
  exact zpow_le_zpow_iff_right₀ one_lt_two

end Powers

section Exponent

theorem pow2_log2_le {n : Nat} (h : n ≠ 0) : pow2 n.log2 ≤ n := by
  rw [pow2_natCast]
  exact_mod_cast Nat.log2_self_le h

theorem lt_pow2_log2 (n : Nat) : n < pow2 (n.log2 + 1) := by
  rw [← Nat.cast_succ, pow2_natCast]
  exact_mod_cast Nat.lt_log2_self

variable {q : ℚ}

/-- The lengths of the numerator and the denominator leave one bit of doubt about the quotient. -/
theorem log2_bounds (h : 0 < q) :
    let e : Int := (q.num.natAbs.log2 : Int) - (q.den.log2 : Int)
    pow2 (e - 1) ≤ q ∧ q < pow2 (e + 1) := by
  intro e
  have hden : (0 : ℚ) < q.den := Nat.cast_pos.mpr q.den_pos
  have hnum : q.num.natAbs ≠ 0 := Int.natAbs_ne_zero.mpr (Rat.num_ne_zero.mpr h.ne')
  have hquotient : ((q.num.natAbs : Nat) : ℚ) = q * q.den := by
    have hnonneg : (q.num.natAbs : Int) = q.num := Int.natAbs_of_nonneg (Rat.num_nonneg.mpr h.le)
    rw [← Int.cast_natCast, hnonneg]
    exact (Rat.mul_den_eq_num q).symm
  constructor
  · refine le_of_mul_le_mul_right ?_ hden
    calc pow2 (e - 1) * q.den ≤ pow2 (e - 1) * pow2 (q.den.log2 + 1) :=
          mul_le_mul_of_nonneg_left (lt_pow2_log2 q.den).le (pow2_pos _).le
      _ = pow2 q.num.natAbs.log2 := by
          rw [← pow2_add]
          congr 1
          omega
      _ ≤ q * q.den := hquotient ▸ pow2_log2_le hnum
  · refine lt_of_mul_lt_mul_right ?_ hden.le
    calc q * q.den < pow2 (q.num.natAbs.log2 + 1) := hquotient ▸ lt_pow2_log2 _
      _ = pow2 (e + 1) * pow2 q.den.log2 := by
          rw [← pow2_add]
          congr 1
          omega
      _ ≤ pow2 (e + 1) * q.den :=
          mul_le_mul_of_nonneg_left (pow2_log2_le q.den_pos.ne') (pow2_pos _).le

theorem pow2_exponent_le (h : 0 < q) : pow2 (exponent q) ≤ q := by
  unfold exponent
  simp only
  split
  · assumption
  · exact (log2_bounds h).1

theorem lt_pow2_exponent (h : 0 < q) : q < pow2 (exponent q + 1) := by
  unfold exponent
  simp only
  split
  · exact (log2_bounds h).2
  · rw [sub_add_cancel]
    exact lt_of_not_ge ‹_›

end Exponent

section HalfEven

theorem abs_halfEven_sub_le (q : ℚ) : |(halfEven q : ℚ) - q| ≤ 1 / 2 := by
  have hle : (q.floor : ℚ) ≤ q := Int.floor_le q
  have hlt : q < q.floor + 1 := Int.lt_floor_add_one q
  rw [abs_le]
  unfold halfEven
  simp only
  split
  · constructor <;> linarith
  split
  · push_cast
    constructor <;> linarith
  split
  · constructor <;> linarith
  · push_cast
    constructor <;> linarith

end HalfEven

section Significant

theorem binary64_zero : binary64 0 = 0 := rfl

variable {p : Nat} {q : ℚ}

theorem abs_toSignificantPos_sub_le (h : 0 < q) : |toSignificantPos p q - q| ≤ q / 2 ^ p := by
  let unit := exponent q + 1 - p
  have hunit : 0 < pow2 unit := pow2_pos unit
  have hdiff : toSignificantPos p q - q =
      (halfEven (q / pow2 unit) - q / pow2 unit) * pow2 unit := by
    rw [sub_mul, div_mul_cancel₀ q hunit.ne']
    rfl
  have hexponent : pow2 unit / 2 = pow2 (exponent q) / 2 ^ p := by
    have hpow : pow2 unit * 2 ^ p = pow2 (exponent q) * 2 := by
      rw [← pow2_natCast, ← pow2_add]
      change pow2 (exponent q + 1 - p + p) = _
      rw [sub_add_cancel, pow2_add]
      rfl
    rw [div_eq_div_iff two_ne_zero (by positivity), hpow]
  calc |toSignificantPos p q - q|
      = |halfEven (q / pow2 unit) - q / pow2 unit| * pow2 unit := by
        rw [hdiff, abs_mul, abs_of_pos hunit]
    _ ≤ 1 / 2 * pow2 unit := mul_le_mul_of_nonneg_right (abs_halfEven_sub_le _) hunit.le
    _ = pow2 (exponent q) / 2 ^ p := by rw [← hexponent, div_mul_eq_mul_div, one_mul]
    _ ≤ q / 2 ^ p := div_le_div_of_nonneg_right (pow2_exponent_le h) (by positivity)

theorem abs_binary64_sub_le (h : 0 ≤ q) : |binary64 q - q| ≤ q / 2 ^ 53 := by
  rcases h.eq_or_lt with rfl | hpos
  · rw [binary64_zero, sub_zero, abs_zero, zero_div]
  · rw [binary64, toSignificant, if_pos hpos]
    exact abs_toSignificantPos_sub_le hpos

theorem binary64_nonneg (h : 0 ≤ q) : 0 ≤ binary64 q := by
  have hlow := (abs_le.mp (abs_binary64_sub_le h)).1
  have hsmall : q / 2 ^ 53 ≤ q := div_le_self h (one_le_pow₀ one_le_two)
  linarith

end Significant

/-- No integer is nearer to `q` than `n`, and if two are as near, `n` is further from zero. -/
structure IsNearest (q : ℚ) (n : Int) : Prop where
  near : |q - n| ≤ 1 / 2
  away : |q - n| = 1 / 2 → |q| < |(n : ℚ)|

section HalfAway

variable {q r : ℚ} {n : Int}

theorem halfAway_eq_floor (h : 0 ≤ q) : halfAway q = ⌊q + 1 / 2⌋ :=
  if_pos h

theorem halfAway_eq_iff (h : 0 ≤ q) : halfAway q = n ↔ n - 1 / 2 ≤ q ∧ q < n + 1 / 2 := by
  rw [halfAway_eq_floor h, Int.floor_eq_iff]
  constructor
  · rintro ⟨hle, hlt⟩
    constructor <;> linarith
  · rintro ⟨hle, hlt⟩
    constructor <;> linarith

theorem halfAway_mono (hq : 0 ≤ q) (h : q ≤ r) : halfAway q ≤ halfAway r := by
  rw [halfAway_eq_floor hq, halfAway_eq_floor (hq.trans h)]
  exact Int.floor_le_floor (by linarith)

theorem halfAway_lt (hq : 0 ≤ q) (h : q + 1 ≤ r) : halfAway q < halfAway r := by
  have hnext : halfAway (q + 1) = halfAway q + 1 := by
    rw [halfAway_eq_floor hq, halfAway_eq_floor (by linarith), ← Int.floor_add_one]
    congr 1
    ring
  have hle : halfAway (q + 1) ≤ halfAway r := halfAway_mono (by linarith) h
  omega

theorem halfAway_natCast (n : Nat) : halfAway n = n := by
  rw [halfAway_eq_iff (Nat.cast_nonneg n), Int.cast_natCast]
  constructor <;> linarith

theorem halfAway_zero : halfAway 0 = 0 := by
  exact_mod_cast halfAway_natCast 0

theorem halfAway_neg (q : ℚ) : halfAway (-q) = -halfAway q := by
  rcases lt_trichotomy q 0 with hneg | rfl | hpos
  · rw [halfAway, halfAway, if_pos (by linarith), if_neg (by linarith), neg_neg]
    congr 1
    ring
  · rw [neg_zero, halfAway_zero, neg_zero]
  · rw [halfAway, halfAway, if_neg (by linarith), if_pos hpos.le]
    congr 2
    ring

theorem isNearest_neg_iff : IsNearest (-q) (-n) ↔ IsNearest q n := by
  have hsub : |-q - ((-n : Int) : ℚ)| = |q - n| := by
    rw [Int.cast_neg, ← abs_neg]
    congr 1
    ring
  have habs : |((-n : Int) : ℚ)| = |(n : ℚ)| := by rw [Int.cast_neg, abs_neg]
  constructor
  · rintro ⟨hnear, haway⟩
    exact ⟨hsub ▸ hnear, fun htie => abs_neg q ▸ habs ▸ haway (hsub.trans htie)⟩
  · rintro ⟨hnear, haway⟩
    refine ⟨hsub ▸ hnear, fun htie => ?_⟩
    rw [abs_neg, habs]
    exact haway (hsub ▸ htie)

theorem isNearest_iff_of_nonneg (h : 0 ≤ q) : IsNearest q n ↔ halfAway q = n := by
  rw [halfAway_eq_iff h]
  constructor
  · rintro ⟨hnear, haway⟩
    obtain ⟨hlow, hhigh⟩ := abs_le.mp hnear
    refine ⟨by linarith, lt_of_le_of_ne (by linarith) ?_⟩
    -- above an integer the tie would go to the next one
    intro htie
    have hn : (0 : ℚ) ≤ n := by
      have hlt : (-1 : ℚ) < n := by linarith
      have hint : -1 < n := by exact_mod_cast hlt
      exact_mod_cast (by omega : 0 ≤ n)
    have hless := haway (by rw [htie, add_sub_cancel_left, abs_of_pos one_half_pos])
    rw [abs_of_nonneg h, abs_of_nonneg hn] at hless
    linarith
  · rintro ⟨hle, hlt⟩
    refine ⟨abs_le.mpr ⟨by linarith, by linarith⟩, ?_⟩
    intro htie
    have hless : q < n := by
      rcases eq_or_eq_neg_of_abs_eq htie with habove | hbelow <;> linarith
    rw [abs_of_nonneg h]
    exact hless.trans_le (le_abs_self _)

/-- What `halfAway` takes is the nearest integer, on both sides of zero. -/
theorem isNearest_iff : IsNearest q n ↔ halfAway q = n := by
  rcases le_total 0 q with h | h
  · exact isNearest_iff_of_nonneg h
  · rw [← isNearest_neg_iff, isNearest_iff_of_nonneg (neg_nonneg.mpr h), halfAway_neg, neg_inj]

theorem halfAway_intCast (n : Int) : halfAway n = n :=
  isNearest_iff.mp ⟨by simp, by simp⟩

end HalfAway

end TimedInput.Rounding
