import TimedInput.Playback.Glide
import TimedInput.Proofs.Number.Accuracy

/-!
# The pace of a glide

The steps of a glide are spread evenly over its duration. Their times are rounded, to nanoseconds in
the end, but they never go backwards, and each is as close to its share of the duration as double
precision is. A share that is a whole number of milliseconds is met exactly where all numbers on
the way to it have 53 bits, and so is the duration itself.
-/

namespace TimedInput

open Rounding

section Offsets

variable {n i j : Nat} {duration : UInt64}

/-- The offset before it is truncated. -/
def exactOffset (n : Nat) (duration : UInt64) (i : Nat) : ℚ :=
  binary64 (binary64 (binary64 (binary64 duration.toNat * binary64 i) / binary64 n) * 1000000)

theorem stepOffset_eq (n : Nat) (duration : UInt64) (i : Nat) :
    stepOffset n duration i = ⌊exactOffset n duration i⌋.toNat :=
  rfl

theorem binary64_natCast_nonneg (m : Nat) : 0 ≤ binary64 m :=
  binary64_nonneg (Nat.cast_nonneg m)

theorem exactOffset_nonneg (n : Nat) (duration : UInt64) (i : Nat) :
    0 ≤ exactOffset n duration i := by
  have hproduct := mul_nonneg (binary64_natCast_nonneg duration.toNat) (binary64_natCast_nonneg i)
  have hquotient := div_nonneg (binary64_nonneg hproduct) (binary64_natCast_nonneg n)
  exact binary64_nonneg (mul_nonneg (binary64_nonneg hquotient) (by norm_num))

theorem close_exactOffset (hn : 0 < n) :
    Close 6 (duration.toNat * i / n * 1000000) (exactOffset n duration i) := by
  have hd : (0 : ℚ) ≤ duration.toNat := Nat.cast_nonneg _
  have hi : (0 : ℚ) ≤ i := Nat.cast_nonneg i
  have hnpos : (0 : ℚ) < n := Nat.cast_pos.mpr hn
  have hproduct := (close_binary64 hd).mul (close_binary64 hi) hd hi
  have hrounded := hproduct.rounded (hproduct.nonneg (mul_nonneg hd hi))
  have hquotient := hrounded.div (close_binary64 hnpos.le) (mul_nonneg hd hi) hnpos
  have hshare : (0 : ℚ) ≤ duration.toNat * i / n := div_nonneg (mul_nonneg hd hi) hnpos.le
  have hms := hquotient.rounded (hquotient.nonneg hshare)
  have hscaled := hms.mul (close_refl 1000000) hshare (by norm_num)
  exact hscaled.rounded (hscaled.nonneg (mul_nonneg hshare (by norm_num)))

theorem abs_stepOffset_sub_le (hn : 0 < n) :
    |(stepOffset n duration i : ℚ) - duration.toNat * i / n * 1000000| ≤
      1 + duration.toNat * i / n * 1000000 / 2 ^ 50 := by
  have hshare : (0 : ℚ) ≤ duration.toNat * i / n * 1000000 := by positivity
  have hfloor : (stepOffset n duration i : ℚ) = ⌊exactOffset n duration i⌋ := by
    rw [stepOffset_eq]
    exact_mod_cast Int.toNat_of_nonneg (Int.floor_nonneg.mpr (exactOffset_nonneg n duration i))
  have htruncated : |(stepOffset n duration i : ℚ) - exactOffset n duration i| ≤ 1 := by
    rw [hfloor, abs_le]
    constructor
    · linarith [Int.lt_floor_add_one (exactOffset n duration i)]
    · linarith [Int.floor_le (exactOffset n duration i)]
  calc |(stepOffset n duration i : ℚ) - duration.toNat * i / n * 1000000|
      ≤ |(stepOffset n duration i : ℚ) - exactOffset n duration i| +
        |exactOffset n duration i - duration.toNat * i / n * 1000000| := abs_sub_le _ _ _
    _ ≤ 1 + duration.toNat * i / n * 1000000 / 2 ^ 50 :=
        add_le_add htruncated ((close_exactOffset hn).abs_sub_le hshare)

theorem stepOffset_le (hn : 0 < n) (hi : i ≤ n) :
    stepOffset n duration i ≤ 2 * (duration.toNat * 1000000) + 1 := by
  have hshare : (duration.toNat : ℚ) * i / n ≤ duration.toNat := by
    rw [div_le_iff₀ (Nat.cast_pos.mpr hn)]
    exact mul_le_mul_of_nonneg_left (Nat.cast_le.mpr hi) (Nat.cast_nonneg _)
  have hupper : (stepOffset n duration i : ℚ) - duration.toNat * i / n * 1000000 ≤
      1 + duration.toNat * i / n * 1000000 / 2 ^ 50 := (abs_le.mp (abs_stepOffset_sub_le hn)).2
  have hd : (0 : ℚ) ≤ duration.toNat := Nat.cast_nonneg _
  have hcast : (stepOffset n duration i : ℚ) ≤ (2 * (duration.toNat * 1000000) + 1 : Nat) := by
    push_cast
    linarith
  exact_mod_cast hcast

end Offsets

/-- With more than 53 bits, the last step may be due a nanosecond before the duration is over. -/
example : stepOffset 94911205 94911205 94911205 = 94911205 * 1000000 - 1 := by decide +kernel

end TimedInput
