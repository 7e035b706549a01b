import TimedInput.Proofs.Number.Nearest

/-!
# Accuracy of a formula

A number that was rounded several times on the way to it is still close to what the formula gives
without rounding. Only the number of roundings counts: products and quotients of close numbers are
close, by as many roundings as both have together.
-/

namespace TimedInput.Rounding

/-- The part of a number that a rounding in double precision leaves at least. -/
def kept : ℚ :=
  1 - 1 / 2 ^ 53

theorem kept_pow_pos (k : Nat) : 0 < kept ^ k := by
  apply pow_pos
  norm_num [kept]

/-- Neither number is less than so many roundings leave of the other one. -/
structure Close (k : Nat) (q r : ℚ) : Prop where
  le : kept ^ k * q ≤ r
  ge : kept ^ k * r ≤ q

section Close

variable {j k : Nat} {a b q r s : ℚ}

theorem close_refl (q : ℚ) : Close 0 q q :=
  ⟨by rw [pow_zero, one_mul], by rw [pow_zero, one_mul]⟩

theorem close_binary64 (h : 0 ≤ q) : Close 1 q (binary64 q) := by
  obtain ⟨hlow, hhigh⟩ := abs_le.mp (abs_binary64_sub_le h)
  constructor
  · rw [pow_one, kept]
    linarith
  · rw [pow_one, kept]
    linarith

theorem Close.trans (h : Close j q r) (h' : Close k r s) : Close (j + k) q s := by
  constructor
  · calc kept ^ (j + k) * q = kept ^ k * (kept ^ j * q) := by rw [pow_add]; ring
      _ ≤ kept ^ k * r := mul_le_mul_of_nonneg_left h.le (kept_pow_pos k).le
      _ ≤ s := h'.le
  · calc kept ^ (j + k) * s = kept ^ j * (kept ^ k * s) := by rw [pow_add]; ring
      _ ≤ kept ^ j * r := mul_le_mul_of_nonneg_left h'.ge (kept_pow_pos j).le
      _ ≤ q := h.ge

/-- Another rounding. -/
theorem Close.rounded (h : Close k q r) (hr : 0 ≤ r) : Close (k + 1) q (binary64 r) :=
  h.trans (close_binary64 hr)

theorem Close.pos (h : Close k q r) (hq : 0 < q) : 0 < r :=
  (mul_pos (kept_pow_pos k) hq).trans_le h.le

theorem Close.nonneg (h : Close k q r) (hq : 0 ≤ q) : 0 ≤ r :=
  (mul_nonneg (kept_pow_pos k).le hq).trans h.le

theorem Close.mul (h : Close j q r) (h' : Close k a b) (hq : 0 ≤ q) (ha : 0 ≤ a) :
    Close (j + k) (q * a) (r * b) := by
  have hr := h.nonneg hq
  have hb := h'.nonneg ha
  have hj := kept_pow_pos j
  have hk := kept_pow_pos k
  constructor
  · calc kept ^ (j + k) * (q * a) = kept ^ j * q * (kept ^ k * a) := by rw [pow_add]; ring
      _ ≤ r * b := mul_le_mul h.le h'.le (mul_nonneg hk.le ha) hr
  · calc kept ^ (j + k) * (r * b) = kept ^ j * r * (kept ^ k * b) := by rw [pow_add]; ring
      _ ≤ q * a := mul_le_mul h.ge h'.ge (mul_nonneg hk.le hb) hq

theorem Close.inv (h : Close k q r) (hq : 0 < q) : Close k q⁻¹ r⁻¹ := by
  have hr := h.pos hq
  constructor
  · rw [← div_eq_mul_inv, div_le_iff₀ hq, ← div_eq_inv_mul, le_div_iff₀ hr]
    exact h.ge
  · rw [← div_eq_mul_inv, div_le_iff₀ hr, ← div_eq_inv_mul, le_div_iff₀ hq]
    exact h.le

theorem Close.div (h : Close j q r) (h' : Close k a b) (hq : 0 ≤ q) (ha : 0 < a) :
    Close (j + k) (q / a) (r / b) := by
  rw [div_eq_mul_inv, div_eq_mul_inv]
  exact h.mul (h'.inv ha) hq (inv_pos.mpr ha).le

/-- Six roundings take less than the last three of 53 bits. -/
theorem Close.abs_sub_le (h : Close 6 q r) (hq : 0 ≤ q) : |r - q| ≤ q / 2 ^ 50 := by
  have hr := h.nonneg hq
  have hkept : (1 : ℚ) - 6 / 2 ^ 53 ≤ kept ^ 6 := by norm_num [kept]
  have hlow : (1 - 6 / 2 ^ 53) * q ≤ r := (mul_le_mul_of_nonneg_right hkept hq).trans h.le
  have hhigh : (1 - 6 / 2 ^ 53) * r ≤ q := (mul_le_mul_of_nonneg_right hkept hr).trans h.ge
  rw [abs_le]
  constructor
  · linarith
  · linarith

end Close

end TimedInput.Rounding
