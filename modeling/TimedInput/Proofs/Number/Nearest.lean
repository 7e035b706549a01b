import TimedInput.Proofs.Number.Rounding

/-!
# Rounding to the nearest

Of the numbers with a given number of significant bits, rounding takes one that no other is nearer
to, and of two that are as near the one whose last bit is zero. That alone tells that rounding
keeps the order of numbers, and keeps a number that has no more bits.

For a quotient of integers the error is too little to change the nearest integer: a quotient is
either exactly between two integers, where nothing is rounded, or it keeps away from that place.
-/

namespace TimedInput.Rounding

/-- A number of no more than `p` significant bits, however large or small. -/
def Fits (p : Nat) (r : ℚ) : Prop :=
  ∃ m k : Int, |m| < 2 ^ p ∧ r = m * pow2 k

/-- No number of `p` bits is nearer to `q` than `r`. If another one is as near, the last of the
bits of `r` is zero, so that it would fit without it. -/
structure IsRounded (p : Nat) (q r : ℚ) : Prop where
  fits : Fits p r
  near : ∀ s, Fits p s → |q - r| ≤ |q - s|
  even : ∀ s, Fits p s → |q - s| = |q - r| → s ≠ r → Fits (p - 1) r

section Fits

variable {p : Nat} {r : ℚ}

theorem fits_intCast {m : Int} (h : |m| < 2 ^ p) : Fits p m :=
  ⟨m, 0, h, (mul_one _).symm⟩

theorem fits_pow2 (hp : 0 < p) (k : Int) : Fits p (pow2 k) := by
  refine ⟨1, k, ?_, by rw [Int.cast_one, one_mul]⟩
  rw [abs_one]
  exact one_lt_pow₀ one_lt_two hp.ne'

theorem fits_zero (p : Nat) : Fits p 0 :=
  ⟨0, 0, by positivity, by rw [Int.cast_zero, zero_mul]⟩

theorem Fits.mono {p' : Nat} (h : Fits p r) (hp : p ≤ p') : Fits p' r := by
  obtain ⟨m, k, hm, rfl⟩ := h
  exact ⟨m, k, hm.trans_le (pow_le_pow_right₀ one_le_two hp), rfl⟩

theorem Fits.half (h : Fits p r) : Fits p (r / 2) := by
  obtain ⟨m, k, hm, rfl⟩ := h
  refine ⟨m, k + -1, hm, ?_⟩
  rw [pow2_add, mul_div_assoc, div_eq_mul_one_div]
  rfl

theorem Fits.neg (h : Fits p r) : Fits p (-r) := by
  obtain ⟨m, k, hm, rfl⟩ := h
  exact ⟨-m, k, by rwa [abs_neg], by rw [Int.cast_neg, neg_mul]⟩

/-- The power of two behind the numbers of `p` bits has one bit more, but all except the first are
zero. -/
theorem fits_of_abs_le (hp : 0 < p) {m : Int} (hm : |m| ≤ 2 ^ p) (k : Int) :
    Fits p (m * pow2 k) := by
  rcases hm.lt_or_eq with hlt | heq
  · exact ⟨m, k, hlt, rfl⟩
  · have hpower : ((2 ^ p : Int) : ℚ) * pow2 k = pow2 (p + k) := by
      rw [pow2_add, pow2_natCast, Int.cast_pow, Int.cast_ofNat]
    rcases eq_or_eq_neg_of_abs_eq heq with rfl | rfl
    · rw [hpower]
      exact fits_pow2 hp _
    · rw [Int.cast_neg, neg_mul, hpower]
      exact (fits_pow2 hp _).neg

end Fits

section HalfEven

variable {q : ℚ} {t : Int}

theorem one_le_abs_sub (h : t ≠ halfEven q) : 1 ≤ |q - t| + |q - halfEven q| := by
  have hone : (1 : ℚ) ≤ |(t : ℚ) - halfEven q| := by
    exact_mod_cast Int.one_le_abs (sub_ne_zero.mpr h)
  calc (1 : ℚ) ≤ |(t : ℚ) - halfEven q| := hone
    _ ≤ |(t : ℚ) - q| + |q - halfEven q| := abs_sub_le ..
    _ = |q - t| + |q - halfEven q| := by rw [abs_sub_comm]

theorem abs_sub_halfEven_le (q : ℚ) (t : Int) : |q - halfEven q| ≤ |q - t| := by
  by_cases h : t = halfEven q
  · rw [h]
  · have hhalf := abs_halfEven_sub_le q
    rw [abs_sub_comm] at hhalf
    linarith [one_le_abs_sub h]

theorem even_of_tie (hne : t ≠ halfEven q) (htie : |q - t| = |q - halfEven q|) :
    2 ∣ halfEven q := by
  have hfar : 1 / 2 ≤ |q - halfEven q| := by linarith [one_le_abs_sub hne]
  have hle : (q.floor : ℚ) ≤ q := Int.floor_le q
  have hlt : q < q.floor + 1 := Int.lt_floor_add_one q
  unfold halfEven at hfar ⊢
  simp only at hfar ⊢
  split at hfar
  · rename_i hbelow
    rw [abs_of_nonneg (by linarith)] at hfar
    linarith
  rename_i hbelow
  rw [if_neg hbelow]
  split at hfar
  · rename_i habove
    push_cast at hfar
    rw [abs_of_nonpos (by linarith)] at hfar
    linarith
  rename_i habove
  rw [if_neg habove]
  split <;> omega

end HalfEven

section Positive

variable {p : Nat} {q s : ℚ}

/-- What the last of the bits that are kept is worth. -/
def lastBit (p : Nat) (q : ℚ) : ℚ :=
  pow2 (exponent q + 1 - p)

theorem lastBit_pos (p : Nat) (q : ℚ) : 0 < lastBit p q :=
  pow2_pos _

theorem pow2_mul_lastBit {k : Nat} {e : Int} (h : e = k + (exponent q + 1 - p)) :
    2 ^ k * lastBit p q = pow2 e := by
  rw [lastBit, ← pow2_natCast, ← pow2_add, h]

theorem abs_sub_mul_lastBit (t : Int) :
    |q - t * lastBit p q| = |q / lastBit p q - t| * lastBit p q := by
  have hpos := lastBit_pos p q
  rw [← abs_of_pos hpos, ← abs_mul, abs_of_pos hpos, sub_mul, div_mul_cancel₀ _ hpos.ne']

/-- A number with as many bits is a whole number of last bits, unless it has a smaller exponent. -/
theorem multiple_or_lt (h : Fits p s) :
    (∃ t : Int, s = t * lastBit p q) ∨ s < pow2 (exponent q) := by
  obtain ⟨m, k, hm, rfl⟩ := h
  by_cases hk : exponent q + 1 - p ≤ k
  · obtain ⟨shift, hshift⟩ := Int.le.dest hk
    left
    refine ⟨m * 2 ^ shift, ?_⟩
    rw [Int.cast_mul, mul_assoc, Int.cast_pow, Int.cast_ofNat, pow2_mul_lastBit]
    omega
  · right
    have hm' : (m : ℚ) < 2 ^ p := by exact_mod_cast (le_abs_self m).trans_lt hm
    calc m * pow2 k < 2 ^ p * pow2 k := mul_lt_mul_of_pos_right hm' (pow2_pos k)
      _ = pow2 (p + k) := by rw [pow2_add, pow2_natCast]
      _ ≤ pow2 (exponent q) := pow2_le_iff.mpr (by omega)

variable (hq : 0 < q)
include hq

theorem lt_two_pow_mul_lastBit : q < 2 ^ p * lastBit p q := by
  rw [pow2_mul_lastBit (e := exponent q + 1) (by omega)]
  exact lt_pow2_exponent hq

/-- A number that fits is its bits times what the last of them is worth. -/
theorem Fits.exists_eq_mul_lastBit (h : Fits p q) :
    ∃ m : Int, 0 < m ∧ m < 2 ^ p ∧ q = m * lastBit p q := by
  have hpos := lastBit_pos p q
  obtain ⟨m, hm⟩ := (multiple_or_lt (q := q) h).resolve_right (pow2_exponent_le hq).not_gt
  have hlow : (0 : ℚ) < m := pos_of_mul_pos_left (hm ▸ hq) hpos.le
  have hhigh : (m : ℚ) < 2 ^ p :=
    lt_of_mul_lt_mul_right (hm ▸ lt_two_pow_mul_lastBit hq) hpos.le
  exact ⟨m, by exact_mod_cast hlow, by exact_mod_cast hhigh, hm⟩

/-- The bits that are kept make a number with as many bits, or the power of two behind these. -/
theorem abs_halfEven_div_lastBit_le : |halfEven (q / lastBit p q)| ≤ 2 ^ p := by
  let x := q / lastBit p q
  have hpos : 0 < x := div_pos hq (lastBit_pos p q)
  have hlt : x < 2 ^ p := by
    rw [div_lt_iff₀ (lastBit_pos p q)]
    exact lt_two_pow_mul_lastBit hq
  obtain ⟨hlow, hhigh⟩ := abs_le.mp (abs_halfEven_sub_le x)
  have hnonneg : -1 < halfEven x := by
    have hcast : (-1 : ℚ) < halfEven x := by linarith
    exact_mod_cast hcast
  have hle : halfEven x < 2 ^ p + 1 := by
    have hcast : (halfEven x : ℚ) < 2 ^ p + 1 := by linarith
    exact_mod_cast hcast
  change |halfEven x| ≤ 2 ^ p
  rw [abs_of_nonneg (by omega)]
  omega

theorem fits_toSignificantPos (hp : 0 < p) : Fits p (toSignificantPos p q) :=
  fits_of_abs_le hp (abs_halfEven_div_lastBit_le hq) _

theorem fits_toSignificantPos_of_even (hp : 1 < p) (h : 2 ∣ halfEven (q / lastBit p q)) :
    Fits (p - 1) (toSignificantPos p q) := by
  obtain ⟨half, hhalf⟩ := h
  have hle : |half| ≤ 2 ^ (p - 1) := by
    have hwhole := abs_halfEven_div_lastBit_le (p := p) hq
    have hpower : (2 : Int) ^ p = 2 * 2 ^ (p - 1) := by rw [mul_comm, pow_sub_one_mul (by omega)]
    rw [hhalf, abs_mul, abs_of_pos two_pos, hpower] at hwhole
    omega
  have heq : toSignificantPos p q = half * pow2 (exponent q + 1 - p + 1) := by
    change halfEven (q / lastBit p q) * pow2 (exponent q + 1 - p) = _
    rw [hhalf, pow2_add, Int.cast_mul, Int.cast_ofNat, mul_comm 2, mul_assoc, mul_comm 2]
    rfl
  rw [heq]
  exact fits_of_abs_le (by omega) hle _

/-- A power of two lies between a smaller number and all that have as large an exponent. -/
theorem abs_sub_toSignificantPos_lt (hp : 0 < p) (h : s < pow2 (exponent q)) :
    |q - toSignificantPos p q| < |q - s| := by
  have hpower : pow2 (exponent q) = (2 ^ (p - 1) : Int) * lastBit p q := by
    rw [Int.cast_pow, Int.cast_ofNat, pow2_mul_lastBit]
    omega
  have hle : pow2 (exponent q) ≤ q := pow2_exponent_le hq
  calc |q - toSignificantPos p q|
      = |q / lastBit p q - halfEven (q / lastBit p q)| * lastBit p q := abs_sub_mul_lastBit _
    _ ≤ |q / lastBit p q - (2 ^ (p - 1) : Int)| * lastBit p q :=
        mul_le_mul_of_nonneg_right (abs_sub_halfEven_le _ _) (lastBit_pos p q).le
    _ = q - pow2 (exponent q) := by
        rw [← abs_sub_mul_lastBit, ← hpower, abs_of_nonneg (sub_nonneg.mpr hle)]
    _ < q - s := sub_lt_sub_left h q
    _ ≤ |q - s| := le_abs_self _

theorem isRounded_toSignificantPos (hp : 1 < p) : IsRounded p q (toSignificantPos p q) := by
  have hpos := lastBit_pos p q
  have hrounded : |q - toSignificantPos p q| =
      |q / lastBit p q - halfEven (q / lastBit p q)| * lastBit p q := abs_sub_mul_lastBit _
  refine ⟨fits_toSignificantPos hq (by omega), ?_, ?_⟩
  · intro s hs
    rcases multiple_or_lt (q := q) hs with ⟨t, rfl⟩ | hlt
    · rw [hrounded, abs_sub_mul_lastBit]
      exact mul_le_mul_of_nonneg_right (abs_sub_halfEven_le _ t) hpos.le
    · exact (abs_sub_toSignificantPos_lt hq (by omega) hlt).le
  · intro s hs htie hne
    rcases multiple_or_lt (q := q) hs with ⟨t, rfl⟩ | hlt
    · have hother : t ≠ halfEven (q / lastBit p q) := by
        rintro rfl
        exact hne rfl
      rw [hrounded, abs_sub_mul_lastBit] at htie
      exact fits_toSignificantPos_of_even hq hp
        (even_of_tie hother (mul_right_cancel₀ hpos.ne' htie))
    · exact absurd htie (abs_sub_toSignificantPos_lt hq (by omega) hlt).ne'

end Positive

section Rounded

variable {p : Nat} {q r s : ℚ}

theorem IsRounded.neg (h : IsRounded p q r) : IsRounded p (-q) (-r) := by
  have hdist : ∀ s, |-q - s| = |q - -s| := by
    intro s
    rw [← abs_neg, neg_sub, sub_neg_eq_add, sub_neg_eq_add, add_comm]
  refine ⟨h.fits.neg, ?_, ?_⟩
  · intro s hs
    rw [hdist, hdist, neg_neg]
    exact h.near (-s) hs.neg
  · intro s hs htie hne
    rw [hdist, hdist, neg_neg] at htie
    exact (h.even (-s) hs.neg htie fun heq => hne (by rw [← heq, neg_neg])).neg

theorem isRounded_toSignificant (hp : 1 < p) (q : ℚ) : IsRounded p q (toSignificant p q) := by
  unfold toSignificant
  split
  · exact isRounded_toSignificantPos ‹_› hp
  split
  · rename_i hneg
    have h := (isRounded_toSignificantPos (neg_pos.mpr hneg) hp).neg
    rwa [neg_neg] at h
  · obtain rfl : q = 0 := le_antisymm (not_lt.mp ‹_›) (not_lt.mp ‹_›)
    refine ⟨fits_zero p, fun s _ => by simp, fun s _ htie hne => ?_⟩
    exact absurd (by simpa using htie) hne

/-- What is no further from the larger of two numbers is not below the middle between them. -/
theorem middle_le (hrs : r < s) (h : |q - s| ≤ |q - r|) : (r + s) / 2 ≤ q := by
  by_contra hlt
  have hnear : |q - r| < s - q := abs_lt.mpr ⟨by linarith, by linarith⟩
  have hfar : s - q ≤ |q - s| := by
    rw [abs_sub_comm]
    exact le_abs_self _
  linarith

theorem le_middle (hrs : r < s) (h : |q - r| ≤ |q - s|) : q ≤ (r + s) / 2 := by
  by_contra hlt
  have hnear : |q - s| < q - r := abs_lt.mpr ⟨by linarith, by linarith⟩
  have hfar : q - r ≤ |q - r| := le_abs_self _
  linarith

/-- With one bit more there is a number between any two, since the last bit can be halved. -/
theorem Fits.exists_between_of_nonneg (hr : Fits (p - 1) r) (hs : Fits (p - 1) s) (hp : 0 < p)
    (hnonneg : 0 ≤ r) (hrs : r < s) : ∃ t, Fits p t ∧ r < t ∧ t < s := by
  rcases hnonneg.eq_or_lt with rfl | hpos
  · exact ⟨s / 2, (hs.mono (by omega)).half, by linarith, by linarith⟩
  · have hunit : 0 < lastBit (p - 1) r := lastBit_pos _ r
    have hbelow : pow2 (exponent r) ≤ s := (pow2_exponent_le hpos).trans hrs.le
    obtain ⟨m, hm, hbits, hreq⟩ := hr.exists_eq_mul_lastBit hpos
    obtain ⟨n, hseq⟩ := (multiple_or_lt (q := r) hs).resolve_right hbelow.not_gt
    have hmn : (m : ℚ) + 1 ≤ n := by
      have hcast : (m : ℚ) < n := lt_of_mul_lt_mul_right (hreq ▸ hseq ▸ hrs) hunit.le
      exact_mod_cast hcast
    have hpower : (2 : Int) ^ p = 2 * 2 ^ (p - 1) := by rw [mul_comm, pow_sub_one_mul (by omega)]
    have hfits : Fits p ((2 * m + 1 : Int) * lastBit (p - 1) r) := by
      refine ⟨2 * m + 1, _, ?_, rfl⟩
      rw [abs_of_pos (by omega), hpower]
      omega
    refine ⟨(2 * m + 1 : Int) * lastBit (p - 1) r / 2, hfits.half, ?_, ?_⟩
    · push_cast
      linarith
    · have hstep := mul_le_mul_of_nonneg_right hmn hunit.le
      push_cast
      linarith

theorem Fits.exists_between (hr : Fits (p - 1) r) (hs : Fits (p - 1) s) (hp : 0 < p)
    (hrs : r < s) : ∃ t, Fits p t ∧ r < t ∧ t < s := by
  by_cases hnonneg : 0 ≤ r
  · exact hr.exists_between_of_nonneg hs hp hnonneg hrs
  by_cases hnonpos : s ≤ 0
  · obtain ⟨t, ht, hst, htr⟩ := hs.neg.exists_between_of_nonneg hr.neg hp (by linarith)
      (neg_lt_neg hrs)
    exact ⟨-t, ht.neg, by linarith, by linarith⟩
  · exact ⟨0, fits_zero p, by linarith, by linarith⟩

/-- Rounding has one result. Two that are as near would both end with a zero, and between them there
would be a number with this bit set. -/
theorem IsRounded.unique (hp : 0 < p) (h : IsRounded p q r) (h' : IsRounded p q s) : r = s := by
  by_contra hne
  wlog hrs : r < s generalizing r s
  · exact this h' h (Ne.symm hne) (lt_of_le_of_ne (not_lt.mp hrs) (Ne.symm hne))
  have htie : |q - r| = |q - s| := le_antisymm (h.near s h'.fits) (h'.near r h.fits)
  have hr := h.even s h'.fits htie.symm (Ne.symm hne)
  have hs := h'.even r h.fits htie hne
  obtain ⟨t, ht, hrt, hts⟩ := hr.exists_between hs hp hrs
  have hlow := le_middle hrt (h.near t ht)
  have hhigh := middle_le hts (h'.near t ht)
  linarith

theorem isRounded_iff (hp : 1 < p) : IsRounded p q r ↔ toSignificant p q = r :=
  ⟨(isRounded_toSignificant hp q).unique (by omega), fun h => h ▸ isRounded_toSignificant hp q⟩

/-- Numbers that are rounded stay in order, since no two of them pass the middle between what they
are rounded to. -/
theorem IsRounded.le (hp : 0 < p) {q' r' : ℚ} (h : IsRounded p q r) (h' : IsRounded p q' r')
    (hle : q ≤ q') : r ≤ r' := by
  by_contra hnot
  have hrr : r' < r := lt_of_not_ge hnot
  have hlow := middle_le hrr (h.near r' h'.fits)
  have hhigh := le_middle hrr (h'.near r h.fits)
  obtain rfl : q = q' := by linarith
  exact hrr.ne' (h.unique hp h')

theorem IsRounded.eq_of_fits (h : IsRounded p q r) (hq : Fits p q) : r = q := by
  have hnear := h.near q hq
  rw [sub_self, abs_zero] at hnear
  exact (sub_eq_zero.mp (abs_nonpos_iff.mp hnear)).symm

end Rounded

section Binary64

variable {q r : ℚ}

/-- Double precision rounds to the nearest number of 53 bits, and ties to even. -/
theorem isRounded_binary64_iff : IsRounded 53 q r ↔ binary64 q = r :=
  isRounded_iff (by decide)

theorem isRounded_binary64 (q : ℚ) : IsRounded 53 q (binary64 q) :=
  isRounded_binary64_iff.mpr rfl

theorem binary64_mono (h : q ≤ r) : binary64 q ≤ binary64 r :=
  (isRounded_binary64 q).le (by decide) (isRounded_binary64 r) h

theorem binary64_of_fits (h : Fits 53 q) : binary64 q = q :=
  (isRounded_binary64 q).eq_of_fits h

theorem binary64_intCast {m : Int} (h : |m| < 2 ^ 53) : binary64 m = m :=
  binary64_of_fits (fits_intCast h)

theorem binary64_natCast {m : Nat} (h : m < 2 ^ 53) : binary64 m = m := by
  have habs : |(m : Int)| < 2 ^ 53 := by
    rw [Nat.abs_cast]
    exact_mod_cast h
  exact_mod_cast binary64_intCast habs

theorem binary64_half {m : Nat} (h : m < 2 ^ 53) : binary64 (m / 2) = m / 2 := by
  refine binary64_of_fits ⟨m, -1, ?_, (mul_one_div _ _).symm⟩
  rw [Nat.abs_cast]
  exact_mod_cast h

theorem binary64_neg (q : ℚ) : binary64 (-q) = -binary64 q :=
  (isRounded_binary64 (-q)).unique (by decide) (isRounded_binary64 q).neg

theorem abs_binary64 (q : ℚ) : |binary64 q| = binary64 |q| := by
  rcases le_total 0 q with h | h
  · rw [abs_of_nonneg h, abs_of_nonneg (binary64_nonneg h)]
  · have hnonpos : binary64 q ≤ 0 := binary64_mono h
    rw [abs_of_nonpos h, abs_of_nonpos hnonpos, binary64_neg]

/-- Zero, or a number for which the exponents of double precision suffice: it is not so small that
bits get lost, and not so large that it is taken for infinite. -/
def IsNormal (q : ℚ) : Prop :=
  q = 0 ∨ pow2 (-1022) ≤ |q| ∧ |q| ≤ pow2 1023

/-- What lies between two powers of two still does so when it is rounded. -/
theorem abs_binary64_mem {j k : Int} (hlow : pow2 j ≤ |q|) (hhigh : |q| ≤ pow2 k) :
    pow2 j ≤ |binary64 q| ∧ |binary64 q| ≤ pow2 k := by
  rw [abs_binary64]
  constructor
  · rw [← binary64_of_fits (fits_pow2 (by decide) j)]
    exact binary64_mono hlow
  · rw [← binary64_of_fits (fits_pow2 (by decide) k)]
    exact binary64_mono hhigh

end Binary64

section Quotient

variable {a b : Nat}

/-- A quotient that is no half of an integer keeps half a part away from every one. -/
theorem half_part_le {m : Int} (hb : 0 < b) (h : (a : ℚ) / b ≠ m / 2) :
    1 / (2 * b) ≤ |(a : ℚ) / b - m / 2| := by
  have hbpos : (0 : ℚ) < b := Nat.cast_pos.mpr hb
  have hdiff : (a : ℚ) / b - m / 2 = ((2 * a - m * b : Int) : ℚ) / (2 * b) := by
    push_cast
    field_simp
  have hne : (2 * a - m * b : Int) ≠ 0 := by
    intro hzero
    rw [hzero, Int.cast_zero, zero_div] at hdiff
    exact h (sub_eq_zero.mp hdiff)
  have hone : (1 : ℚ) ≤ |((2 * a - m * b : Int) : ℚ)| := by exact_mod_cast Int.one_le_abs hne
  rw [hdiff, abs_div, abs_of_pos (by positivity : (0 : ℚ) < 2 * b)]
  exact div_le_div_of_nonneg_right hone (by positivity)

/-- The last bit of a quotient is worth less than half a part. -/
theorem abs_binary64_div_sub_lt (ha : a < 2 ^ 52) (hb : 0 < b) :
    |binary64 (a / b) - (a : ℚ) / b| < 1 / (2 * b) := by
  have hbpos : (0 : ℚ) < b := Nat.cast_pos.mpr hb
  have hacast : (a : ℚ) < 2 ^ 52 := by exact_mod_cast ha
  calc |binary64 (a / b) - (a : ℚ) / b| ≤ a / b / 2 ^ 53 := abs_binary64_sub_le (by positivity)
    _ = a / 2 ^ 53 / b := div_right_comm ..
    _ < 1 / 2 / b := by
      refine div_lt_div_of_pos_right ?_ hbpos
      rw [div_lt_iff₀ (by positivity)]
      linarith
    _ = 1 / (2 * b) := by rw [div_div]

/-- Rounding moves no quotient over the middle between two integers. -/
theorem half_le_binary64_div_iff (ha : a < 2 ^ 52) (hb : 0 < b) (m : Int) :
    (m : ℚ) / 2 ≤ binary64 (a / b) ↔ (m : ℚ) / 2 ≤ a / b := by
  by_cases htie : (a : ℚ) / b = m / 2
  · -- in the middle itself, the quotient has few bits
    have hm : 0 ≤ m := by
      have hcast : (0 : ℚ) ≤ m / 2 := htie ▸ by positivity
      exact_mod_cast (by linarith : (0 : ℚ) ≤ m)
    lift m to Nat using hm
    have hbits : m < 2 ^ 53 := by
      have htop : (a : ℚ) / b ≤ a := div_le_self (Nat.cast_nonneg a) (by exact_mod_cast hb)
      have hcast : (m : ℚ) ≤ (2 * a : Nat) := by
        rw [htie, Int.cast_natCast] at htop
        push_cast
        linarith
      have hnat : m ≤ 2 * a := by exact_mod_cast hcast
      omega
    rw [htie, Int.cast_natCast, binary64_half hbits]
  · have hfar := half_part_le hb htie
    obtain ⟨hbelow, habove⟩ := abs_lt.mp (abs_binary64_div_sub_lt ha hb)
    rcases le_total ((m : ℚ) / 2) (a / b) with hle | hge
    · rw [abs_of_nonneg (sub_nonneg.mpr hle)] at hfar
      exact iff_of_true (by linarith) hle
    · rw [abs_of_nonpos (sub_nonpos.mpr hge)] at hfar
      have hlt : (a : ℚ) / b < m / 2 := lt_of_le_of_ne hge htie
      exact iff_of_false (by linarith) hlt.not_ge

/-- A quotient of integers that are not too large keeps its nearest integer when it is rounded. -/
theorem halfAway_binary64_div (ha : a < 2 ^ 52) (hb : 0 < b) :
    halfAway (binary64 (a / b)) = halfAway (a / b : ℚ) := by
  have hq : (0 : ℚ) ≤ a / b := by positivity
  let n := halfAway (a / b : ℚ)
  obtain ⟨hle, hlt⟩ := (halfAway_eq_iff hq).mp (rfl : halfAway (a / b : ℚ) = n)
  have hlow := half_le_binary64_div_iff ha hb (2 * n - 1)
  have hhigh := half_le_binary64_div_iff ha hb (2 * n + 1)
  push_cast at hlow hhigh
  refine (halfAway_eq_iff (binary64_nonneg hq)).mpr ⟨?_, ?_⟩
  · linarith [hlow.mpr (by linarith)]
  · have h := mt hhigh.mp (by linarith)
    linarith

end Quotient

end TimedInput.Rounding
