import Mathlib.Order.Interval.Set.UnorderedInterval
import TimedInput.Proofs.Number.Nearest
import TimedInput.Proofs.Playback.Glides

/-!
# Positions on the way

The position of a step is rounded three times: as a product, as a quotient, and to an integer. Still
a glide never turns back and never goes past its target, since rounding keeps the order of numbers
and does not change the distance itself. So what is sent of a position fits into 32 bits.
-/

namespace TimedInput

open Rounding

/-- The share of the distance `d` at step `i` of `n`, before it is rounded to an integer. -/
def share (n : Nat) (d : Int) (i : Nat) : ℚ :=
  binary64 (binary64 (d * i) / n)

section Shares

variable {n i j : Nat} {d : Int}

theorem share_nonneg (hd : 0 ≤ d) : 0 ≤ share n d i := by
  have hproduct : (0 : ℚ) ≤ d * i := mul_nonneg (Int.cast_nonneg hd) (Nat.cast_nonneg i)
  exact binary64_nonneg (div_nonneg (binary64_nonneg hproduct) (Nat.cast_nonneg n))

theorem share_mono (hd : 0 ≤ d) (hij : i ≤ j) : share n d i ≤ share n d j := by
  have hproduct : (d : ℚ) * i ≤ d * j :=
    mul_le_mul_of_nonneg_left (Nat.cast_le.mpr hij) (Int.cast_nonneg hd)
  exact binary64_mono (div_le_div_of_nonneg_right (binary64_mono hproduct) (Nat.cast_nonneg n))

/-- One step before the end there is room for what the product may gain when it is rounded. -/
theorem binary64_product_le (hd : 0 ≤ d) (hn : n < 2 ^ 53) (hi : i < n) :
    binary64 (d * i) ≤ d * n := by
  have hdpos : (0 : ℚ) ≤ d := Int.cast_nonneg hd
  have hstep : (i : ℚ) + 1 ≤ n := by exact_mod_cast hi
  have hsteps : (i : ℚ) ≤ 2 ^ 53 := by exact_mod_cast (by omega : i ≤ 2 ^ 53)
  have hgain : d * i / 2 ^ 53 ≤ (d : ℚ) := by
    rw [div_le_iff₀ (by positivity)]
    exact mul_le_mul_of_nonneg_left hsteps hdpos
  have hclose := (abs_le.mp (abs_binary64_sub_le (mul_nonneg hdpos (Nat.cast_nonneg i)))).2
  calc binary64 (d * i) ≤ d * i + d * i / 2 ^ 53 := by linarith
    _ ≤ d * i + d := by linarith
    _ = d * (i + 1) := by ring
    _ ≤ d * n := mul_le_mul_of_nonneg_left hstep hdpos

theorem share_le (hd : 0 ≤ d) (hmost : d < 2 ^ 53) (hn : n < 2 ^ 53) (hi : i < n) :
    share n d i ≤ d := by
  have hnpos : (0 : ℚ) < n := Nat.cast_pos.mpr (by omega)
  have hquotient : binary64 (d * i) / n ≤ d := by
    rw [div_le_iff₀ hnpos]
    exact binary64_product_le hd hn hi
  calc share n d i ≤ binary64 d := binary64_mono hquotient
    _ = d := binary64_intCast (by rwa [abs_of_nonneg hd])

end Shares

section Positions

variable {n i j : Nat} {d : Int}

theorem stepPosition_neg (n : Nat) (d : Int) (i : Nat) :
    stepPosition n (-d) i = -stepPosition n d i := by
  rw [stepPosition, stepPosition]
  split
  · rfl
  · simp only [Int.cast_neg, binary64_neg, neg_mul, neg_div, halfAway_neg]

theorem stepPosition_of_lt (hd : |d| < 2 ^ 53) (hn : n < 2 ^ 53) (hi : i < n) :
    stepPosition n d i = halfAway (share n d i) := by
  rw [stepPosition, if_neg hi.ne, binary64_intCast hd, binary64_natCast (by omega),
    binary64_natCast hn]
  rfl

theorem stepPosition_mono (hd : 0 ≤ d) (hmost : d < 2 ^ 53) (hn : n < 2 ^ 53) (hij : i ≤ j)
    (hj : j ≤ n) :
    0 ≤ stepPosition n d i ∧ stepPosition n d i ≤ stepPosition n d j ∧ stepPosition n d j ≤ d := by
  have habs : |d| < 2 ^ 53 := by rwa [abs_of_nonneg hd]
  have hlow : ∀ k ≤ n, 0 ≤ stepPosition n d k := by
    intro k hk
    rcases hk.eq_or_lt with rfl | hlt
    · rwa [stepPosition_self]
    · rw [stepPosition_of_lt habs hn hlt, ← halfAway_zero]
      exact halfAway_mono le_rfl (share_nonneg hd)
  have hhigh : ∀ k ≤ n, stepPosition n d k ≤ d := by
    intro k hk
    rcases hk.eq_or_lt with rfl | hlt
    · rw [stepPosition_self]
    · calc stepPosition n d k = halfAway (share n d k) := stepPosition_of_lt habs hn hlt
        _ ≤ halfAway d := halfAway_mono (share_nonneg hd) (share_le hd hmost hn hlt)
        _ = d := halfAway_intCast d
  refine ⟨hlow i (by omega), ?_, hhigh j hj⟩
  rcases hj.eq_or_lt with rfl | hlt
  · rw [stepPosition_self]
    exact hhigh i hij
  · rw [stepPosition_of_lt habs hn (by omega), stepPosition_of_lt habs hn hlt]
    exact halfAway_mono (share_nonneg hd) (share_mono hd hij)

/-- The positions run from the start to the target, on whatever side of it this is. -/
theorem stepPosition_ordered (hd : |d| < 2 ^ 53) (hn : n < 2 ^ 53) (hij : i ≤ j) (hj : j ≤ n) :
    (0 ≤ stepPosition n d i ∧ stepPosition n d i ≤ stepPosition n d j ∧ stepPosition n d j ≤ d) ∨
      (d ≤ stepPosition n d j ∧ stepPosition n d j ≤ stepPosition n d i ∧
        stepPosition n d i ≤ 0) := by
  obtain ⟨hlow, hhigh⟩ := abs_lt.mp hd
  rcases le_total 0 d with hnonneg | hnonpos
  · exact .inl (stepPosition_mono hnonneg hhigh hn hij hj)
  · right
    have h := stepPosition_mono (d := -d) (by omega) (by omega) hn hij hj
    rw [stepPosition_neg, stepPosition_neg] at h
    omega

theorem stepPosition_sub_mem (hd : |d| < 2 ^ 53) (hn : n < 2 ^ 53) (hij : i ≤ j) (hj : j ≤ n) :
    stepPosition n d j - stepPosition n d i ∈ Set.uIcc 0 d := by
  rw [Set.mem_uIcc]
  rcases stepPosition_ordered hd hn hij hj with h | h
  · left
    omega
  · right
    omega

theorem sign_stepPosition (hd : |d| < 2 ^ 53) (hn : n < 2 ^ 53) (hi : i ≤ n) :
    stepPosition n d i = 0 ∨ (stepPosition n d i).sign = d.sign := by
  rcases lt_trichotomy (stepPosition n d i) 0 with hneg | hzero | hpos
  · right
    have h := stepPosition_ordered hd hn le_rfl hi
    rw [Int.sign_eq_neg_one_of_neg hneg, Int.sign_eq_neg_one_of_neg (by omega)]
  · exact .inl hzero
  · right
    have h := stepPosition_ordered hd hn le_rfl hi
    rw [Int.sign_eq_one_of_pos hpos, Int.sign_eq_one_of_pos (by omega)]

theorem abs_stepPosition_mono (hd : |d| < 2 ^ 53) (hn : n < 2 ^ 53) (hij : i ≤ j) (hj : j ≤ n) :
    |stepPosition n d i| ≤ |stepPosition n d j| ∧ |stepPosition n d j| ≤ |d| := by
  rcases stepPosition_ordered hd hn hij hj with h | h
  · rw [abs_of_nonneg h.1, abs_of_nonneg (by omega), abs_of_nonneg (by omega : 0 ≤ d)]
    exact h.2
  · rw [abs_of_nonpos h.2.2, abs_of_nonpos (by omega), abs_of_nonpos (by omega : d ≤ 0)]
    omega

theorem abs_product_mem (hd : |d| < 2 ^ 32) (hne : d ≠ 0) (hi : 1 ≤ i) (hmost : i < 2 ^ 31) :
    pow2 0 ≤ |(d : ℚ) * i| ∧ |(d : ℚ) * i| ≤ pow2 63 := by
  constructor
  · have hint : (1 : Int) ≤ |d * i| := Int.one_le_abs (mul_ne_zero hne (by omega))
    have hcast : (1 : ℚ) ≤ |(d : ℚ) * i| := by exact_mod_cast hint
    exact hcast
  · have hdcast : |(d : ℚ)| ≤ 2 ^ 32 := by exact_mod_cast hd.le
    have hicast : (i : ℚ) ≤ 2 ^ 31 := by exact_mod_cast hmost.le
    calc |(d : ℚ) * i| = |(d : ℚ)| * i := by rw [abs_mul, Nat.abs_cast]
      _ ≤ 2 ^ 32 * 2 ^ 31 := mul_le_mul hdcast hicast (Nat.cast_nonneg i) (by positivity)
      _ = 2 ^ 63 := (pow_add 2 32 31).symm
      _ = pow2 63 := (pow2_natCast 63).symm

/-- A quotient is smaller than its dividend, but not by more bits than the divisor has. -/
theorem abs_div_natCast_mem {q : ℚ} {j k : Int} (hlow : pow2 j ≤ |q|) (hhigh : |q| ≤ pow2 k)
    (hpos : 1 ≤ n) (hn : n < 2 ^ 31) : pow2 (j - 31) ≤ |q / n| ∧ |q / n| ≤ pow2 k := by
  have hone : (1 : ℚ) ≤ n := by exact_mod_cast hpos
  have hncast : (n : ℚ) ≤ pow2 31 := by
    rw [show pow2 31 = 2 ^ 31 from pow2_natCast 31]
    exact_mod_cast hn.le
  rw [abs_div, Nat.abs_cast]
  refine ⟨?_, (div_le_self (abs_nonneg q) hone).trans hhigh⟩
  rw [le_div_iff₀ (by linarith)]
  calc pow2 (j - 31) * n ≤ pow2 (j - 31) * pow2 31 :=
        mul_le_mul_of_nonneg_left hncast (pow2_pos _).le
    _ = pow2 j := by rw [← pow2_add, sub_add_cancel]
    _ ≤ |q| := hlow

theorem isNormal_product_quotient (hd : |d| < 2 ^ 32) (hn : n < 2 ^ 31) (hi : 1 ≤ i)
    (hin : i ≤ n) : IsNormal (d * i) ∧ IsNormal (binary64 (d * i) / n) := by
  rcases eq_or_ne d 0 with rfl | hne
  · rw [Int.cast_zero, zero_mul, binary64_zero, zero_div]
    exact ⟨.inl rfl, .inl rfl⟩
  · obtain ⟨hlow, hhigh⟩ := abs_product_mem hd hne hi (by omega)
    obtain ⟨hlow', hhigh'⟩ := abs_binary64_mem hlow hhigh
    obtain ⟨hleast, hmost⟩ := abs_div_natCast_mem hlow' hhigh' (by omega) hn
    have hbottom : ∀ k : Int, -31 ≤ k → pow2 (-1022) ≤ pow2 k :=
      fun k hk => pow2_le_iff.mpr (by omega)
    have htop : pow2 63 ≤ pow2 1023 := pow2_le_iff.mpr (by decide)
    exact ⟨.inr ⟨(hbottom 0 (by decide)).trans hlow, hhigh.trans htop⟩,
      .inr ⟨(hbottom (0 - 31) (by decide)).trans hleast, hmost.trans htop⟩⟩

end Positions

section Coordinates

/-- Step `i` of `n` on an axis from `origin` to `target` ends at `x`, which is what the step comes
to in integers and lies on the way. -/
structure StepsTo (origin target : Int32) (n i : Nat) (x : Int32) : Prop where
  exact : x.toInt = origin.toInt + stepPosition n (target.toInt - origin.toInt) i
  between : x.toInt ∈ Set.uIcc origin.toInt target.toInt

/-- Step `i` of `n` covers `dx` of the distance, which is the way in integers from the step before
it and a part of the distance. -/
structure StepsBy (distance : Int32) (n i : Nat) (dx : Int32) : Prop where
  exact : dx.toInt = stepPosition n distance.toInt i - stepPosition n distance.toInt (i - 1)
  between : dx.toInt ∈ Set.uIcc 0 distance.toInt

variable {n i : Nat}

theorem abs_distance_lt (a b : Int32) : |b.toInt - a.toInt| < 2 ^ 53 := by
  have ha := a.le_toInt
  have ha' := a.toInt_lt
  have hb := b.le_toInt
  have hb' := b.toInt_lt
  rw [abs_lt]
  omega

theorem toInt_ofInt_of_between {a b : Int32} {v : Int} (h : v ∈ Set.uIcc a.toInt b.toInt) :
    (Int32.ofInt v).toInt = v := by
  have ha := a.le_toInt
  have ha' := a.toInt_lt
  have hb := b.le_toInt
  have hb' := b.toInt_lt
  rw [Set.mem_uIcc] at h
  exact Int32.toInt_ofInt_of_le (by omega) (by omega)

theorem stepsTo_ofInt (origin target : Int32) (hn : n < 2 ^ 31) (hpos : 0 < n) (hi : i ≤ n) :
    StepsTo origin target n i
      (.ofInt (origin.toInt + stepPosition n (target.toInt - origin.toInt) i)) := by
  have hbetween : origin.toInt + stepPosition n (target.toInt - origin.toInt) i ∈
      Set.uIcc origin.toInt target.toInt := by
    have h := stepPosition_sub_mem (abs_distance_lt origin target) (hn.trans (by norm_num))
      (Nat.zero_le i) hi
    rw [stepPosition_zero hpos.ne', sub_zero, Set.mem_uIcc] at h
    rw [Set.mem_uIcc]
    omega
  have hexact := toInt_ofInt_of_between hbetween
  exact ⟨hexact, hexact.symm ▸ hbetween⟩

theorem stepsBy_ofInt (distance : Int32) (hn : n < 2 ^ 31) (hi : i ≤ n) :
    StepsBy distance n i
      (.ofInt (stepPosition n distance.toInt i - stepPosition n distance.toInt (i - 1))) := by
  have hd : |distance.toInt| < 2 ^ 53 := by simpa using abs_distance_lt 0 distance
  have hbetween := stepPosition_sub_mem hd (hn.trans (by norm_num)) (Nat.sub_le i 1) hi
  have hexact := toInt_ofInt_of_between (a := 0) hbetween
  exact ⟨hexact, hexact.symm ▸ hbetween⟩

end Coordinates

namespace Glide

/-- Double precision rounds to the nearest number of 53 bits, a tie to the one whose last bit is
zero, and the integer taken in the end is the nearest, a half away from zero. That is how the product
and the quotient of a position are rounded, and the exponents suffice for both. The positions of the
steps are on the side of the target, or at the start; none is further away than a later one or than
the target, and the last one is the target. So every call of a move has coordinates that are the
integers computed for its step: an absolute move stays between the place where it starts and its
target, and no distance of a relative move is more than the whole or goes the other way. -/
theorem positions_stay_on_the_way :
    ((∀ q r : ℚ, IsRounded 53 q r ↔ binary64 q = r) ∧
      ∀ (q : ℚ) (n : Int), IsNearest q n ↔ halfAway q = n) ∧
    (∀ (d : Int) (n i j : Nat), |d| < 2 ^ 32 → n < 2 ^ 31 → 1 ≤ i → i ≤ j → j ≤ n →
      IsNormal (d * i) ∧ IsNormal (binary64 (d * i) / n) ∧
      (i < n → stepPosition n d i = halfAway (binary64 (binary64 (d * i) / n))) ∧
      (stepPosition n d i = 0 ∨ (stepPosition n d i).sign = d.sign) ∧
      |stepPosition n d i| ≤ |stepPosition n d j| ∧ |stepPosition n d j| ≤ |d| ∧
      stepPosition n d n = d) ∧
    ∀ (settings : Settings) (s : InputState) (event : Event) (mode : MoveMode) (x y : Int32)
      (duration : UInt64), event.action = .move mode x y duration → duration ≠ 0 →
      let n := stepCount duration settings.effectiveTick
      let origin := mode.origin ⟨x, y⟩ s.pointer
      let calls := event.calls settings s
      n < 2 ^ 31 → calls.length = n ∧
        (mode = .absolute → ∀ i < n, ∃ p : Point, calls[i]? = some (.moveAbsolute p.x p.y) ∧
          StepsTo origin.x x n (i + 1) p.x ∧ StepsTo origin.y y n (i + 1) p.y) ∧
        (mode = .relative → ∀ i < n, ∃ d : Point, calls[i]? = some (.moveRelative d.x d.y) ∧
          StepsBy x n (i + 1) d.x ∧ StepsBy y n (i + 1) d.y) := by
  refine ⟨⟨fun q r => isRounded_binary64_iff, fun q n => isNearest_iff⟩, ?_, ?_⟩
  · intro d n i j hd hn hi hij hj
    have hexact : |d| < 2 ^ 53 := hd.trans (by norm_num)
    have hcount : n < 2 ^ 53 := hn.trans (by norm_num)
    have hin : i ≤ n := hij.trans hj
    obtain ⟨hproduct, hquotient⟩ := isNormal_product_quotient hd hn hi hin
    obtain ⟨hmono, hle⟩ := abs_stepPosition_mono hexact hcount hij hj
    exact ⟨hproduct, hquotient, stepPosition_of_lt hexact hcount,
      sign_stepPosition hexact hcount hin, hmono, hle, stepPosition_self n d⟩
  · intro settings s event mode x y duration haction hduration n origin calls hn
    have hcalls : calls = (List.range n).map (stepCall mode origin
        (x.toInt - origin.x.toInt) (y.toInt - origin.y.toInt) n) :=
      (Event.calls_of_glide settings s haction hduration).trans (callsOf_start? ..)
    have hget : ∀ i < n, calls[i]? = some (stepCall mode origin
        (x.toInt - origin.x.toInt) (y.toInt - origin.y.toInt) n i) := by
      intro i hi
      rw [hcalls, List.getElem?_map, List.getElem?_range hi]
      rfl
    refine ⟨by rw [hcalls, List.length_map, List.length_range], ?_, ?_⟩
    · rintro rfl i hi
      exact ⟨⟨_, _⟩, hget i hi, stepsTo_ofInt origin.x x hn (by omega) hi,
        stepsTo_ofInt origin.y y hn (by omega) hi⟩
    · rintro rfl i hi
      refine ⟨⟨_, _⟩, (hget i hi).trans ?_, stepsBy_ofInt x hn hi, stepsBy_ofInt y hn hi⟩
      have hx : x.toInt - origin.x.toInt = x.toInt := Int.sub_zero x.toInt
      have hy : y.toInt - origin.y.toInt = y.toInt := Int.sub_zero y.toInt
      rw [hx, hy]
      rfl

/-- The pointer is further from the target than a coordinate can tell. The other positions are
those of the longest distance and the largest number of steps, where the product is not exact. -/
theorem positions_stay_on_the_way_far_apart :
    let s : InputState := { InputState.empty with pointer := some ⟨-1000, 0⟩ }
    let event : Event := ⟨0, .move .absolute 2147483000 0 32, 0⟩
    let calls := event.calls .standard s
    stepCount 32 Settings.standard.effectiveTick = 2 ∧ calls.length = 2 ∧
    calls[0]? = some (.moveAbsolute 1073741000 0) ∧
    calls[1]? = some (.moveAbsolute 2147483000 0) ∧
    stepPosition 2147483647 4294967295 2147483646 = 4294967293 ∧
    |stepPosition 2147483647 4294967295 2147483645| ≤
      |stepPosition 2147483647 4294967295 2147483646| := by
  intro s event calls
  obtain ⟨-, hpositions, hcalls⟩ := positions_stay_on_the_way
  have hcount : stepCount 32 Settings.standard.effectiveTick = 2 := by decide
  obtain ⟨hlength, habsolute, -⟩ := hcalls .standard s event .absolute 2147483000 0 32 rfl
    (by decide) (by decide)
  rw [hcount] at hlength habsolute
  refine ⟨hcount, hlength, ?_, ?_, by decide +kernel, ?_⟩
  · obtain ⟨p, hcall, hx, hy⟩ := habsolute rfl 0 (by decide)
    have hpx : p.x = 1073741000 := Int32.toInt_inj.mp (hx.exact.trans (by decide +kernel))
    have hpy : p.y = 0 := Int32.toInt_inj.mp (hy.exact.trans (by decide +kernel))
    rw [← hpx, ← hpy]
    exact hcall
  · obtain ⟨p, hcall, hx, hy⟩ := habsolute rfl 1 (by decide)
    have hpx : p.x = 2147483000 := Int32.toInt_inj.mp (hx.exact.trans (by decide +kernel))
    have hpy : p.y = 0 := Int32.toInt_inj.mp (hy.exact.trans (by decide +kernel))
    rw [← hpx, ← hpy]
    exact hcall
  · obtain ⟨-, -, -, -, hmono, -⟩ := hpositions 4294967295 2147483647 2147483645 2147483646
      (by decide) (by decide) (by decide) (by decide) (by decide)
    exact hmono

end Glide

end TimedInput
