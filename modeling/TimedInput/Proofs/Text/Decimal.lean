import Mathlib.Tactic.NormNum
import TimedInput.Text.Numeral

/-!
# Decimal numerals

A numeral that was written is read as the number that it was written for, as far as the
range of the reader goes. What is read is a numeral, and its number is the one that is read.
-/

namespace TimedInput.Numeral

theorem isDigit_figure {d : Nat} (h : d < 10) : isDigit (figure 97 d) = true := by
  revert d
  decide

theorem toNat_figure {d : Nat} (h : d < 10) : (figure 97 d).toNat - 48 = d := by
  revert d
  decide

theorem inBase_of_lt {base n : Nat} (h : n < base + 2) (letter : UInt8) :
    inBase base letter n = [figure letter n] := by
  rw [inBase, if_pos h]

theorem inBase_of_ge {base n : Nat} (h : base + 2 ≤ n) (letter : UInt8) :
    inBase base letter n =
      inBase base letter (n / (base + 2)) ++ [figure letter (n % (base + 2))] := by
  rw [inBase, if_neg (by omega)]

theorem ofNat_of_lt {n : Nat} (h : n < 10) : ofNat n = [figure 97 n] :=
  inBase_of_lt h 97

theorem ofNat_of_ge {n : Nat} (h : 10 ≤ n) :
    ofNat n = ofNat (n / 10) ++ [figure 97 (n % 10)] :=
  inBase_of_ge h 97

/-- A numeral consists of figures of its base. -/
theorem exists_figure_of_mem_inBase {base n : Nat} {letter b : UInt8}
    (hb : b ∈ inBase base letter n) : ∃ d < base + 2, b = figure letter d := by
  fun_induction inBase base letter n with
  | case1 n h => exact ⟨n, h, List.mem_singleton.mp hb⟩
  | case2 n h ih =>
    rcases List.mem_append.mp hb with hb | hb
    · exact ih hb
    · exact ⟨n % (base + 2), Nat.mod_lt n (by omega), List.mem_singleton.mp hb⟩

theorem inBase_ne_nil (base n : Nat) (letter : UInt8) : inBase base letter n ≠ [] := by
  rw [inBase]
  split <;> simp

/-- A numeral of one figure is not one of several. -/
theorem singleton_ne_inBase {base n : Nat} {b : UInt8} (h : base + 2 ≤ n) (letter : UInt8) :
    [b] ≠ inBase base letter n := by
  rw [inBase_of_ge h]
  intro heq
  rcases List.singleton_eq_append_iff.mp heq with ⟨hnil, -⟩ | ⟨-, hnil⟩
  · exact inBase_ne_nil _ _ _ hnil
  · cases hnil

/-- Up to base 16, different numbers have different numerals. -/
theorem inBase_inj {base n m : Nat} (hbase : base ≤ 14)
    (h : inBase base 97 n = inBase base 97 m) : n = m := by
  have hfigure : ∀ d < 16, ∀ e < 16, figure 97 d = figure 97 e → d = e := by decide
  induction n using Nat.strong_induction_on generalizing m with
  | _ n ih =>
    rcases Nat.lt_or_ge n (base + 2) with hn | hn
    · rcases Nat.lt_or_ge m (base + 2) with hm | hm
      · rw [inBase_of_lt hn, inBase_of_lt hm] at h
        exact hfigure n (by omega) m (by omega) (List.singleton_inj.mp h)
      · rw [inBase_of_lt hn] at h
        exact absurd h (singleton_ne_inBase hm 97)
    · rcases Nat.lt_or_ge m (base + 2) with hm | hm
      · rw [inBase_of_lt hm] at h
        exact absurd h.symm (singleton_ne_inBase hn 97)
      · rw [inBase_of_ge hn, inBase_of_ge hm] at h
        obtain ⟨hfront, hlast⟩ := List.append_inj' h rfl
        have hdiv := ih (n / (base + 2)) (Nat.div_lt_self (by omega) (by omega)) hfront
        have hn' : n % (base + 2) < base + 2 := Nat.mod_lt n (by omega)
        have hm' : m % (base + 2) < base + 2 := Nat.mod_lt m (by omega)
        have hmod := hfigure _ (by omega) _ (by omega) (List.singleton_inj.mp hlast)
        rw [← Nat.div_add_mod n (base + 2), hdiv, hmod, Nat.div_add_mod]

theorem ofNat_ne_nil (n : Nat) : ofNat n ≠ [] :=
  inBase_ne_nil 8 n 97

theorem isDigit_of_mem_ofNat {n : Nat} {b : UInt8} (hb : b ∈ ofNat n) : isDigit b = true := by
  obtain ⟨d, hd, rfl⟩ := exists_figure_of_mem_inBase hb
  exact isDigit_figure hd

/-- Besides digits, a numeral has at most a minus sign. -/
theorem not_mem_ofInt {b : UInt8} (hb : isDigit b = false) (hminus : b ≠ 45) (i : Int) :
    b ∉ ofInt i := by
  have hdigits (n : Nat) : b ∉ ofNat n := by
    intro hmem
    cases hb.symm.trans (isDigit_of_mem_ofNat hmem)
  cases i with
  | ofNat n => exact hdigits n
  | negSucc n =>
    rw [ofInt, List.mem_cons, not_or]
    exact ⟨hminus, hdigits (n + 1)⟩

theorem value_snoc (digits : Bytes) (b : UInt8) :
    value (digits ++ [b]) = 10 * value digits + (b.toNat - 48) := by
  simp [value]

theorem value_ofNat (n : Nat) : value (ofNat n) = n := by
  induction n using Nat.strong_induction_on with
  | _ n ih =>
    by_cases h : n < 10
    · rw [ofNat_of_lt h]
      simpa [value] using toNat_figure h
    · rw [ofNat_of_ge (by omega), value_snoc, ih (n / 10) (by omega), toNat_figure (by omega)]
      omega

theorem natural?_eq_some_iff {s : Bytes} {n : Nat} (hn : n < 10 ^ 19) :
    natural? s = some n ↔ s ≠ [] ∧ s.all isDigit = true ∧ value s = n := by
  unfold natural?
  constructor
  · intro h
    split at h
    · rename_i hs
      simp only [Bool.and_eq_true, bne_iff_ne] at hs
      exact ⟨hs.1.1, hs.1.2, Option.some.inj h⟩
    · cases h
  · rintro ⟨hne, hall, hvalue⟩
    have hshort : (significant s).length ≤ 19 := by
      by_contra hlong
      have := le_value_of_long hall (by omega)
      omega
    simp [hne, hall, hshort, hvalue]

/-- The numerals of a script: digits, with or without a minus sign in front. -/
inductive Denotes : Bytes → Int → Prop where
  | natural {digits : Bytes} (hne : digits ≠ []) (hdigits : digits.all isDigit = true) :
    Denotes digits (value digits)
  | negative {digits : Bytes} (hne : digits ≠ []) (hdigits : digits.all isDigit = true) :
    Denotes (45 :: digits) (-value digits)

theorem denotes_ofNat (n : Nat) : Denotes (ofNat n) n := by
  have hall : (ofNat n).all isDigit = true := List.all_eq_true.mpr fun b => isDigit_of_mem_ofNat
  have h := Denotes.natural (ofNat_ne_nil n) hall
  rwa [value_ofNat] at h

theorem denotes_ofInt (i : Int) : Denotes (ofInt i) i := by
  cases i with
  | ofNat n => exact denotes_ofNat n
  | negSucc n =>
    have hall : (ofNat (n + 1)).all isDigit = true :=
      List.all_eq_true.mpr fun b => isDigit_of_mem_ofNat
    have h := Denotes.negative (ofNat_ne_nil (n + 1)) hall
    rwa [value_ofNat] at h

/-- A numeral denotes one number only. -/
theorem Denotes.unique {s : Bytes} {i j : Int} (hi : Denotes s i) (hj : Denotes s j) : i = j := by
  cases hi with
  | natural _ hdigits =>
    cases hj with
    | natural => rfl
    | negative => cases hdigits
  | negative =>
    cases hj with
    | natural _ hdigits => cases hdigits
    | negative => rfl

theorem ofNat_inj {n m : Nat} (h : ofNat n = ofNat m) : n = m :=
  inBase_inj (by decide) h

theorem ofInt_inj {i j : Int} (h : ofInt i = ofInt j) : i = j :=
  (denotes_ofInt i).unique (h ▸ denotes_ofInt j)

theorem natural?_of_digits {digits : Bytes} (hne : digits ≠ [])
    (hdigits : digits.all isDigit = true) (hle : value digits ≤ 9223372036854775808) :
    natural? digits = some (value digits) :=
  (natural?_eq_some_iff (by omega)).mpr ⟨hne, hdigits, rfl⟩

/-- What is read is what is denoted, as far as 64 bits go. -/
theorem integer?_iff_denotes {s : Bytes} {n : Int} :
    integer? s = some n ↔ Denotes s n ∧ fits64 n = true := by
  constructor
  · intro h
    obtain ⟨hread, hfits⟩ := Option.filter_eq_some_iff.mp h
    refine ⟨?_, hfits⟩
    simp only [fits64, Bool.and_eq_true, decide_eq_true_eq] at hfits
    split at hread
    · rename_i digits
      cases hm : natural? digits with
      | none =>
        rw [hm] at hread
        cases hread
      | some m =>
        rw [hm] at hread
        obtain rfl : -(m : Int) = n := Option.some.inj hread
        obtain ⟨hne, hdigits, rfl⟩ := (natural?_eq_some_iff (by omega)).mp hm
        exact .negative hne hdigits
    · cases hm : natural? s with
      | none =>
        rw [hm] at hread
        cases hread
      | some m =>
        rw [hm] at hread
        obtain rfl : (m : Int) = n := Option.some.inj hread
        obtain ⟨hne, hdigits, rfl⟩ := (natural?_eq_some_iff (by omega)).mp hm
        exact .natural hne hdigits
  · rintro ⟨hdenotes, hfits⟩
    have hrange := hfits
    simp only [fits64, Bool.and_eq_true, decide_eq_true_eq] at hrange
    refine Option.filter_eq_some_iff.mpr ⟨?_, hfits⟩
    cases hdenotes with
    | natural hne hdigits =>
      have hread := natural?_of_digits hne hdigits (by omega)
      split
      · -- a minus sign is no digit
        rw [List.all_cons] at hdigits
        cases hdigits
      · rw [hread]
        rfl
    | negative hne hdigits =>
      have hread := natural?_of_digits hne hdigits (by omega)
      simp only [hread]
      rfl

theorem integer?_ofNat {n : Nat} (h : n ≤ 9223372036854775807) : integer? (ofNat n) = some n := by
  apply integer?_iff_denotes.mpr
  refine ⟨denotes_ofNat n, ?_⟩
  simp only [fits64, Bool.and_eq_true, decide_eq_true_eq]
  omega

/-- The numerals of positive numbers are digits and nothing else. -/
theorem integer?_eq_some_iff {s : Bytes} {n : Nat} (hn : 0 < n) :
    integer? s = some (n : Int) ↔
      s ≠ [] ∧ s.all isDigit = true ∧ value s = n ∧ n ≤ 9223372036854775807 := by
  have hfits : fits64 n = true ↔ n ≤ 9223372036854775807 := by
    simp only [fits64, Bool.and_eq_true, decide_eq_true_eq]
    omega
  rw [integer?_iff_denotes, hfits]
  constructor
  · rintro ⟨h, hle⟩
    generalize hm : (n : Int) = m at h
    cases h with
    | natural hne hdigits => exact ⟨hne, hdigits, by omega, hle⟩
    | negative => omega
  · rintro ⟨hne, hdigits, rfl, hle⟩
    exact ⟨.natural hne hdigits, hle⟩

theorem int32?_iff_denotes {s : Bytes} {n : Int32} :
    int32? s = some n ↔ Denotes s n.toInt := by
  have hlt := n.toInt_lt
  have hge := n.le_toInt
  unfold int32?
  rw [Option.map_eq_some_iff]
  constructor
  · rintro ⟨m, hm, rfl⟩
    obtain ⟨hread, hrange⟩ := Option.filter_eq_some_iff.mp hm
    have hrange' : -2147483648 ≤ m ∧ m ≤ 2147483647 := by simpa using hrange
    have hm' : (Int32.ofInt m).toInt = m := Int32.toInt_ofInt_of_le (by omega) (by omega)
    rw [hm']
    exact (integer?_iff_denotes.mp hread).1
  · intro h
    refine ⟨n.toInt, Option.filter_eq_some_iff.mpr ⟨?_, ?_⟩, Int32.ofInt_toInt n⟩
    · apply integer?_iff_denotes.mpr
      refine ⟨h, ?_⟩
      simp only [fits64, Bool.and_eq_true, decide_eq_true_eq]
      omega
    · simp only [Bool.and_eq_true, decide_eq_true_eq]
      omega

end TimedInput.Numeral
