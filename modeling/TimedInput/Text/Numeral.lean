import TimedInput.Text.Bytes

/-!
# Numerals

Writing of natural numbers and integers in decimal and hexadecimal, and the reading of
the decimal numerals that a script or an option may hold: digits with at most a minus
sign in front, neither blanks nor a plus sign, and a value of 64 bits.
-/

namespace TimedInput.Numeral

/-- The figure of one digit below 16, with letters that start at `letter`. -/
def figure (letter : UInt8) (d : Nat) : UInt8 :=
  if d < 10 then 48 + d.toUInt8 else letter + (d - 10).toUInt8

/-- The numeral of `n` in base `b + 2`, without leading zeros. -/
def inBase (b : Nat) (letter : UInt8) (n : Nat) : Bytes :=
  if n < b + 2 then [figure letter n]
  else inBase b letter (n / (b + 2)) ++ [figure letter (n % (b + 2))]
termination_by n
decreasing_by exact Nat.div_lt_self (by omega) (by omega)

def ofNat (n : Nat) : Bytes :=
  inBase 8 97 n

def ofInt : Int → Bytes
  | .ofNat n => ofNat n
  | .negSucc n => 45 :: ofNat (n + 1)

/-- Hexadecimal with small letters. -/
def lowerHex (n : Nat) : Bytes :=
  inBase 14 97 n

/-- Hexadecimal with capital letters. -/
def upperHex (n : Nat) : Bytes :=
  inBase 14 65 n

/-- Capital hexadecimal with at least four figures. -/
def codePoint (n : Nat) : Bytes :=
  List.replicate (4 - (upperHex n).length) 48 ++ upperHex n

def isDigit (b : UInt8) : Bool :=
  48 ≤ b && b ≤ 57

/-- The number that a string of digits denotes. -/
def value (digits : Bytes) : Nat :=
  digits.foldl (fun n b => 10 * n + (b.toNat - 48)) 0

/-- The digits after the leading zeros. -/
def significant (digits : Bytes) : Bytes :=
  digits.dropWhile (· == 48)

/-- Reads one or more digits and nothing else. More than nineteen significant digits are not read;
their number is out of the range of 64 bits anyway, see `le_value_of_long`. -/
def natural? (s : Bytes) : Option Nat :=
  if s != [] && s.all isDigit && (significant s).length ≤ 19 then some (value s) else none

/-- Every digit that follows makes a number at least ten times as large. -/
theorem mul_pow_le_foldl (n : Nat) (digits : Bytes) :
    n * Nat.pow 10 digits.length ≤ digits.foldl (fun n b => 10 * n + (b.toNat - 48)) n := by
  induction digits generalizing n with
  | nil => exact Nat.le_of_eq (Nat.mul_one n)
  | cons b rest ih =>
    have grown : n * Nat.pow 10 (rest.length + 1) ≤
        (10 * n + (b.toNat - 48)) * Nat.pow 10 rest.length := by
      have split : Nat.pow 10 (rest.length + 1) = Nat.pow 10 rest.length * 10 := rfl
      rw [split, Nat.mul_comm (Nat.pow 10 rest.length) 10, ← Nat.mul_assoc]
      exact Nat.mul_le_mul_right _ (by omega)
    exact Nat.le_trans grown (ih _)

theorem value_significant (digits : Bytes) : value (significant digits) = value digits := by
  induction digits with
  | nil => rfl
  | cons b rest ih =>
    by_cases h : b = 48
    · subst h
      exact ih
    · have kept : significant (b :: rest) = b :: rest := by
        simp [significant, h]
      rw [kept]

theorem first_ne_zero {digits rest : Bytes} {b : UInt8} (h : significant digits = b :: rest) :
    b ≠ 48 := by
  induction digits with
  | nil => cases h
  | cons d digits ih =>
    by_cases hd : d = 48
    · subst hd
      exact ih h
    · have kept : significant (d :: digits) = d :: digits := by
        simp [significant, hd]
      rw [kept] at h
      cases h
      exact hd

/-- What is not read for its length has no 64 bits. -/
theorem le_value_of_long {digits : Bytes} (hdigits : digits.all isDigit = true)
    (hlong : 19 < (significant digits).length) : 10000000000000000000 ≤ value digits := by
  rw [← value_significant]
  have all : (significant digits).all isDigit = true := by
    rw [List.all_eq_true] at hdigits ⊢
    exact fun b hb => hdigits b ((List.dropWhile_suffix _).subset hb)
  cases h : significant digits with
  | nil => simp [h] at hlong
  | cons b rest =>
    rw [h] at all hlong
    have lead : 1 ≤ b.toNat - 48 := by
      have hb : isDigit b = true := by
        rw [List.all_cons, Bool.and_eq_true] at all
        exact all.1
      have hle : 48 ≤ b.toNat := by
        simp only [isDigit, Bool.and_eq_true, decide_eq_true_eq] at hb
        exact UInt8.le_iff_toNat_le.mp hb.1
      have hne' : b.toNat ≠ 48 := fun e => first_ne_zero h (UInt8.toNat_inj.mp e)
      omega
    have large := mul_pow_le_foldl (b.toNat - 48) rest
    have power : Nat.pow 10 19 ≤ Nat.pow 10 rest.length :=
      Nat.pow_le_pow_right (by decide) (by simp at hlong; omega)
    have step : value (b :: rest) =
        rest.foldl (fun n b => 10 * n + (b.toNat - 48)) (b.toNat - 48) := by
      simp [value]
    rw [step]
    calc 10000000000000000000 = 1 * Nat.pow 10 19 := by decide
      _ ≤ (b.toNat - 48) * Nat.pow 10 rest.length := Nat.mul_le_mul lead power
      _ ≤ _ := large

/-- The range of signed words of 64 bits. -/
def fits64 (n : Int) : Bool :=
  -9223372036854775808 ≤ n && n ≤ 9223372036854775807

/-- Reads digits with an optional minus sign in front, if the value has 64 bits. -/
def integer? (s : Bytes) : Option Int :=
  let read : Option Int :=
    match s with
    | 45 :: digits => (natural? digits).map fun n => -(n : Int)
    | digits => (natural? digits).map fun n => (n : Int)
  read.filter fits64

/-- Reads a value that an `Int32` can hold. -/
def int32? (s : Bytes) : Option Int32 :=
  ((integer? s).filter fun n => -2147483648 ≤ n && n ≤ 2147483647).map Int32.ofInt

end TimedInput.Numeral
