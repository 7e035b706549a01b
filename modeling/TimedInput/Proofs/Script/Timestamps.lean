import Mathlib.Data.Nat.Digits.Defs
import TimedInput.Proofs.Text.Decimal
import TimedInput.Proofs.Text.Trimming
import TimedInput.Script.Timestamp

/-!
# Which tokens are timestamps

A token is a timestamp if it is digits between blanks, with or without a plus sign in front, and if
their number is below two to the power 63. Zeros in front count for nothing, however many there
are. Whatever else a token is, it is not read, and nothing changes.
-/

namespace TimedInput

namespace Numeral

/-- Each digit counts by its place. -/
theorem value_eq_ofDigits (digits : Bytes) :
    value digits = Nat.ofDigits 10 (digits.reverse.map fun b => b.toNat - 48) := by
  induction digits using List.reverseRecOn with
  | nil => rfl
  | append_singleton digits b ih =>
    rw [value_snoc, ih, List.reverse_append, List.reverse_singleton, List.singleton_append,
      List.map_cons, Nat.ofDigits_cons]
    exact Nat.add_comm ..

theorem fits64_iff {n : Int} : fits64 n = true ↔ -2 ^ 63 ≤ n ∧ n < 2 ^ 63 := by
  simp only [fits64, Bool.and_eq_true, decide_eq_true_eq]
  omega

/-- What is written for an integer is read as that integer. -/
theorem integer?_ofInt {n : Int} (h : -2 ^ 63 ≤ n ∧ n < 2 ^ 63) : integer? (ofInt n) = some n :=
  integer?_iff_denotes.mpr ⟨denotes_ofInt n, fits64_iff.mpr h⟩

end Numeral

namespace Timestamp

/-- Space, tab, carriage return, line feed, vertical tab and form feed. -/
def blanks : Bytes := [32, 9, 13, 10, 11, 12]

theorem isBlank_iff_mem_blanks {b : UInt8} : Bytes.isBlank b = true ↔ b ∈ blanks := by
  simp only [Bytes.isBlank, blanks, Bool.or_eq_true, Bool.and_eq_true, beq_iff_eq,
    decide_eq_true_eq, List.mem_cons, List.not_mem_nil, or_false, UInt8.le_iff_toNat_le,
    ← UInt8.toNat_inj]
  change b.toNat = 32 ∨ 9 ≤ b.toNat ∧ b.toNat ≤ 13 ↔ b.toNat = 32 ∨ b.toNat = 9 ∨ b.toNat = 13 ∨
    b.toNat = 10 ∨ b.toNat = 11 ∨ b.toNat = 12
  omega

/-- One digit or more, with a number that a timestamp can have. -/
structure Counts (digits : Bytes) (ms : UInt64) : Prop where
  ne_nil : digits ≠ []
  all_digits : digits.all Numeral.isDigit = true
  value_eq : Numeral.value digits = ms.toNat
  lt : ms.toNat < 2 ^ 63

/-- What a timestamp looks like without blanks. -/
inductive Spells : Bytes → Timestamp → Prop where
  | absolute {digits : Bytes} {ms : UInt64} (h : Counts digits ms) : Spells digits (.absolute ms)
  | relative {digits : Bytes} {ms : UInt64} (h : Counts digits ms) :
    Spells (43 :: digits) (.relative ms)

variable {s text token : Bytes} {ms : UInt64} {timestamp : Timestamp}

theorem digits?_eq_some_iff : digits? s = some ms ↔ Counts s ms := by
  unfold digits?
  split
  · rename_i hs
    simp only [Bool.and_eq_true, bne_iff_ne] at hs
    obtain ⟨hne, hdigits⟩ := hs
    rw [Option.map_eq_some_iff]
    constructor
    · rintro ⟨n, hread, rfl⟩
      obtain ⟨hdenotes, hfits⟩ := Numeral.integer?_iff_denotes.mp hread
      rw [Numeral.fits64_iff] at hfits
      cases hdenotes with
      | natural =>
        have hlt : Numeral.value s < 2 ^ 63 := by omega
        have hms : (Numeral.value s).toUInt64.toNat = Numeral.value s :=
          UInt64.toNat_ofNat_of_lt (Nat.lt_trans hlt (by decide))
        exact ⟨hne, hdigits, hms.symm, hms.symm ▸ hlt⟩
      | negative =>
        -- a minus sign is no digit
        cases hdigits
    · rintro ⟨-, -, hvalue, hlt⟩
      refine ⟨ms.toNat, Numeral.integer?_iff_denotes.mpr ⟨?_, ?_⟩, ?_⟩
      · rw [← hvalue]
        exact .natural hne hdigits
      · rw [Numeral.fits64_iff]
        omega
      · exact UInt64.ofNat_toNat
  · rename_i hs
    refine ⟨nofun, fun h => absurd ?_ hs⟩
    simp [h.ne_nil, h.all_digits]

theorem parse?_eq_some_iff_spells_trim :
    parse? token = some timestamp ↔ Spells token.trim timestamp := by
  unfold parse?
  generalize token.trim = text
  split
  · rename_i rest
    rw [Option.map_eq_some_iff]
    constructor
    · rintro ⟨ms, hms, rfl⟩
      exact .relative (digits?_eq_some_iff.mp hms)
    · intro h
      cases h with
      | absolute h => cases h.all_digits
      | relative h => exact ⟨_, digits?_eq_some_iff.mpr h, rfl⟩
  · rename_i hplus
    rw [Option.map_eq_some_iff]
    constructor
    · rintro ⟨ms, hms, rfl⟩
      exact .absolute (digits?_eq_some_iff.mp hms)
    · intro h
      cases h with
      | absolute h => exact ⟨_, digits?_eq_some_iff.mpr h, rfl⟩
      | relative h => exact absurd rfl (hplus _)

theorem Counts.not_isBlank (h : Counts s ms) {b : UInt8} (hb : b ∈ s) :
    Bytes.isBlank b = false := by
  have hdigit := List.all_eq_true.mp h.all_digits b hb
  rw [← Bool.not_eq_true, isBlank_iff_mem_blanks]
  intro hblank
  have hnone : blanks.any Numeral.isDigit = false := rfl
  exact List.any_eq_false.mp hnone b hblank hdigit

theorem Spells.not_isBlank (h : Spells s timestamp) {b : UInt8} (hb : b ∈ s) :
    Bytes.isBlank b = false := by
  cases h with
  | absolute h => exact h.not_isBlank hb
  | relative h =>
    rcases List.mem_cons.mp hb with rfl | hb
    · rfl
    · exact h.not_isBlank hb

/-- A timestamp is found between the blanks of a token. -/
theorem parse?_eq_some_iff : parse? token = some timestamp ↔
    ∃ left text right, token = left ++ text ++ right ∧ (∀ b ∈ left, b ∈ blanks) ∧
      (∀ b ∈ right, b ∈ blanks) ∧ Spells text timestamp := by
  rw [parse?_eq_some_iff_spells_trim]
  constructor
  · intro h
    obtain ⟨left, right, htrimmed⟩ := Bytes.exists_trimmed token
    refine ⟨left, token.trim, right, htrimmed.eq, ?_, ?_, h⟩
    · exact fun b hb => isBlank_iff_mem_blanks.mp (htrimmed.left b hb)
    · exact fun b hb => isBlank_iff_mem_blanks.mp (htrimmed.right b hb)
  · rintro ⟨left, text, right, htoken, hleft, hright, h⟩
    have htrimmed : Bytes.Trimmed token left text right :=
      { eq := htoken
        left := fun b hb => isBlank_iff_mem_blanks.mpr (hleft b hb)
        right := fun b hb => isBlank_iff_mem_blanks.mpr (hright b hb)
        first := fun b hb => h.not_isBlank (List.mem_of_mem_head? hb)
        last := fun b hb => h.not_isBlank (List.mem_of_mem_getLast? hb) }
    rwa [← htrimmed.eq_trim]

theorem readInto_eq_true_iff (before : Timestamp) :
    before.readInto token = (timestamp, true) ↔ parse? token = some timestamp := by
  unfold readInto
  cases parse? token <;> simp

theorem readInto_of_false {before : Timestamp} (h : (before.readInto token).2 = false) :
    before.readInto token = (before, false) := by
  unfold readInto at *
  cases hread : parse? token with
  | none => rfl
  | some read =>
    rw [hread] at h
    cases h

/-- A token is read exactly if it is digits between blanks, with or without a plus sign in front,
and their number is below two to the power 63. What is read is that number, and relative with the
plus sign; else nothing changes. The digits are read by a reader of signed words, which takes digits
with or without a minus sign in front, by the places of the digits, up to the bounds of 64 bits; it
reads what is written for a word of that kind as that word. -/
theorem reading_is_exact (before : Timestamp) (token : Bytes) :
    (∀ timestamp, before.readInto token = (timestamp, true) ↔
      ∃ left text right, token = left ++ text ++ right ∧ (∀ b ∈ left, b ∈ blanks) ∧
        (∀ b ∈ right, b ∈ blanks) ∧ Spells text timestamp) ∧
    ((before.readInto token).2 = false → before.readInto token = (before, false)) ∧
    (∀ s n, Numeral.integer? s = some n ↔ Numeral.Denotes s n ∧ -2 ^ 63 ≤ n ∧ n < 2 ^ 63) ∧
    (∀ digits, Numeral.value digits =
      Nat.ofDigits 10 (digits.reverse.map fun b => b.toNat - 48)) ∧
    ∀ w : Int64, Numeral.integer? (Numeral.ofInt w.toInt) = some w.toInt := by
  refine ⟨?_, readInto_of_false, ?_, Numeral.value_eq_ofDigits, ?_⟩
  · intro timestamp
    rw [readInto_eq_true_iff, parse?_eq_some_iff]
  · intro s n
    rw [Numeral.integer?_iff_denotes, Numeral.fits64_iff]
  · exact fun w => Numeral.integer?_ofInt ⟨w.le_toInt, w.toInt_lt⟩

end Timestamp

end TimedInput
