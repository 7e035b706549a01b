import TimedInput.Text.Utf16

/-!
# Code units

Code units are well-formed UTF-16 if surrogates stand in them in pairs only, a high one before a
low one. The units of a character value are well-formed exactly if the value is a Unicode scalar,
as long as it is not so large that its high surrogate wraps. The units of a scalar are the only
ones that encode it, and scalars are read back from their units.
-/

namespace TimedInput.Utf16

inductive WellFormed : List UInt16 → Prop where
  | nil : WellFormed []
  | unit {u : UInt16} {us : List UInt16} (hhigh : isHighSurrogate u = false)
    (hlow : isLowSurrogate u = false) (h : WellFormed us) : WellFormed (u :: us)
  | pair {u v : UInt16} {us : List UInt16} (hhigh : isHighSurrogate u = true)
    (hlow : isLowSurrogate v = true) (h : WellFormed us) : WellFormed (u :: v :: us)

variable {u v : UInt16} {c : UInt32}

theorem isHighSurrogate_iff : isHighSurrogate u = true ↔ 0xd800 ≤ u.toNat ∧ u.toNat < 0xdc00 := by
  simp [isHighSurrogate, UInt16.le_iff_toNat_le, UInt16.lt_iff_toNat_lt]

theorem isLowSurrogate_iff : isLowSurrogate u = true ↔ 0xdc00 ≤ u.toNat ∧ u.toNat < 0xe000 := by
  simp [isLowSurrogate, UInt16.le_iff_toNat_le, UInt16.lt_iff_toNat_lt]

theorem wellFormed_singleton_iff :
    WellFormed [u] ↔ isHighSurrogate u = false ∧ isLowSurrogate u = false := by
  constructor
  · rintro (_ | ⟨hhigh, hlow, _⟩)
    exact ⟨hhigh, hlow⟩
  · rintro ⟨hhigh, hlow⟩
    exact .unit hhigh hlow .nil

/-- A low surrogate needs a high one right before it. -/
theorem wellFormed_pair_iff (hlow : isLowSurrogate v = true) :
    WellFormed [u, v] ↔ isHighSurrogate u = true := by
  constructor
  · rintro (_ | ⟨_, _, hrest⟩ | ⟨hhigh, _, _⟩)
    · rw [(wellFormed_singleton_iff.mp hrest).2] at hlow
      cases hlow
    · exact hhigh
  · exact fun hhigh => .pair hhigh hlow .nil

theorem units_ne_nil (c : UInt32) : units c ≠ [] := by
  unfold units
  split <;> exact List.cons_ne_nil _ _

theorem units_of_lt (h : c.toNat < 0x10000) :
    units c = [c.toUInt16] ∧ c.toUInt16.toNat = c.toNat := by
  refine ⟨if_pos (UInt32.lt_iff_toNat_lt.mpr h), ?_⟩
  rw [UInt32.toNat_toUInt16]
  exact Nat.mod_eq_of_lt h

theorem units_of_ge (hleast : 0x10000 ≤ c.toNat) (hmost : c.toNat < 0x200000) :
    ∃ u v, units c = [u, v] ∧ u.toNat = 0xd800 + (c.toNat - 0x10000) / 1024 ∧
      v.toNat = 0xdc00 + (c.toNat - 0x10000) % 1024 := by
  have habove : (c - 0x10000).toNat = c.toNat - 0x10000 :=
    UInt32.toNat_sub_of_le c 0x10000 (UInt32.le_iff_toNat_le.mpr hleast)
  refine ⟨_, _, if_neg fun h => ?_, ?_, ?_⟩
  · exact Nat.not_lt.mpr hleast (UInt32.lt_iff_toNat_lt.mp h)
  · rw [UInt32.toNat_toUInt16, UInt32.toNat_add, UInt32.toNat_div, habove]
    change (0xd800 + (c.toNat - 0x10000) / 1024) % 4294967296 % 65536 = _
    omega
  · rw [UInt32.toNat_toUInt16, UInt32.toNat_add, UInt32.toNat_mod, habove]
    change (0xdc00 + (c.toNat - 0x10000) % 1024) % 4294967296 % 65536 = _
    omega

theorem wellFormed_units_iff (hmost : c.toNat < 0x200000) :
    WellFormed (units c) ↔ c.isValidChar := by
  have hvalid : c.isValidChar ↔ c.toNat < 0xd800 ∨ 0xdfff < c.toNat ∧ c.toNat < 0x110000 := Iff.rfl
  rw [hvalid]
  rcases Nat.lt_or_ge c.toNat 0x10000 with hlt | hleast
  · obtain ⟨hunits, hnat⟩ := units_of_lt hlt
    rw [hunits, wellFormed_singleton_iff, ← Bool.not_eq_true, ← Bool.not_eq_true,
      isHighSurrogate_iff, isLowSurrogate_iff, hnat]
    omega
  · obtain ⟨u, v, hunits, hu, hv⟩ := units_of_ge hleast hmost
    have hlow : isLowSurrogate v = true := by
      rw [isLowSurrogate_iff, hv]
      omega
    rw [hunits, wellFormed_pair_iff hlow, isHighSurrogate_iff, hu]
    omega

/-- What the code units of a Unicode scalar are: its value, or a pair of surrogates that carry ten
bits each of what is above 0x10000. -/
inductive Encodes (c : Char) : List UInt16 → Prop where
  | unit {u : UInt16} (h : u.toNat = c.toNat) : Encodes c [u]
  | pair {u v : UInt16} (hhigh : 0xd800 ≤ u.toNat ∧ u.toNat < 0xdc00)
    (hlow : 0xdc00 ≤ v.toNat ∧ v.toNat < 0xe000)
    (h : c.toNat = 0x10000 + (u.toNat - 0xd800) * 1024 + (v.toNat - 0xdc00)) : Encodes c [u, v]

theorem encodes_units (c : Char) : Encodes c (units c.val) := by
  have hscalar := c.valid
  rcases Nat.lt_or_ge c.val.toNat 0x10000 with hlt | hleast
  · obtain ⟨hunits, hnat⟩ := units_of_lt hlt
    rw [hunits]
    exact .unit hnat
  · have hmost : c.val.toNat < 0x110000 := by
      rcases hscalar with h | h
      · omega
      · exact h.2
    obtain ⟨u, v, hunits, hu, hv⟩ := units_of_ge hleast (by omega)
    rw [hunits]
    refine .pair ?_ ?_ ?_
    · omega
    · omega
    · change c.val.toNat = _
      omega

theorem Encodes.unique {c : Char} {us vs : List UInt16} (hus : Encodes c us)
    (hvs : Encodes c vs) : us = vs := by
  cases hus with
  | @unit u hu =>
    cases hvs with
    | unit hv => rw [UInt16.toNat_inj.mp (hu.trans hv.symm)]
    | pair hhigh hlow hv =>
      have := u.toNat_lt
      omega
  | @pair u v hhigh hlow hu =>
    cases hvs with
    | @unit w hw =>
      have := w.toNat_lt
      omega
    | @pair u' v' hhigh' hlow' hv =>
      have hequ : u.toNat = u'.toNat := by omega
      have heqv : v.toNat = v'.toNat := by omega
      rw [UInt16.toNat_inj.mp hequ, UInt16.toNat_inj.mp heqv]

theorem decode_encoded_append {c : Char} {us : List UInt16} (h : Encodes c us)
    (more : List UInt16) : decode (us ++ more) = c.val :: decode more := by
  cases h with
  | @unit u hu =>
    have hval : u.toUInt32 = c.val := by
      rw [← UInt32.toNat_inj, UInt16.toNat_toUInt32]
      exact hu
    have hhigh : isHighSurrogate u = false := by
      rw [← Bool.not_eq_true, isHighSurrogate_iff, hu]
      have hscalar : c.toNat < 0xd800 ∨ 0xdfff < c.toNat ∧ c.toNat < 0x110000 := c.valid
      omega
    cases more with
    | nil => simp [decode, hval]
    | cons v more => simp [decode, hhigh, hval]
  | @pair u v hhigh hlow hc =>
    have hval : 0x10000 + (u.toUInt32 - 0xd800) * 1024 + (v.toUInt32 - 0xdc00) = c.val := by
      have hu : (u.toUInt32 - 0xd800).toNat = u.toNat - 0xd800 :=
        UInt32.toNat_sub_of_le _ _ (UInt32.le_iff_toNat_le.mpr hhigh.1)
      have hv : (v.toUInt32 - 0xdc00).toNat = v.toNat - 0xdc00 :=
        UInt32.toNat_sub_of_le _ _ (UInt32.le_iff_toNat_le.mpr hlow.1)
      rw [← UInt32.toNat_inj, UInt32.toNat_add, UInt32.toNat_add, UInt32.toNat_mul, hu, hv]
      change ((0x10000 + (u.toNat - 0xd800) * 1024 % 4294967296) % 4294967296 +
        (v.toNat - 0xdc00)) % 4294967296 = c.toNat
      omega
    simp [decode, isHighSurrogate_iff.mpr hhigh, isLowSurrogate_iff.mpr hlow, hval]

/-- The characters of a text are read back from their code units. -/
theorem decode_flatMap_units (cs : List Char) :
    decode (cs.flatMap fun c => units c.val) = cs.map (·.val) := by
  induction cs with
  | nil => rfl
  | cons c cs ih =>
    rw [List.flatMap_cons, decode_encoded_append (encodes_units c), ih, List.map_cons]

end TimedInput.Utf16
