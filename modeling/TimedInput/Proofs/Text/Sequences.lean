import Mathlib.Algebra.GroupWithZero.Nat
import Mathlib.Data.List.Forall2
import TimedInput.Text.Utf8

/-!
# Reading of UTF-8

A text is read from the left in pieces, a character for each. A piece is a lead byte with as
many continuation bytes as it announces, or one byte that begins no such sequence. Since no lead
byte is a continuation byte, damage in one place does not change how the text is read from
the next character on, and a text in UTF-8 is read as the characters that it was made of.

What sequences are well-formed is not looked at here.
-/

namespace TimedInput.Utf8

/-- A lead byte has one bit set for each byte of its sequence, and then one that is not set. -/
def Announces (lead : UInt8) (n : Nat) : Prop :=
  1 ≤ n ∧ n ≤ 3 ∧ lead.toNat / 2 ^ (6 - n) = 2 ^ (n + 2) - 2

/-- The bits of a sequence without the marks in its bytes. -/
def value (lead : UInt8) (tail : Bytes) : Nat :=
  tail.foldl (fun v b => v * 64 + b.toNat % 64) (lead.toNat % 2 ^ (6 - tail.length))

/-- A lead byte, the continuation bytes that it announces, and the character that they carry. -/
structure IsSequence (lead : UInt8) (tail : Bytes) (c : UInt32) : Prop where
  announces : Announces lead tail.length
  continued : ∀ b ∈ tail, isContinuation b = true
  value_eq : c.toNat = value lead tail

/-- The pieces of a text and the characters that they are read as. A byte stands alone only where
no sequence begins. -/
inductive Read : List Bytes → List UInt32 → Prop where
  | nil : Read [] []
  | byte {b : UInt8} {pieces : List Bytes} {cs : List UInt32}
    (hb : ∀ tail c, tail <+: pieces.flatten → ¬IsSequence b tail c) (h : Read pieces cs) :
    Read ([b] :: pieces) (b.toUInt32 :: cs)
  | sequence {lead : UInt8} {tail : Bytes} {c : UInt32} {pieces : List Bytes} {cs : List UInt32}
    (hseq : IsSequence lead tail c) (h : Read pieces cs) :
    Read ((lead :: tail) :: pieces) (c :: cs)

variable {b lead : UInt8} {n : Nat} {c d : UInt32} {s tail rest : Bytes}

section Bytes

theorem isContinuation_iff : isContinuation b = true ↔ 128 ≤ b.toNat ∧ b.toNat < 192 := by
  simp [isContinuation, UInt8.le_iff_toNat_le, UInt8.lt_iff_toNat_lt]

theorem Announces.cases (h : Announces b n) : n = 1 ∨ n = 2 ∨ n = 3 := by
  obtain ⟨hleast, hmost, -⟩ := h
  omega

theorem announces_iff :
    Announces b n ↔
      n = 1 ∧ 192 ≤ b.toNat ∧ b.toNat < 224 ∨ n = 2 ∧ 224 ≤ b.toNat ∧ b.toNat < 240 ∨
        n = 3 ∧ 240 ≤ b.toNat ∧ b.toNat < 248 := by
  constructor
  · intro h
    have hbits := h.2.2
    rcases h.cases with rfl | rfl | rfl <;> simp at hbits <;> omega
  · rintro (⟨rfl, hleast, hlt⟩ | ⟨rfl, hleast, hlt⟩ | ⟨rfl, hleast, hlt⟩) <;>
      refine ⟨by decide, by decide, ?_⟩ <;> simp <;> omega

theorem Announces.isContinuation_eq_false (h : Announces b n) : isContinuation b = false := by
  rw [announces_iff] at h
  rw [← Bool.not_eq_true, isContinuation_iff]
  omega

theorem Announces.unique {m : Nat} (hn : Announces b n) (hm : Announces b m) : n = m := by
  rw [announces_iff] at hn hm
  omega

theorem lead?_eq (b : UInt8) :
    lead? b =
      if b.toNat < 128 then some (0, b.toUInt32)
      else if b.toNat < 192 then none
      else if b.toNat < 224 then some (1, b.toUInt32 - 0xc0)
      else if b.toNat < 240 then some (2, b.toUInt32 - 0xe0)
      else if b.toNat < 248 then some (3, b.toUInt32 - 0xf0)
      else none := by
  simp only [lead?, UInt8.lt_iff_toNat_lt, UInt8.reduceToNat]

theorem toNat_sub_mark (mark : UInt32) (h : mark.toNat ≤ b.toNat) :
    (b.toUInt32 - mark).toNat = b.toNat - mark.toNat := by
  rw [UInt32.toNat_sub_of_le, UInt8.toNat_toUInt32]
  exact UInt32.le_iff_toNat_le.mpr h

/-- A lead byte begins its character with the bits that the marks leave. -/
theorem lead?_of_announces (h : Announces b n) :
    ∃ c, lead? b = some (n, c) ∧ c.toNat = b.toNat % 2 ^ (6 - n) := by
  rw [lead?_eq]
  rcases announces_iff.mp h with ⟨rfl, hleast, hlt⟩ | ⟨rfl, hleast, hlt⟩ | ⟨rfl, hleast, hlt⟩
  · rw [if_neg (by omega), if_neg (by omega), if_pos hlt]
    refine ⟨_, rfl, (toNat_sub_mark 0xc0 hleast).trans ?_⟩
    change b.toNat - 192 = b.toNat % 32
    omega
  · rw [if_neg (by omega), if_neg (by omega), if_neg (by omega), if_pos hlt]
    refine ⟨_, rfl, (toNat_sub_mark 0xe0 hleast).trans ?_⟩
    change b.toNat - 224 = b.toNat % 16
    omega
  · rw [if_neg (by omega), if_neg (by omega), if_neg (by omega), if_neg (by omega), if_pos hlt]
    refine ⟨_, rfl, (toNat_sub_mark 0xf0 hleast).trans ?_⟩
    change b.toNat - 240 = b.toNat % 8
    omega

theorem lead?_cases (h : lead? b = some (n, c)) :
    n = 0 ∧ c = b.toUInt32 ∧ b.toNat < 128 ∨ Announces b n := by
  rw [lead?_eq] at h
  rw [announces_iff]
  repeat' split at h
  all_goals cases h
  · exact .inl ⟨rfl, rfl, ‹_›⟩
  all_goals right; omega

end Bytes

section Sequences

theorem follow?_eq_some_iff :
    follow? n c s = some (d, rest) ↔
      ∃ tail, s = tail ++ rest ∧ tail.length = n ∧ (∀ b ∈ tail, isContinuation b = true) ∧
        d = tail.foldl extend c := by
  induction n generalizing c s with
  | zero =>
    rw [follow?, Option.some.injEq, Prod.mk.injEq]
    constructor
    · rintro ⟨rfl, rfl⟩
      exact ⟨[], rfl, rfl, List.forall_mem_nil _, rfl⟩
    · rintro ⟨tail, rfl, hlength, -, rfl⟩
      rw [List.eq_nil_of_length_eq_zero hlength]
      exact ⟨rfl, rfl⟩
  | succ n ih =>
    constructor
    · intro h
      cases s with
      | nil => cases h
      | cons b s =>
        rw [follow?] at h
        split at h
        · rename_i hb
          obtain ⟨tail, rfl, rfl, hcontinued, rfl⟩ := ih.mp h
          exact ⟨b :: tail, rfl, rfl, List.forall_mem_cons.mpr ⟨hb, hcontinued⟩, rfl⟩
        · cases h
    · rintro ⟨tail, rfl, hlength, hcontinued, rfl⟩
      cases tail with
      | nil => cases hlength
      | cons b tail =>
        obtain ⟨hb, hrest⟩ := List.forall_mem_cons.mp hcontinued
        rw [List.cons_append, follow?, if_pos hb, ih]
        exact ⟨tail, rfl, Nat.succ.inj hlength, hrest, rfl⟩

theorem toNat_extend (hb : isContinuation b = true) (h : (c.toNat + 1) * 64 ≤ 4294967296) :
    (extend c b).toNat = c.toNat * 64 + b.toNat % 64 := by
  obtain ⟨hleast, hlt⟩ := isContinuation_iff.mp hb
  rw [extend, UInt32.toNat_add, UInt32.toNat_mul, toNat_sub_mark 0x80 hleast]
  change (c.toNat * 64 % 4294967296 + (b.toNat - 128)) % 4294967296 = _
  omega

/-- As long as there is room for it, the character is the number that its bits make. -/
theorem toNat_foldl_extend (hcontinued : ∀ b ∈ tail, isContinuation b = true)
    (h : (c.toNat + 1) * 64 ^ tail.length ≤ 4294967296) :
    (tail.foldl extend c).toNat = tail.foldl (fun v b => v * 64 + b.toNat % 64) c.toNat := by
  induction tail generalizing c with
  | nil => rfl
  | cons b tail ih =>
    obtain ⟨hb, hrest⟩ := List.forall_mem_cons.mp hcontinued
    have hpos : 1 ≤ 64 ^ tail.length := Nat.one_le_pow _ _ (by decide)
    rw [List.length_cons, Nat.pow_succ'] at h
    have hroom : (c.toNat + 1) * 64 ≤ 4294967296 :=
      Nat.le_trans (Nat.mul_le_mul_left _ (Nat.le_mul_of_pos_right 64 hpos)) h
    have hnext := toNat_extend hb hroom
    rw [List.foldl_cons, List.foldl_cons, ← hnext]
    apply ih hrest
    have hdigit : c.toNat * 64 + b.toNat % 64 + 1 ≤ (c.toNat + 1) * 64 := by omega
    rw [hnext]
    rw [← Nat.mul_assoc] at h
    exact Nat.le_trans (Nat.mul_le_mul_right _ hdigit) h

/-- A lead byte and as many continuation bytes as it announces always carry a character. -/
theorem exists_isSequence (hlead : Announces lead tail.length)
    (hcontinued : ∀ b ∈ tail, isContinuation b = true) :
    ∃ first, lead? lead = some (tail.length, first) ∧
      IsSequence lead tail (tail.foldl extend first) := by
  obtain ⟨first, hfirst, hbits⟩ := lead?_of_announces hlead
  refine ⟨first, hfirst, hlead, hcontinued, ?_⟩
  rw [toNat_foldl_extend hcontinued, hbits, value]
  rcases hlead.cases with h | h | h <;> rw [hbits, h] <;> omega

theorem IsSequence.character_unique (hc : IsSequence lead tail c) (hd : IsSequence lead tail d) :
    c = d :=
  UInt32.toNat_inj.mp (hc.value_eq.trans hd.value_eq.symm)

theorem sequence?_of_isSequence (h : IsSequence lead tail c) (rest : Bytes) :
    sequence? lead (tail ++ rest) = some (c, rest) := by
  obtain ⟨first, hfirst, hseq⟩ := exists_isSequence h.announces h.continued
  rw [sequence?, hfirst, Option.bind_some, follow?_eq_some_iff]
  exact ⟨tail, rfl, rfl, h.continued, h.character_unique hseq⟩

theorem sequence?_cases (h : sequence? b s = some (c, rest)) :
    rest = s ∧ c = b.toUInt32 ∧ b.toNat < 128 ∨ ∃ tail, s = tail ++ rest ∧ IsSequence b tail c := by
  obtain ⟨⟨n, first⟩, hfirst, hfollow⟩ := Option.bind_eq_some_iff.mp h
  obtain ⟨tail, rfl, rfl, hcontinued, rfl⟩ := follow?_eq_some_iff.mp hfollow
  rcases lead?_cases hfirst with ⟨hlength, rfl, hb⟩ | hlead
  · rw [List.eq_nil_of_length_eq_zero hlength]
    exact .inl ⟨rfl, rfl, hb⟩
  · obtain ⟨other, hother, hseq⟩ := exists_isSequence hlead hcontinued
    obtain rfl := (Prod.mk.inj (Option.some.inj (hother.symm.trans hfirst))).2
    exact .inr ⟨tail, rfl, hseq⟩

end Sequences

section Reading

theorem decode_nil : decode [] = [] := by
  rw [decode]

theorem decode_cons_of_some (h : sequence? b s = some (c, rest)) :
    decode (b :: s) = c :: decode rest := by
  rw [decode]
  split
  · rename_i h'
    obtain ⟨rfl, rfl⟩ := Prod.mk.inj (Option.some.inj (h'.symm.trans h))
    rfl
  · rename_i h'
    cases h'.symm.trans h

theorem decode_of_isSequence (h : IsSequence lead tail c) (rest : Bytes) :
    decode (lead :: (tail ++ rest)) = c :: decode rest :=
  decode_cons_of_some (sequence?_of_isSequence h rest)

/-- A byte with which no sequence begins stands for itself. -/
theorem decode_of_alone (h : ∀ tail c, tail <+: s → ¬IsSequence b tail c) :
    decode (b :: s) = b.toUInt32 :: decode s := by
  cases hseq : sequence? b s with
  | none =>
    rw [decode]
    split
    · rename_i h'
      cases hseq.symm.trans h'
    · rfl
  | some found =>
    obtain ⟨c, rest⟩ := found
    rcases sequence?_cases hseq with ⟨rfl, rfl, -⟩ | ⟨tail, rfl, htail⟩
    · exact decode_cons_of_some hseq
    · exact absurd htail (h tail c (List.prefix_append tail rest))

/-- A byte begins a sequence in a text or stands alone in it. -/
theorem sequence_or_alone (b : UInt8) (s : Bytes) :
    (∃ tail c rest, s = tail ++ rest ∧ IsSequence b tail c) ∨
      ∀ tail c, tail <+: s → ¬IsSequence b tail c := by
  by_cases h : ∃ tail c rest, s = tail ++ rest ∧ IsSequence b tail c
  · exact .inl h
  · right
    rintro tail c ⟨rest, rfl⟩ hseq
    exact h ⟨tail, c, rest, rfl, hseq⟩

/-- A proof about the reading of texts, piece by piece. -/
theorem reading_induction {P : Bytes → Prop} (nil : P [])
    (byte : ∀ b s, (∀ tail c, tail <+: s → ¬IsSequence b tail c) → P s → P (b :: s))
    (sequence : ∀ lead tail c rest, IsSequence lead tail c → P rest → P (lead :: (tail ++ rest)))
    (s : Bytes) : P s := by
  induction hlength : s.length using Nat.strongRecOn generalizing s with
  | ind n ih =>
    cases s with
    | nil => exact nil
    | cons b s =>
      subst hlength
      rcases sequence_or_alone b s with ⟨tail, c, rest, rfl, hseq⟩ | halone
      · refine sequence b tail c rest hseq (ih rest.length ?_ rest rfl)
        simp only [List.length_cons, List.length_append]
        omega
      · exact byte b s halone (ih s.length (Nat.lt_succ_self _) s rfl)

theorem exists_read (s : Bytes) : ∃ pieces, pieces.flatten = s ∧ Read pieces (decode s) := by
  induction s using reading_induction with
  | nil =>
    rw [decode_nil]
    exact ⟨[], rfl, .nil⟩
  | byte b s halone ih =>
    obtain ⟨pieces, rfl, hread⟩ := ih
    rw [decode_of_alone halone]
    exact ⟨[b] :: pieces, rfl, .byte halone hread⟩
  | sequence lead tail c rest hseq ih =>
    obtain ⟨pieces, rfl, hread⟩ := ih
    rw [decode_of_isSequence hseq]
    exact ⟨(lead :: tail) :: pieces, rfl, .sequence hseq hread⟩

theorem Read.eq_decode {pieces : List Bytes} {cs : List UInt32} (h : Read pieces cs) :
    cs = decode pieces.flatten := by
  induction h with
  | nil => exact decode_nil.symm
  | @byte b pieces cs hb _ ih =>
    rw [ih]
    exact (decode_of_alone hb).symm
  | @sequence lead tail c pieces cs hseq _ ih =>
    rw [ih]
    exact (decode_of_isSequence hseq pieces.flatten).symm

theorem Read.length_piece {pieces : List Bytes} {cs : List UInt32} (h : Read pieces cs) :
    ∀ piece ∈ pieces, 1 ≤ piece.length ∧ piece.length ≤ 4 := by
  induction h with
  | nil => exact nofun
  | byte hb _ ih => exact List.forall_mem_cons.mpr ⟨⟨Nat.le_refl 1, Nat.le_add_left 1 3⟩, ih⟩
  | @sequence lead tail c pieces cs hseq _ ih =>
    have hmost : tail.length ≤ 3 := hseq.announces.2.1
    refine List.forall_mem_cons.mpr ⟨⟨?_, ?_⟩, ih⟩
    · exact Nat.le_add_left 1 tail.length
    · exact Nat.succ_le_succ hmost

/-- What is read from a place on where no continuation byte stands does not depend on what stands
before it. -/
theorem decode_append (s : Bytes) {t : Bytes} (ht : ∀ b ∈ t.head?, isContinuation b = false) :
    decode (s ++ t) = decode s ++ decode t := by
  induction s using reading_induction with
  | nil =>
    rw [decode_nil]
    rfl
  | byte b s halone ih =>
    rw [decode_of_alone halone, List.cons_append, List.cons_append, ← ih]
    apply decode_of_alone
    intro tail c htail hseq
    -- the continuation bytes of a sequence cannot reach into the second text
    rcases List.prefix_or_prefix_of_prefix htail (List.prefix_append s t) with hin | ⟨more, rfl⟩
    · exact halone tail c hin hseq
    · cases more with
      | nil =>
        rw [List.append_nil] at hseq
        exact halone s c (List.prefix_refl s) hseq
      | cons d more =>
        obtain ⟨others, rfl⟩ := (List.prefix_append_right_inj s).mp htail
        have hd := hseq.continued d (List.mem_append_right s List.mem_cons_self)
        rw [ht d rfl] at hd
        cases hd
  | sequence lead tail c rest hseq ih =>
    rw [decode_of_isSequence hseq, List.cons_append, List.append_assoc, decode_of_isSequence hseq,
      ih, List.cons_append]

end Reading

section Encoding

/-- The least number that takes as many continuation bytes. -/
def least : Nat → Nat
  | 1 => 0x80
  | 2 => 0x800
  | 3 => 0x10000
  | 4 => 0x200000
  | _ => 0

theorem toNat_toUInt8 {n : Nat} (h : n < 256) : n.toUInt8.toNat = n :=
  UInt8.toNat_ofNat_of_lt' h

/-- A continuation byte holds the last six bits of a number. -/
theorem continuation_spec (n : Nat) :
    isContinuation (0x80 + n % 64).toUInt8 = true ∧
      (0x80 + n % 64).toUInt8.toNat % 64 = n % 64 := by
  have hnat : (0x80 + n % 64).toUInt8.toNat = 0x80 + n % 64 := toNat_toUInt8 (by omega)
  rw [isContinuation_iff, hnat]
  omega

theorem encodeChar_of_ascii {c : Char} (h : c.toNat < 0x80) :
    ∃ b, encodeChar c = [b] ∧ b.toNat < 128 ∧ b.toUInt32 = c.val := by
  have hb : c.toNat.toUInt8.toNat = c.toNat := toNat_toUInt8 (by omega)
  refine ⟨c.toNat.toUInt8, ?_, ?_, ?_⟩
  · rw [encodeChar, if_pos h]
  · rwa [hb]
  · apply UInt32.toNat_inj.mp
    rw [UInt8.toNat_toUInt32, hb]
    rfl

theorem toNat_lt (c : Char) : c.toNat < 0x110000 := by
  have hvalid : c.toNat < 0xd800 ∨ 0xdfff < c.toNat ∧ c.toNat < 0x110000 := c.valid
  omega

/-- A character beyond ASCII is written as the shortest sequence that carries it. -/
theorem encodeChar_of_not_ascii {c : Char} (h : 0x80 ≤ c.toNat) :
    ∃ lead tail, encodeChar c = lead :: tail ∧ IsSequence lead tail c.val ∧
      least tail.length ≤ c.toNat := by
  have hval : c.val.toNat = c.toNat := rfl
  have hmax := toNat_lt c
  have hlast := continuation_spec c.toNat
  have hmiddle := continuation_spec (c.toNat / 64)
  have hfirst := continuation_spec (c.toNat / 4096)
  rw [encodeChar, if_neg (Nat.not_lt.mpr h)]
  by_cases h2 : c.toNat < 0x800
  · have hlead : (0xc0 + c.toNat / 64).toUInt8.toNat = 0xc0 + c.toNat / 64 :=
      toNat_toUInt8 (by omega)
    rw [if_pos h2]
    refine ⟨_, _, rfl, ⟨announces_iff.mpr (.inl ⟨rfl, by omega, by omega⟩), ?_, ?_⟩, h⟩
    · exact List.forall_mem_singleton.mpr hlast.1
    · simp only [value, List.foldl_cons, List.foldl_nil, List.length_cons, List.length_nil]
      omega
  · rw [if_neg h2]
    by_cases h3 : c.toNat < 0x10000
    · have hlead : (0xe0 + c.toNat / 4096).toUInt8.toNat = 0xe0 + c.toNat / 4096 :=
        toNat_toUInt8 (by omega)
      rw [if_pos h3]
      refine ⟨_, _, rfl, ⟨announces_iff.mpr (.inr (.inl ⟨rfl, by omega, by omega⟩)), ?_, ?_⟩,
        Nat.not_lt.mp h2⟩
      · exact List.forall_mem_cons.mpr ⟨hmiddle.1, List.forall_mem_singleton.mpr hlast.1⟩
      · simp only [value, List.foldl_cons, List.foldl_nil, List.length_cons, List.length_nil]
        omega
    · have hlead : (0xf0 + c.toNat / 262144).toUInt8.toNat = 0xf0 + c.toNat / 262144 :=
        toNat_toUInt8 (by omega)
      rw [if_neg h3]
      refine ⟨_, _, rfl, ⟨announces_iff.mpr (.inr (.inr ⟨rfl, by omega, by omega⟩)), ?_, ?_⟩,
        Nat.not_lt.mp h3⟩
      · exact List.forall_mem_cons.mpr
          ⟨hfirst.1, List.forall_mem_cons.mpr ⟨hmiddle.1, List.forall_mem_singleton.mpr hlast.1⟩⟩
      · simp only [value, List.foldl_cons, List.foldl_nil, List.length_cons, List.length_nil]
        omega

/-- The bytes are those of the standard library, which puts the marks behind the bits. -/
theorem encodeChar_eq_utf8EncodeChar (c : Char) : encodeChar c = String.utf8EncodeChar c := by
  have hmax := toNat_lt c
  have hbyte : ∀ {m n : Nat}, m = n → m.toUInt8 = UInt8.ofNat n := fun h => congrArg UInt8.ofNat h
  have hval : c.val.toNat = c.toNat := rfl
  simp only [encodeChar, String.utf8EncodeChar, hval]
  by_cases h1 : c.toNat < 0x80
  · rw [if_pos h1, if_pos (Nat.le_of_lt_succ h1)]
  · rw [if_neg h1, if_neg (fun h => h1 (Nat.lt_succ_of_le h))]
    by_cases h2 : c.toNat < 0x800
    · rw [if_pos h2, if_pos (Nat.le_of_lt_succ h2)]
      simp only [List.cons.injEq, and_true]
      exact ⟨hbyte (by omega), hbyte (by omega)⟩
    · rw [if_neg h2, if_neg (fun h => h2 (Nat.lt_succ_of_le h))]
      by_cases h3 : c.toNat < 0x10000
      · rw [if_pos h3, if_pos (Nat.le_of_lt_succ h3)]
        simp only [List.cons.injEq, and_true]
        exact ⟨hbyte (by omega), hbyte (by omega), hbyte (by omega)⟩
      · rw [if_neg h3, if_neg (fun h => h3 (Nat.lt_succ_of_le h))]
        simp only [List.cons.injEq, and_true]
        exact ⟨hbyte (by omega), hbyte (by omega), hbyte (by omega), hbyte (by omega)⟩

theorem decode_encodeChar_append (c : Char) (s : Bytes) :
    decode (encodeChar c ++ s) = c.val :: decode s := by
  rcases Nat.lt_or_ge c.toNat 0x80 with h | h
  · obtain ⟨b, hencode, hb, hval⟩ := encodeChar_of_ascii h
    rw [hencode, ← hval]
    apply decode_of_alone
    intro tail d _ hseq
    have hlead := announces_iff.mp hseq.announces
    omega
  · obtain ⟨lead, tail, hencode, hseq, -⟩ := encodeChar_of_not_ascii h
    rw [hencode]
    exact decode_of_isSequence hseq s

theorem decode_encode_append (cs : List Char) (s : Bytes) :
    decode (encode cs ++ s) = cs.map (·.val) ++ decode s := by
  induction cs with
  | nil => rfl
  | cons c cs ih =>
    change decode (encodeChar c ++ encode cs ++ s) = _
    rw [List.append_assoc, decode_encodeChar_append, ih]
    rfl

end Encoding

/-- A text in UTF-8 is read as the characters that it was made of, whatever stands behind it. Any
text whatever is cut into pieces of one to four bytes, in one way only, and is read as one
character for each: a lead byte and as many continuation bytes as it announces are the character
that their bits make, and a byte with which no such sequence begins stands for itself. What is read
from a place on where no continuation byte stands does not depend on what stands before it. -/
theorem decode_resynchronises (cs : List Char) (s rest : Bytes) :
    (encode cs = cs.flatMap String.utf8EncodeChar ∧
      decode (encode cs ++ rest) = cs.map (·.val) ++ decode rest ∧
      decode (encode cs) = cs.map (·.val)) ∧
    (∃ pieces, pieces.flatten = s ∧ Read pieces (decode s) ∧
      ∀ piece ∈ pieces, 1 ≤ piece.length ∧ piece.length ≤ 4) ∧
    (∀ pieces values, pieces.flatten = s → Read pieces values → values = decode s) ∧
    ((∀ b ∈ rest.head?, isContinuation b = false) →
      decode (s ++ rest) = decode s ++ decode rest) := by
  obtain ⟨pieces, hpieces, hread⟩ := exists_read s
  refine ⟨⟨?_, decode_encode_append cs rest, ?_⟩, ⟨pieces, hpieces, hread, hread.length_piece⟩,
    ?_, decode_append s⟩
  · exact List.flatMap_congr fun c _ => encodeChar_eq_utf8EncodeChar c
  · have h := decode_encode_append cs []
    rwa [decode_nil, List.append_nil, List.append_nil] at h
  · rintro pieces values rfl hother
    exact hother.eq_decode

end TimedInput.Utf8
