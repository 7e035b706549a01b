import TimedInput.Proofs.Text.Sequences

/-!
# Strict reading

A strict reader takes well-formed UTF-8 only for characters: the shortest sequence that carries a
Unicode scalar. Texts are read by the marks of their bytes alone, so a sequence that is too long or
carries no scalar is misleading. Without misleading sequences the two readings are the same, and
with one of them they never are.
-/

namespace TimedInput.Utf8

/-- The strict reading of a text. Every byte that begins no character in UTF-8 stands for itself. -/
inductive Strict : Bytes → List UInt32 → Prop where
  | nil : Strict [] []
  | character (c : Char) {s : Bytes} {cs : List UInt32} (h : Strict s cs) :
    Strict (encodeChar c ++ s) (c.val :: cs)
  | byte {b : UInt8} {s : Bytes} {cs : List UInt32} (hb : ∀ c, ¬encodeChar c <+: b :: s)
    (h : Strict s cs) : Strict (b :: s) (b.toUInt32 :: cs)

/-- A sequence whose character takes fewer bytes, or is no Unicode scalar. -/
def IsMisleading (t : Bytes) : Prop :=
  ∃ lead tail c, t = lead :: tail ∧ IsSequence lead tail c ∧
    (c.toNat < least tail.length ∨ ¬c.isValidChar)

variable {b lead : UInt8} {c : UInt32} {s tail rest : Bytes} {cs : List UInt32}

section Sequences

theorem foldl_lt {k : Nat} (v : Nat) (h : v < k) :
    tail.foldl (fun v b => v * 64 + b.toNat % 64) v < k * 64 ^ tail.length := by
  induction tail generalizing v k with
  | nil => simpa using h
  | cons b tail ih =>
    have hnext : v * 64 + b.toNat % 64 < k * 64 := by omega
    have hrest := ih _ hnext
    rwa [List.length_cons, Nat.pow_succ', ← Nat.mul_assoc]

theorem IsSequence.toNat_lt (h : IsSequence lead tail c) : c.toNat < least (tail.length + 1) := by
  have hbits : lead.toNat % 2 ^ (6 - tail.length) < 2 ^ (6 - tail.length) :=
    Nat.mod_lt _ (Nat.two_pow_pos _)
  have hlt : tail.foldl (fun v b => v * 64 + b.toNat % 64) (lead.toNat % 2 ^ (6 - tail.length)) <
      2 ^ (6 - tail.length) * 64 ^ tail.length := foldl_lt _ hbits
  rw [h.value_eq, value]
  rcases h.announces.cases with hn | hn | hn <;> rw [hn] at hlt ⊢ <;> exact hlt

theorem foldl_inj {other : Bytes} (hlength : tail.length = other.length)
    (htail : ∀ b ∈ tail, isContinuation b = true) (hother : ∀ b ∈ other, isContinuation b = true)
    {v w : Nat} (h : tail.foldl (fun v b => v * 64 + b.toNat % 64) v =
      other.foldl (fun v b => v * 64 + b.toNat % 64) w) : v = w ∧ tail = other := by
  induction tail generalizing other v w with
  | nil =>
    rw [List.eq_nil_of_length_eq_zero hlength.symm] at h ⊢
    exact ⟨h, rfl⟩
  | cons b tail ih =>
    cases other with
    | nil => cases hlength
    | cons d other =>
      obtain ⟨hb, htail⟩ := List.forall_mem_cons.mp htail
      obtain ⟨hd, hother⟩ := List.forall_mem_cons.mp hother
      obtain ⟨hvalue, rfl⟩ := ih (Nat.succ.inj hlength) htail hother h
      rw [isContinuation_iff] at hb hd
      have hdigit : v * 64 + b.toNat % 64 = w * 64 + d.toNat % 64 := hvalue
      have hbd : b = d := UInt8.toNat_inj.mp (by omega)
      rw [hbd]
      exact ⟨by omega, rfl⟩

theorem IsSequence.unique {first : UInt8} {other : Bytes} (h : IsSequence lead tail c)
    (h' : IsSequence first other c) (hlength : tail.length = other.length) :
    lead = first ∧ tail = other := by
  have hvalue := h.value_eq.symm.trans h'.value_eq
  rw [value, value, ← hlength] at hvalue
  obtain ⟨hbits, rfl⟩ := foldl_inj hlength h.continued h'.continued hvalue
  refine ⟨UInt8.toNat_inj.mp ?_, rfl⟩
  rw [← Nat.div_add_mod lead.toNat (2 ^ (6 - tail.length)), hbits, h.announces.2.2,
    ← h'.announces.2.2, Nat.div_add_mod]

theorem Announces.le_of_least_le {first : UInt8} {m n k : Nat} (hm : Announces first m)
    (hn : Announces lead n) (hleast : least m ≤ k) (hlt : k < least (n + 1)) : m ≤ n := by
  rcases hm.cases with rfl | rfl | rfl <;> rcases hn.cases with rfl | rfl | rfl <;>
    simp [least] at hleast hlt <;> omega

theorem IsSequence.encodeChar_eq (h : IsSequence lead tail c) (hleast : least tail.length ≤ c.toNat)
    (hvalid : c.isValidChar) : encodeChar ⟨c, hvalid⟩ = lead :: tail := by
  have hascii : 0x80 ≤ (Char.mk c hvalid).toNat := by
    change 0x80 ≤ c.toNat
    rcases h.announces.cases with hn | hn | hn <;> rw [hn] at hleast <;>
      exact Nat.le_trans (by decide) hleast
  obtain ⟨first, other, hencode, hseq, hleast'⟩ := encodeChar_of_not_ascii hascii
  obtain ⟨rfl, rfl⟩ := h.unique hseq (Nat.le_antisymm
    (h.announces.le_of_least_le hseq.announces hleast hseq.toNat_lt)
    (hseq.announces.le_of_least_le h.announces hleast' h.toNat_lt))
  exact hencode

/-- Lead bytes tell how long their sequences are, so two sequences do not begin at one place. -/
theorem IsSequence.eq_of_prefix {other : Bytes} {d : UInt32} (h : IsSequence lead tail c)
    (h' : IsSequence lead other d) (htail : tail <+: s) (hother : other <+: s) :
    tail = other ∧ c = d := by
  have hlength := h.announces.unique h'.announces
  obtain rfl := List.IsPrefix.eq_of_length
    (List.prefix_of_prefix_length_le htail hother (Nat.le_of_eq hlength)) hlength
  exact ⟨rfl, h.character_unique h'⟩

theorem IsSequence.infix_of_continued {others : Bytes} (h : IsSequence lead tail c)
    (hothers : ∀ b ∈ others, isContinuation b = true) (hin : lead :: tail <:+: others ++ s) :
    lead :: tail <:+: s := by
  induction others with
  | nil => exact hin
  | cons b others ih =>
    obtain ⟨hb, hothers⟩ := List.forall_mem_cons.mp hothers
    rw [List.cons_append, List.infix_cons_iff] at hin
    rcases hin with hprefix | hin
    · rw [List.cons_prefix_cons.mp hprefix |>.1.symm, h.announces.isContinuation_eq_false] at hb
      cases hb
    · exact ih hothers hin

/-- What is written for a character begins with an ASCII byte and ends there, or is a sequence. -/
theorem encodeChar_cases {ch : Char} (h : encodeChar ch <+: b :: s) :
    encodeChar ch = [b] ∧ ch.val = b.toUInt32 ∧ b.toNat < 128 ∨
      ∃ tail, encodeChar ch = b :: tail ∧ tail <+: s ∧ IsSequence b tail ch.val ∧
        least tail.length ≤ ch.toNat := by
  rcases Nat.lt_or_ge ch.toNat 0x80 with hascii | hascii
  · obtain ⟨first, hencode, hfirst, hval⟩ := encodeChar_of_ascii hascii
    rw [hencode] at h
    obtain rfl := (List.cons_prefix_cons.mp h).1
    exact .inl ⟨hencode, hval.symm, hfirst⟩
  · obtain ⟨first, tail, hencode, hseq, hleast⟩ := encodeChar_of_not_ascii hascii
    rw [hencode] at h
    obtain ⟨rfl, htail⟩ := List.cons_prefix_cons.mp h
    exact .inr ⟨tail, hencode, htail, hseq, hleast⟩

theorem not_prefix_of_continuation (hb : isContinuation b = true) (ch : Char) :
    ¬encodeChar ch <+: b :: s := by
  intro h
  rcases encodeChar_cases h with ⟨-, -, hascii⟩ | ⟨tail, -, -, hseq, -⟩
  · have hleast := (isContinuation_iff.mp hb).1
    omega
  · rw [hseq.announces.isContinuation_eq_false] at hb
    cases hb

theorem not_prefix_of_misleading (h : IsSequence lead tail c)
    (hmisleading : IsMisleading (lead :: tail)) (ch : Char) :
    ¬encodeChar ch <+: lead :: (tail ++ rest) := by
  obtain ⟨first, others, d, heq, hseq, hbad⟩ := hmisleading
  obtain ⟨rfl, rfl⟩ := List.cons_eq_cons.mp heq
  obtain rfl := h.character_unique hseq
  intro hprefix
  rcases encodeChar_cases hprefix with ⟨-, -, hascii⟩ | ⟨other, -, hother, hseq', hleast⟩
  · have hlead := announces_iff.mp h.announces
    omega
  · obtain ⟨rfl, rfl⟩ := h.eq_of_prefix hseq' (List.prefix_append tail rest) hother
    rcases hbad with hshort | hscalar
    · exact Nat.not_lt.mpr hleast hshort
    · exact hscalar ch.valid

theorem IsSequence.exists_encodeChar (h : IsSequence lead tail c)
    (hhonest : ¬IsMisleading (lead :: tail)) :
    ∃ ch : Char, encodeChar ch = lead :: tail ∧ ch.val = c := by
  by_cases hbad : c.toNat < least tail.length ∨ ¬c.isValidChar
  · exact absurd ⟨lead, tail, c, rfl, h, hbad⟩ hhonest
  · rw [not_or, Nat.not_lt, not_not] at hbad
    exact ⟨⟨c, hbad.2⟩, h.encodeChar_eq hbad.1 hbad.2, rfl⟩

end Sequences

section Reading

theorem encodeChar_append_inj {ch other : Char}
    (h : encodeChar ch ++ s = encodeChar other ++ rest) : ch = other ∧ s = rest := by
  have hdecode := congrArg decode h
  rw [decode_encodeChar_append, decode_encodeChar_append] at hdecode
  obtain rfl := Char.ext (List.cons.inj hdecode).1
  exact ⟨rfl, List.append_cancel_left h⟩

theorem strict_nil_iff : Strict [] cs ↔ cs = [] := by
  constructor
  · intro h
    generalize htext : [] = text at h
    cases h with
    | nil => rfl
    | @character ch s cs h =>
      have hdecode := decode_encodeChar_append ch s
      rw [← htext, decode_nil] at hdecode
      cases hdecode
    | byte => cases htext
  · rintro rfl
    exact .nil

theorem strict_character_iff {ch : Char} :
    Strict (encodeChar ch ++ s) cs ↔ ∃ cs', cs = ch.val :: cs' ∧ Strict s cs' := by
  constructor
  · intro h
    generalize htext : encodeChar ch ++ s = text at h
    cases h with
    | nil =>
      have hdecode := decode_encodeChar_append ch s
      rw [htext, decode_nil] at hdecode
      cases hdecode
    | character other h =>
      obtain ⟨rfl, rfl⟩ := encodeChar_append_inj htext
      exact ⟨_, rfl, h⟩
    | byte hb => exact absurd ⟨s, htext⟩ (hb ch)
  · rintro ⟨cs', rfl, h⟩
    exact .character ch h

theorem strict_byte_iff (hb : ∀ ch, ¬encodeChar ch <+: b :: s) :
    Strict (b :: s) cs ↔ ∃ cs', cs = b.toUInt32 :: cs' ∧ Strict s cs' := by
  constructor
  · intro h
    generalize htext : b :: s = text at h
    cases h with
    | nil => cases htext
    | character ch h => exact absurd ⟨_, htext.symm⟩ (hb ch)
    | byte hb h =>
      obtain ⟨rfl, rfl⟩ := List.cons_eq_cons.mp htext
      exact ⟨_, rfl, h⟩
  · rintro ⟨cs', rfl, h⟩
    exact .byte hb h

theorem strict_continued_iff (htail : ∀ b ∈ tail, isContinuation b = true) :
    Strict (tail ++ rest) cs ↔ ∃ cs', cs = tail.map UInt8.toUInt32 ++ cs' ∧ Strict rest cs' := by
  induction tail generalizing cs with
  | nil => simp
  | cons b tail ih =>
    obtain ⟨hb, htail⟩ := List.forall_mem_cons.mp htail
    rw [List.cons_append, strict_byte_iff (not_prefix_of_continuation hb)]
    constructor
    · rintro ⟨cs', rfl, h⟩
      obtain ⟨cs'', rfl, hrest⟩ := (ih htail).mp h
      exact ⟨cs'', rfl, hrest⟩
    · rintro ⟨cs', rfl, h⟩
      exact ⟨_, rfl, (ih htail).mpr ⟨cs', rfl, h⟩⟩

theorem strict_alone_iff (halone : ∀ tail c, tail <+: s → ¬IsSequence b tail c) :
    Strict (b :: s) cs ↔ ∃ cs', cs = b.toUInt32 :: cs' ∧ Strict s cs' := by
  by_cases h : ∃ ch, encodeChar ch <+: b :: s
  · obtain ⟨ch, hprefix⟩ := h
    rcases encodeChar_cases hprefix with ⟨hencode, hval, -⟩ | ⟨tail, -, htail, hseq, -⟩
    · have hcharacter : Strict (encodeChar ch ++ s) cs ↔ ∃ cs', cs = ch.val :: cs' ∧ Strict s cs' :=
        strict_character_iff
      rwa [hencode, hval] at hcharacter
    · exact absurd hseq (halone tail ch.val htail)
  · exact strict_byte_iff (not_exists.mp h)

theorem strict_honest_iff (h : IsSequence lead tail c) (hhonest : ¬IsMisleading (lead :: tail)) :
    Strict (lead :: (tail ++ rest)) cs ↔ ∃ cs', cs = c :: cs' ∧ Strict rest cs' := by
  obtain ⟨ch, hencode, rfl⟩ := h.exists_encodeChar hhonest
  rw [← List.cons_append, ← hencode, strict_character_iff]

theorem strict_misleading_iff (h : IsSequence lead tail c)
    (hmisleading : IsMisleading (lead :: tail)) :
    Strict (lead :: (tail ++ rest)) cs ↔
      ∃ cs', cs = lead.toUInt32 :: (tail.map UInt8.toUInt32 ++ cs') ∧ Strict rest cs' := by
  rw [strict_byte_iff (not_prefix_of_misleading h hmisleading)]
  constructor
  · rintro ⟨cs', rfl, htail⟩
    obtain ⟨cs'', rfl, hrest⟩ := (strict_continued_iff h.continued).mp htail
    exact ⟨cs'', rfl, hrest⟩
  · rintro ⟨cs', rfl, hrest⟩
    exact ⟨_, rfl, (strict_continued_iff h.continued).mpr ⟨cs', rfl, hrest⟩⟩

/-- Every text has one strict reading. -/
theorem existsUnique_strict (s : Bytes) : ∃! cs, Strict s cs := by
  have hstep : ∀ {s rest : Bytes} (f : List UInt32 → List UInt32),
      (∀ cs, Strict s cs ↔ ∃ cs', cs = f cs' ∧ Strict rest cs') → (∃! cs, Strict rest cs) →
        ∃! cs, Strict s cs := by
    rintro s rest f hiff ⟨cs, hcs, hunique⟩
    refine ⟨f cs, (hiff _).mpr ⟨cs, rfl, hcs⟩, ?_⟩
    intro other hother
    obtain ⟨cs', rfl, hcs'⟩ := (hiff other).mp hother
    rw [hunique cs' hcs']
  induction s using reading_induction with
  | nil => exact ⟨[], .nil, fun cs h => strict_nil_iff.mp h⟩
  | byte b s halone ih => exact hstep _ (fun cs => strict_alone_iff halone) ih
  | sequence lead tail c rest hseq ih =>
    by_cases hmisleading : IsMisleading (lead :: tail)
    · exact hstep (fun cs' => _ :: (_ ++ cs')) (fun cs => strict_misleading_iff hseq hmisleading) ih
    · exact hstep _ (fun cs => strict_honest_iff hseq hmisleading) ih

/-- The strict reading is as long as the other one, or longer where a sequence misleads. -/
theorem Strict.length_decode (h : Strict s cs) :
    (decode s).length ≤ cs.length ∧
      ((decode s).length = cs.length → ∀ t, t <:+: s → ¬IsMisleading t) := by
  induction s using reading_induction generalizing cs with
  | nil =>
    refine ⟨by rw [decode_nil]; exact Nat.zero_le _, ?_⟩
    rintro - t ht ⟨lead, tail, c, rfl, -⟩
    cases List.infix_nil.mp ht
  | byte b s halone ih =>
    obtain ⟨cs, rfl, hs⟩ := (strict_alone_iff halone).mp h
    obtain ⟨hle, hhonest⟩ := ih hs
    rw [decode_of_alone halone, List.length_cons, List.length_cons]
    refine ⟨Nat.succ_le_succ hle, ?_⟩
    rintro heq t ht ⟨lead, tail, c, rfl, hseq, hbad⟩
    rcases List.infix_cons_iff.mp ht with hprefix | hin
    · obtain ⟨rfl, htail⟩ := List.cons_prefix_cons.mp hprefix
      exact halone tail c htail hseq
    · exact hhonest (Nat.succ.inj heq) _ hin ⟨lead, tail, c, rfl, hseq, hbad⟩
  | sequence lead tail c rest hseq ih =>
    rw [decode_of_isSequence hseq, List.length_cons]
    by_cases hmisleading : IsMisleading (lead :: tail)
    · obtain ⟨cs, rfl, hrest⟩ := (strict_misleading_iff hseq hmisleading).mp h
      obtain ⟨hle, -⟩ := ih hrest
      have hpos := hseq.announces.1
      rw [List.length_cons, List.length_append, List.length_map]
      exact ⟨by omega, fun heq => by omega⟩
    · obtain ⟨cs, rfl, hrest⟩ := (strict_honest_iff hseq hmisleading).mp h
      obtain ⟨hle, hhonest⟩ := ih hrest
      refine ⟨Nat.succ_le_succ hle, ?_⟩
      rintro heq t ht ⟨first, others, d, rfl, hother, hbad⟩
      rcases List.infix_cons_iff.mp ht with hprefix | hin
      · obtain ⟨rfl, hothers⟩ := List.cons_prefix_cons.mp hprefix
        obtain ⟨rfl, rfl⟩ := hseq.eq_of_prefix hother (List.prefix_append tail rest) hothers
        exact hmisleading ⟨first, tail, c, rfl, hseq, hbad⟩
      · have hin := hother.infix_of_continued hseq.continued hin
        exact hhonest (Nat.succ.inj heq) _ hin ⟨first, others, d, rfl, hother, hbad⟩

/-- Texts are read strictly exactly if no sequence in them misleads. -/
theorem strict_decode_iff : Strict s (decode s) ↔ ∀ t, t <:+: s → ¬IsMisleading t := by
  constructor
  · exact fun h => h.length_decode.2 rfl
  · intro hhonest
    induction s using reading_induction with
    | nil => exact strict_nil_iff.mpr decode_nil
    | byte b s halone ih =>
      rw [decode_of_alone halone, strict_alone_iff halone]
      exact ⟨_, rfl, ih fun t ht => hhonest t (ht.trans (List.suffix_cons b s).isInfix)⟩
    | sequence lead tail c rest hseq ih =>
      have hwhole : lead :: tail <+: lead :: (tail ++ rest) :=
        List.prefix_append (lead :: tail) rest
      have hrest : rest <:+ lead :: (tail ++ rest) := List.suffix_append (lead :: tail) rest
      rw [decode_of_isSequence hseq, strict_honest_iff hseq (hhonest _ hwhole.isInfix)]
      exact ⟨_, rfl, ih fun t ht => hhonest t (ht.trans hrest.isInfix)⟩

end Reading

section Scalars

theorem isValidChar_byte (b : UInt8) : b.toUInt32.isValidChar := by
  left
  rw [UInt8.toNat_toUInt32]
  exact Nat.lt_trans b.toNat_lt (by decide)

theorem IsSequence.mem_decode (h : IsSequence lead tail c) (hin : lead :: tail <:+: s) :
    c ∈ decode s := by
  obtain ⟨before, after, rfl⟩ := hin
  have hlead : ∀ b ∈ (lead :: (tail ++ after)).head?, isContinuation b = false := by
    rintro b hb
    rw [← Option.some.inj hb]
    exact h.announces.isContinuation_eq_false
  rw [List.append_assoc, List.cons_append, decode_append before hlead, decode_of_isSequence h]
  exact List.mem_append_right _ List.mem_cons_self

theorem mem_decode_cases (h : c ∈ decode s) :
    (∃ b : UInt8, c = b.toUInt32) ∨ ∃ lead tail, lead :: tail <:+: s ∧ IsSequence lead tail c := by
  induction s using reading_induction with
  | nil =>
    rw [decode_nil] at h
    cases h
  | byte b s halone ih =>
    rw [decode_of_alone halone] at h
    rcases List.mem_cons.mp h with rfl | h
    · exact .inl ⟨b, rfl⟩
    · refine (ih h).imp_right ?_
      rintro ⟨lead, tail, hin, hseq⟩
      exact ⟨lead, tail, hin.trans (List.suffix_cons b s).isInfix, hseq⟩
  | sequence lead tail d rest hseq ih =>
    rw [decode_of_isSequence hseq] at h
    rcases List.mem_cons.mp h with rfl | h
    · exact .inr ⟨lead, tail, (List.prefix_append (lead :: tail) rest).isInfix, hseq⟩
    · refine (ih h).imp_right ?_
      rintro ⟨first, others, hin, hother⟩
      exact ⟨first, others, hin.trans (List.suffix_append (lead :: tail) rest).isInfix, hother⟩

theorem toNat_lt_of_mem_decode (h : c ∈ decode s) : c.toNat < 0x200000 := by
  rcases mem_decode_cases h with ⟨b, rfl⟩ | ⟨lead, tail, -, hseq⟩
  · rw [UInt8.toNat_toUInt32]
    exact Nat.lt_trans b.toNat_lt (by decide)
  · have hlt := hseq.toNat_lt
    rcases hseq.announces.cases with hn | hn | hn <;> rw [hn] at hlt <;>
      exact Nat.lt_of_lt_of_le hlt (by decide)

/-- Only a sequence that carries none is read as something else than a Unicode scalar. -/
theorem isValidChar_decode_iff :
    (∀ c ∈ decode s, c.isValidChar) ↔
      ∀ lead tail c, lead :: tail <:+: s → IsSequence lead tail c → c.isValidChar := by
  constructor
  · intro h lead tail c hin hseq
    exact h c (hseq.mem_decode hin)
  · intro h c hc
    rcases mem_decode_cases hc with ⟨b, rfl⟩ | ⟨lead, tail, hin, hseq⟩
    · exact isValidChar_byte b
    · exact h lead tail c hin hseq

end Scalars

end TimedInput.Utf8
