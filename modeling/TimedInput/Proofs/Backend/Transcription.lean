import TimedInput.Backend.Desktop
import TimedInput.Playback.Run
import TimedInput.Proofs.Text.CodeUnits
import TimedInput.Proofs.Text.Strictness

/-!
# Texts on a desktop

A text is typed character by character, and each character reaches the desktop as its code units,
pressed and then let go of. A text in which no sequence misleads is read as a strict reader
reads it and reaches the desktop in well-formed UTF-16. A sequence that carries no Unicode
scalar reaches it in ill-formed UTF-16.
-/

namespace TimedInput

namespace Desktop

/-- Presses of code units and, after all of them, their releases in the same order. -/
def typed (us : List UInt16) : List Packet :=
  us.map (.key 0 · unicodeFlag) ++ us.map (.key 0 · (unicodeFlag + releaseFlag))

theorem typed_inj {us vs : List UInt16} (h : typed us = typed vs) : us = vs := by
  have hlength : us.length = vs.length := by
    have hboth := congrArg List.length h
    simp only [typed, List.length_append, List.length_map] at hboth
    omega
  have hpressed := List.append_inj_left h (by simpa using hlength)
  exact List.map_injective_iff.mpr (fun _ _ hu => (Packet.key.inj hu).2.1) hpressed

theorem sent_typeCharacter (desktop : Desktop) (c : UInt32) :
    (desktop.perform (.typeCharacter c)).2.sent = typed (Utf16.units c) :: desktop.sent :=
  rfl

end Desktop

open Utf8 in
/-- Every text has one strict reading, and it is read strictly exactly if no sequence in it is
misleading. Then it makes Unicode scalars only, and each of its characters is sent in well-formed
UTF-16. Whatever the text, its characters are typed one by one. All of them are Unicode scalars
exactly if no sequence carries anything else, and exactly then are all of them sent in well-formed
UTF-16. -/
theorem Desktop.types_honest_texts {σ : Type} (run : Run σ) (time : UInt64) (s : Bytes)
    (seq : UInt32) (desktop : Desktop) :
    let honest := ∀ t, t <:+: s → ¬IsMisleading t
    let scalars := ∀ c ∈ decode s, c.isValidChar
    let calls := (run.dispatch ⟨time, .text s, seq⟩).1
    let sent := ∀ call ∈ calls, ∃ us, us ≠ [] ∧ Utf16.WellFormed us ∧
      (desktop.perform call).2.sent = typed us :: desktop.sent
    (∃! cs, Strict s cs) ∧ (Strict s (decode s) ↔ honest) ∧ (honest → scalars ∧ sent) ∧
    calls = (decode s).map .typeCharacter ∧
    (scalars ↔ ∀ lead tail c, lead :: tail <:+: s → IsSequence lead tail c → c.isValidChar) ∧
    (sent ↔ scalars) := by
  intro honest scalars calls sent
  have hcalls : calls = (decode s).map .typeCharacter := rfl
  have hscalars : honest → scalars := by
    intro hhonest
    apply isValidChar_decode_iff.mpr
    intro lead tail c hin hseq
    by_contra hscalar
    exact hhonest _ hin ⟨lead, tail, c, rfl, hseq, .inr hscalar⟩
  have hsent : sent ↔ scalars := by
    simp only [sent, hcalls, List.forall_mem_map]
    refine forall₂_congr fun c hc => ?_
    rw [← Utf16.wellFormed_units_iff (toNat_lt_of_mem_decode hc)]
    constructor
    · rintro ⟨us, -, hus, hperform⟩
      rw [sent_typeCharacter] at hperform
      rwa [typed_inj (List.cons.inj hperform).1]
    · intro hunits
      exact ⟨Utf16.units c, Utf16.units_ne_nil c, hunits, sent_typeCharacter desktop c⟩
  exact ⟨existsUnique_strict s, strict_decode_iff,
    fun hhonest => ⟨hscalars hhonest, hsent.mpr (hscalars hhonest)⟩, hcalls,
    isValidChar_decode_iff, hsent⟩

open Utf8 in
/-- The three bytes that would spell a surrogate are taken for one character and sent as a lone
surrogate, where a strict reader takes three characters. -/
theorem Desktop.types_lone_surrogate :
    let s : Bytes := [0xed, 0xa0, 0x80]
    Strict s [0xed, 0xa0, 0x80] ∧ decode s = [0xd800] ∧ ¬Strict s (decode s) ∧
      ¬UInt32.isValidChar 0xd800 ∧
      (Desktop.standard.perform (.typeCharacter 0xd800)).2.sent = [typed [0xd800]] ∧
      ¬Utf16.WellFormed [0xd800] := by
  intro s
  have hseq : IsSequence 0xed [0xa0, 0x80] 0xd800 :=
    ⟨⟨by decide, by decide, rfl⟩,
      List.forall_mem_cons.mpr ⟨rfl, List.forall_mem_singleton.mpr rfl⟩, rfl⟩
  have hscalar : ¬UInt32.isValidChar 0xd800 := by decide
  have hmisleading : IsMisleading s := ⟨_, _, _, rfl, hseq, .inr hscalar⟩
  have hstrict : Strict s [0xed, 0xa0, 0x80] :=
    .byte (not_prefix_of_misleading hseq hmisleading)
      (.byte (not_prefix_of_continuation rfl) (.byte (not_prefix_of_continuation rfl) .nil))
  refine ⟨hstrict, ?_, ?_, hscalar, rfl, ?_⟩
  · have hdecode := decode_of_isSequence hseq []
    rwa [decode_nil] at hdecode
  · intro h
    exact strict_decode_iff.mp h s (List.infix_refl s) hmisleading
  · rw [Utf16.wellFormed_singleton_iff]
    decide

end TimedInput
