import Mathlib.Data.List.DropRight
import TimedInput.Proofs.Text.Splitting

/-!
# Trimming

What the blanks at the ends of a text are, and what is left without them. A byte that is not blank
keeps what stands before it apart from what stands after it.
-/

namespace TimedInput.Bytes

section Tails

variable (p : UInt8 → Bool) (s t : Bytes)

/-- The tail that is dropped reaches into the first part only if it takes all of the second. -/
theorem dropTail_append :
    dropTail p (s ++ t) = if dropTail p t = [] then dropTail p s else s ++ dropTail p t := by
  simp only [dropTail, List.reverse_append, List.dropWhile_append, List.isEmpty_iff,
    List.reverse_eq_nil_iff]
  split
  · rfl
  · rw [List.reverse_append, List.reverse_reverse]

theorem dropTail_prefix : dropTail p s <+: s :=
  List.rdropWhile_prefix p s

variable {p s}

theorem getLast?_dropTail {c : UInt8} (h : c ∈ (dropTail p s).getLast?) : p c = false := by
  rw [dropTail, List.getLast?_reverse] at h
  exact head?_dropWhile h

theorem dropTail_eq_self_iff : dropTail p s = s ↔ ∀ c ∈ s.getLast?, p c = false := by
  refine ⟨?_, dropTail_eq_self⟩
  intro h c hc
  rw [← h] at hc
  exact getLast?_dropTail hc

end Tails

/-- Each side of a byte that is not blank is trimmed at its own end. -/
theorem trim_append_cons {b : UInt8} (hb : isBlank b = false) (s t : Bytes) :
    (s ++ b :: t).trim = s.dropWhile isBlank ++ b :: t.dropTail isBlank := by
  have hstart : (s ++ b :: t).dropWhile isBlank = s.dropWhile isBlank ++ b :: t := by
    rw [List.dropWhile_append]
    split
    · rename_i hempty
      rw [List.isEmpty_iff.mp hempty, List.dropWhile_cons_of_neg (by simp [hb])]
      rfl
    · rfl
  have hsingle : dropTail isBlank [b] = [b] := dropTail_eq_self (by simpa using hb)
  have htail : dropTail isBlank (b :: t) = b :: t.dropTail isBlank := by
    have happend := dropTail_append isBlank [b] t
    split at happend
    · rename_i hnil
      rw [hnil, ← hsingle, ← happend]
      rfl
    · exact happend
  rw [trim, hstart, dropTail_append, htail, if_neg (List.cons_ne_nil _ _)]

theorem trim_dropWhile (s : Bytes) : trim (s.dropWhile isBlank) = s.trim := by
  rw [trim, List.dropWhile_idempotent, trim]

theorem head?_trim {s : Bytes} {c : UInt8} (h : c ∈ s.trim.head?) : isBlank c = false := by
  obtain ⟨rest, hrest⟩ := dropTail_prefix isBlank (s.dropWhile isBlank)
  have hfirst : (dropTail isBlank (s.dropWhile isBlank)).head? = some c := h
  have hhead : c ∈ (s.dropWhile isBlank).head? := by
    rw [← hrest, List.head?_append, hfirst]
    rfl
  exact head?_dropWhile hhead

theorem trim_trim (s : Bytes) : s.trim.trim = s.trim :=
  trim_eq_self (fun _ hc => head?_trim hc) fun _ hc => getLast?_dropTail hc

/-- Only blanks are trimmed. -/
theorem isBlank_or_mem_trim {s : Bytes} {c : UInt8} (h : c ∈ s) :
    isBlank c = true ∨ c ∈ s.trim := by
  by_cases hc : isBlank c = true
  · exact .inl hc
  · right
    obtain ⟨s, t, rfl⟩ := List.append_of_mem h
    rw [trim_append_cons (by simpa using hc)]
    simp

/-- The text is what is left of the line without the blanks at its ends. -/
structure Trimmed (line left text right : Bytes) : Prop where
  eq : line = left ++ text ++ right
  left : ∀ b ∈ left, isBlank b = true
  right : ∀ b ∈ right, isBlank b = true
  first : ∀ b ∈ text.head?, isBlank b = false
  last : ∀ b ∈ text.getLast?, isBlank b = false

section Trimming

variable {line left text right : Bytes}

theorem exists_trimmed (line : Bytes) : ∃ left right, Trimmed line left line.trim right := by
  let rest := line.dropWhile isBlank
  refine ⟨line.takeWhile isBlank, rest.rtakeWhile isBlank, ?_, ?_, ?_, ?_, ?_⟩
  · have hrest : line.trim ++ rest.rtakeWhile isBlank = rest := List.rdropWhile_append_rtakeWhile ..
    rw [List.append_assoc, hrest, List.takeWhile_append_dropWhile]
  · exact fun b hb => List.mem_takeWhile_imp hb
  · exact fun b hb => List.mem_rtakeWhile_imp hb
  · exact fun b hb => head?_trim hb
  · exact fun b hb => getLast?_dropTail hb

theorem Trimmed.eq_trim (h : Trimmed line left text right) : text = line.trim := by
  obtain ⟨rfl, hleft, hright, hfirst, hlast⟩ := h
  have hnil : dropTail isBlank right = [] := List.rdropWhile_eq_nil_iff.mpr hright
  cases text with
  | nil =>
    refine (trim_eq_nil_iff.mpr ?_).symm
    simp only [List.append_nil, List.mem_append]
    exact fun c hc => hc.elim (hleft c) (hright c)
  | cons b text =>
    have hb : isBlank b = false := hfirst b rfl
    have hstart : (b :: (text ++ right)).dropWhile isBlank = b :: (text ++ right) :=
      List.dropWhile_cons_of_neg (by simp [hb])
    rw [trim, List.append_assoc, List.dropWhile_append_of_pos hleft, List.cons_append, hstart,
      ← List.cons_append, dropTail_append, if_pos hnil, dropTail_eq_self hlast]

end Trimming

end TimedInput.Bytes
