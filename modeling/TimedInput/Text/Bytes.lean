/-!
# Texts as strings of bytes

Scripts, messages and printed lines are lists of bytes; nothing below assumes that
they are valid UTF-8. This module has the cutting and joining of such texts: breaking
at a pattern, splitting at a separator, trimming blanks, and the two ways in which a
text can be shortened, at its first NUL or after a number of bytes.

It does NOT decode characters and knows nothing of scripts.
-/

namespace TimedInput

abbrev Bytes := List UInt8

/-- The bytes of a literal. Meant for ASCII. -/
def ascii (s : String) : Bytes :=
  s.toList.map fun c => c.toNat.toUInt8

namespace Bytes

/-- Space, tab, line feed, vertical tab, form feed and carriage return. -/
def isBlank (b : UInt8) : Bool :=
  b == 32 || (9 ≤ b && b ≤ 13)

/-- Drops the longest tail whose bytes all satisfy `p`. -/
def dropTail (p : UInt8 → Bool) (s : Bytes) : Bytes :=
  (s.reverse.dropWhile p).reverse

/-- Drops the blanks at both ends. -/
def trim (s : Bytes) : Bytes :=
  dropTail isBlank (s.dropWhile isBlank)

/-- Lower case of the ASCII letters; every other byte stays. -/
def lower (s : Bytes) : Bytes :=
  s.map fun b => if 65 ≤ b && b ≤ 90 then b + 32 else b

/-- The text before the first NUL. -/
def untilNul (s : Bytes) : Bytes :=
  s.takeWhile (· != 0)

/-- At most `n` bytes of the text, wherever that cut falls. -/
def clip (n : Nat) (s : Bytes) : Bytes :=
  s.take n

/-- At least `n` bytes, filled with spaces on the left. -/
def padLeft (n : Nat) (s : Bytes) : Bytes :=
  List.replicate (n - s.length) 32 ++ s

/-- What stands before the first occurrence of `pat`, and what stands after it. -/
def breakOn (pat : Bytes) : Bytes → Option (Bytes × Bytes)
  | [] => if pat.isEmpty then some ([], []) else none
  | b :: rest =>
    if pat.isPrefixOf (b :: rest) then some ([], (b :: rest).drop pat.length)
    else (breakOn pat rest).map fun (before, after) => (b :: before, after)

theorem breakOn_append {pat s before after : Bytes} (h : breakOn pat s = some (before, after)) :
    before ++ pat ++ after = s := by
  induction s generalizing before after with
  | nil =>
    cases pat with
    | nil => simp_all [breakOn]
    | cons _ _ => simp [breakOn] at h
  | cons b rest ih =>
    rw [breakOn] at h
    split at h
    · next hp =>
      obtain ⟨tail, ht⟩ := List.isPrefixOf_iff_prefix.mp hp
      simp only [Option.some.injEq, Prod.mk.injEq] at h
      obtain ⟨rfl, rfl⟩ := h
      simp [← ht]
    · obtain ⟨⟨u, v⟩, hu, huv⟩ := Option.map_eq_some_iff.mp h
      simp only [Prod.mk.injEq] at huv
      obtain ⟨rfl, rfl⟩ := huv
      simpa using ih hu

theorem length_after_lt {pat s before after : Bytes} (hpat : pat ≠ [])
    (h : breakOn pat s = some (before, after)) : after.length < s.length := by
  have hlen := congrArg List.length (breakOn_append h)
  have : 0 < pat.length := List.length_pos_iff.mpr hpat
  simp only [List.length_append] at hlen
  omega

/-- The pieces between the occurrences of a separator, taken from the left. -/
def splitOn (sep s : Bytes) : List Bytes :=
  if hsep : sep = [] then [s]
  else
    match h : breakOn sep s with
    | none => [s]
    | some (before, after) =>
      have := length_after_lt hsep h
      before :: splitOn sep after
termination_by s.length

/-- The pieces one after the other, with the separator between them. -/
def join (sep : Bytes) (pieces : List Bytes) : Bytes :=
  sep.intercalate pieces

/-- The longest runs of bytes outside the class `p`. -/
def wordsBy (p : UInt8 → Bool) (s : Bytes) : List Bytes :=
  match h : s.dropWhile p with
  | [] => []
  | b :: rest =>
    have : (rest.dropWhile (!p ·)).length < s.length := by
      have h1 := (List.dropWhile_suffix (l := s) p).length_le
      have h2 := (List.dropWhile_suffix (l := rest) (!p ·)).length_le
      rw [h] at h1
      simp only [List.length_cons] at h1
      omega
    (b :: rest.takeWhile (!p ·)) :: wordsBy p (rest.dropWhile (!p ·))
termination_by s.length

/-- Does the text end with `tail`? -/
def endsWith (s tail : Bytes) : Bool :=
  tail.isSuffixOf s

end Bytes

end TimedInput
