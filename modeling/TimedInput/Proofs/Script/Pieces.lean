import TimedInput.Proofs.Script.Isolation
import TimedInput.Proofs.Text.Splitter
import TimedInput.Proofs.Text.Trimming

/-!
# Lines and clauses are all of a text

A text is the pieces that it is split into, put together again, and no other pieces without the
separator make it up. So what is read line by line, and clause by clause, is all that the text says.
-/

namespace TimedInput

namespace Bytes

/-- The pieces make up the text with a separator between each two of them, and contain none. -/
structure Parts (b : UInt8) (s : Bytes) (pieces : List Bytes) : Prop where
  join_eq : join [b] pieces = s
  nonempty : pieces ≠ []
  free : ∀ piece ∈ pieces, b ∉ piece

section Parts

variable {b : UInt8} {s : Bytes} {pieces : List Bytes}

theorem parts_splitOn (b : UInt8) (s : Bytes) : Parts b s (splitOn [b] s) :=
  ⟨join_splitOn, splitOn_ne_nil, fun _ => not_mem_of_mem_splitOn⟩

variable {p : UInt8 → Bool}

/-- A class of bytes to which the separator does not belong is found in the pieces alone. -/
theorem filter_join (hb : p b = false) (pieces : List Bytes) :
    (join [b] pieces).filter p = pieces.flatMap (List.filter p) := by
  induction pieces with
  | nil => rfl
  | cons piece pieces ih =>
    cases pieces with
    | nil => simp [join]
    | cons next pieces =>
      rw [join_cons_cons, List.filter_append, List.filter_cons_of_neg (by simp [hb]), ih]
      rfl

theorem filter_trim (line : Bytes) :
    line.trim.filter (!isBlank ·) = line.filter (!isBlank ·) := by
  obtain ⟨left, right, h⟩ := exists_trimmed line
  have hleft : left.filter (!isBlank ·) = [] := by simpa using h.left
  have hright : right.filter (!isBlank ·) = [] := by simpa using h.right
  conv_rhs => rw [h.eq]
  rw [List.filter_append, List.filter_append, hleft, hright, List.nil_append, List.append_nil]

end Parts

end Bytes

namespace SourceLine

theorem filter_numbered (first : Nat) (lines : List Bytes) :
    (numbered first lines).flatMap (fun line => line.text.filter (!Bytes.isBlank ·)) =
      lines.flatMap (List.filter (!Bytes.isBlank ·)) := by
  induction lines generalizing first with
  | nil => rfl
  | cons line lines ih =>
    have htrim := Bytes.filter_trim line
    by_cases h : line.trim = []
    · rw [h] at htrim
      rw [numbered_cons_of_blank first h, ih, List.flatMap_cons, ← htrim]
      rfl
    · rw [numbered_cons_of_filled first h, List.flatMap_cons, List.flatMap_cons, ih, htrim]

theorem filter_ofStripped (stripped : Bytes) :
    (ofStripped stripped).flatMap (fun line => line.text.filter (!Bytes.isBlank ·)) =
      stripped.filter (!Bytes.isBlank ·) := by
  rw [ofStripped_eq_numbered, filter_numbered, ← Bytes.filter_join (b := Comment.newline) rfl,
    Bytes.join_splitOn]

end SourceLine

namespace Bytes

/-- Splitting a text at a separator comes to an end, and the pieces put together again are the text.
No piece contains the separator. A cursor that makes a round for each piece, within the text, passes
the same pieces. If the separator is a single byte, pieces that are put together are found again,
empty ones at any place among them. So the lines that are read are all of a source without its
comments, and what is left of them has the same bytes as that, but for blanks; and what comes of
the actions of a line is what its clauses add to it, each of them once. -/
theorem splitting_loses_nothing :
    (∀ sep s : Bytes, sep ≠ [] →
      let pieces := splitOn sep s
      join sep pieces = s ∧ (∀ piece ∈ pieces, ¬sep <:+: piece) ∧
      ∀ nowhere, s.length ≤ nowhere →
        let rounds := fun k => (Splitter.step nowhere sep s)^[k] Splitter.initial
        (∀ k < pieces.length, (rounds k).isOver = false ∧ (rounds k).offset ≤ s.length) ∧
        (rounds pieces.length).isOver = true ∧ (rounds pieces.length).passed = pieces) ∧
    (∀ (b : UInt8) (pieces : List Bytes), pieces ≠ [] → (∀ piece ∈ pieces, b ∉ piece) →
      splitOn [b] (join [b] pieces) = pieces) ∧
    (∀ source : Bytes, ∃ lines, Parts Comment.newline (Comment.strip source) lines ∧
      SourceLine.ofSource source = SourceLine.numbered 1 lines ∧
      (SourceLine.ofSource source).flatMap (fun line => line.text.filter (!isBlank ·)) =
        (Comment.strip source).filter (!isBlank ·)) ∧
    ∀ (platform : Platform) (source : Bytes), ∃ clauses shares, Parts 59 source clauses ∧
      List.Forall₂ (Clause.Share platform) clauses shares ∧
      ((∃ clause ∈ clauses, clause.trim ≠ []) →
        LineActions.parse platform source =
          ⟨shares.flatMap (·.actions), shares.flatMap (·.causes)⟩) ∧
      ((∀ clause ∈ clauses, clause.trim = []) →
        LineActions.parse platform source = ⟨[], [.missingAction]⟩) := by
  refine ⟨?_, fun b pieces => splitOn_join, ?_, ?_⟩
  · intro sep s hsep pieces
    refine ⟨join_splitOn, fun piece => not_infix_of_mem_splitOn hsep, ?_⟩
    intro nowhere hfar rounds
    have hunderway : ∀ k < pieces.length, Splitter.Underway sep s k (rounds k) :=
      fun k hk => Splitter.underway_iterate hsep hfar hk
    exact ⟨fun k hk => ⟨(hunderway k hk).running, (hunderway k hk).inside⟩,
      Splitter.over_iterate hsep hfar⟩
  · intro source
    exact ⟨_, parts_splitOn Comment.newline (Comment.strip source), rfl,
      SourceLine.filter_ofStripped (Comment.strip source)⟩
  · intro platform source
    exact ⟨_, _, parts_splitOn 59 source, Clause.forall₂_share platform _,
      LineActions.parse_of_filled, LineActions.parse_of_blank⟩

/-- The first three bytes hold the separator twice, and it is found once. -/
theorem splitting_loses_nothing_overlapping :
    let sep := ascii "aa"
    let s := ascii "aaabaa"
    sep ≠ [] ∧ splitOn sep s = [[], ascii "ab", []] ∧ join sep (splitOn sep s) = s ∧
    (((Splitter.step 18446744073709551615 sep s)^[3] Splitter.initial).passed =
      [[], ascii "ab", []]) ∧
    splitOn [59] (join [59] [[], ascii "ab", [], []]) = [[], ascii "ab", [], []] := by
  intro sep s
  obtain ⟨hsplit, hjoin, -⟩ := splitting_loses_nothing
  have hsep : sep ≠ [] := by decide
  have hfirst : breakOn sep s = some ([], ascii "abaa") := by decide
  have hsecond : breakOn sep (ascii "abaa") = some (ascii "ab", []) := by decide
  have hlast : breakOn sep [] = none := by decide
  have hpieces : splitOn sep s = [[], ascii "ab", []] := by
    rw [splitOn_of_some hsep hfirst, splitOn_of_some hsep hsecond, splitOn_of_none hlast]
  obtain ⟨htext, -, hrounds⟩ := hsplit sep s hsep
  obtain ⟨-, -, hpassed⟩ := hrounds 18446744073709551615 (by decide)
  rw [hpieces] at hpassed
  exact ⟨hsep, hpieces, htext, hpassed, hjoin 59 _ (by decide) (by decide)⟩

end Bytes

end TimedInput
