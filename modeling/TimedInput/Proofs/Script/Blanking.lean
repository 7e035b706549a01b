import Mathlib.Data.List.Forall2
import TimedInput.Proofs.Text.Splitting
import TimedInput.Script.SourceLine

/-!
# Comments are blanked in place

Taking the comments out of a source moves nothing: spaces stand where they were, and every
line feed stays. So the lines of what is left are the lines of the source, under the same
numbers.
-/

namespace TimedInput

namespace Comment

/-- The second text is the first one with some bytes blanked, but no line feed. -/
def Blanked (s t : Bytes) : Prop :=
  List.Forall₂ (fun b c => c = b ∨ b ≠ newline ∧ c = 32) s t

namespace Blanked

theorem refl (s : Bytes) : Blanked s s :=
  List.forall₂_same.mpr fun _ _ => .inl rfl

theorem append {s t u v : Bytes} (hst : Blanked s t) (huv : Blanked u v) :
    Blanked (s ++ u) (t ++ v) :=
  List.rel_append hst huv

theorem trans {s t u : Bytes} (hst : Blanked s t) (htu : Blanked t u) : Blanked s u := by
  induction hst generalizing u with
  | nil =>
    cases htu
    exact .nil
  | cons hbc _ ih =>
    cases htu with
    | cons hcd hrest =>
      refine .cons ?_ (ih hrest)
      rcases hcd with rfl | ⟨hc, rfl⟩
      · exact hbc
      · rcases hbc with rfl | ⟨hb, rfl⟩
        · exact .inr ⟨hc, rfl⟩
        · exact .inr ⟨hb, rfl⟩

theorem newline_iff {b c : UInt8} (h : c = b ∨ b ≠ newline ∧ c = 32) :
    b = newline ↔ c = newline := by
  rcases h with rfl | ⟨hb, rfl⟩
  · exact Iff.rfl
  · exact iff_of_false hb (by decide)

theorem not_mem_newline {s t : Bytes} (h : Blanked s t) (hs : newline ∉ s) : newline ∉ t := by
  induction h with
  | nil => exact List.not_mem_nil
  | cons hbc _ ih =>
    rw [List.mem_cons, not_or] at hs ⊢
    exact ⟨fun hc => hs.1 ((newline_iff hbc).mpr hc.symm).symm, ih hs.2⟩

theorem splitOn {s t : Bytes} (h : Blanked s t) :
    List.Forall₂ Blanked (Bytes.splitOn [newline] s) (Bytes.splitOn [newline] t) :=
  Bytes.forall₂_splitOn (fun _ _ => newline_iff) h

end Blanked

theorem blanked_blank (s : Bytes) : Blanked s (blank s) := by
  apply List.forall₂_map_right_iff.mpr
  apply List.forall₂_same.mpr
  intro b _
  by_cases hb : b = newline
  · exact .inl (by simp [hb])
  · exact .inr ⟨hb, by simp [hb]⟩

theorem blanked_blankBlocks (s : Bytes) : Blanked s (blankBlocks s) := by
  fun_induction blankBlocks s with
  | case1 s hopen => exact .refl s
  | case2 s before inside hopen hclose =>
    have hs := Bytes.breakOn_append hopen
    rw [List.append_assoc] at hs
    have h := (Blanked.refl before).append (blanked_blank (blockOpener ++ inside))
    rwa [hs] at h
  | case3 s before inside hopen body after hclose _ ih =>
    have hs := Bytes.breakOn_append hopen
    rw [← Bytes.breakOn_append hclose] at hs
    have h := ((Blanked.refl before).append
      (blanked_blank (blockOpener ++ body ++ blockCloser))).append ih
    rw [← hs]
    simpa [List.append_assoc] using h

theorem blanked_blankLineComment (line : Bytes) : Blanked line (blankLineComment line) := by
  unfold blankLineComment
  split
  · exact .refl line
  · rename_i before comment hopen
    have hline := Bytes.breakOn_append hopen
    rw [List.append_assoc] at hline
    have h := (Blanked.refl before).append (blanked_blank (lineOpener ++ comment))
    rwa [hline] at h

theorem splitOn_strip (source : Bytes) :
    Bytes.splitOn [newline] (strip source) =
      (Bytes.splitOn [newline] (blankBlocks source)).map blankLineComment := by
  apply Bytes.splitOn_join
  · simpa using Bytes.splitOn_ne_nil
  · intro line hline
    obtain ⟨original, horiginal, rfl⟩ := List.mem_map.mp hline
    exact (blanked_blankLineComment original).not_mem_newline
      (Bytes.not_mem_of_mem_splitOn horiginal)

/-- The source without its comments has the same lines, some of their bytes blanked. -/
theorem blanked_lines (source : Bytes) :
    List.Forall₂ Blanked (Bytes.splitOn [newline] source)
      (Bytes.splitOn [newline] (strip source)) := by
  have hblocks := (blanked_blankBlocks source).splitOn
  rw [splitOn_strip]
  apply List.forall₂_map_right_iff.mpr
  exact hblocks.imp fun _ line h => h.trans (blanked_blankLineComment line)

end Comment

end TimedInput
