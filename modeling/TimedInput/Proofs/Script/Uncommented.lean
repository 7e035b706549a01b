import TimedInput.Proofs.Script.Blanking
import TimedInput.Proofs.Script.Comments

/-!
# Nothing is left of comments

In a source whose comments were blanked no comment begins. Spaces and line feeds belong to no
opener, so none is put together from what stands before a comment and what stands after it. So
blanking a second time changes nothing.
-/

namespace TimedInput

namespace Bytes

variable {b c d : UInt8} {pat s t : Bytes}

/-- Where the first occurrence of a pattern stands does not depend on what comes after it. -/
theorem breakOn_append_append (hpat : pat ≠ []) {before after : Bytes}
    (h : breakOn pat s = some (before, after)) (rest : Bytes) :
    breakOn pat (before ++ pat ++ rest) = some (before, rest) := by
  induction s generalizing before with
  | nil => simp [breakOn, hpat] at h
  | cons c s ih =>
    rw [breakOn] at h
    split at h
    · simp only [Option.some.injEq, Prod.mk.injEq] at h
      obtain ⟨rfl, -⟩ := h
      obtain ⟨p, ps, rfl⟩ := List.exists_cons_of_ne_nil hpat
      simp [breakOn]
    · rename_i hprefix
      obtain ⟨⟨front, back⟩, hfront, heq⟩ := Option.map_eq_some_iff.mp h
      simp only [Prod.mk.injEq] at heq
      obtain ⟨rfl, rfl⟩ := heq
      have hnot : ¬pat.isPrefixOf (c :: (front ++ pat ++ rest)) = true := by
        intro hpart
        have hstart : pat <+: c :: (front ++ pat) :=
          List.prefix_of_prefix_length_le (List.isPrefixOf_iff_prefix.mp hpart) ⟨rest, rfl⟩
            (by simp; omega)
        have hwhole : c :: (front ++ pat) <+: c :: s := ⟨back, by simp [← breakOn_append hfront]⟩
        exact hprefix (List.isPrefixOf_iff_prefix.mpr (hstart.trans hwhole))
      rw [List.cons_append, List.cons_append, breakOn, if_neg hnot, ih hfront]
      rfl

theorem pair_not_infix_nil : ¬[b, c] <:+: [] := fun h =>
  List.cons_ne_nil b [c] (List.infix_nil.mp h)

/-- A byte that is no part of a pair parts the texts in which the pair is looked for. -/
theorem pair_infix_append_cons (hb : b ≠ d) (hc : c ≠ d) :
    [b, c] <:+: s ++ d :: t ↔ [b, c] <:+: s ∨ [b, c] <:+: t := by
  induction s with
  | nil => simp [List.infix_cons_iff, hb]
  | cons x s ih =>
    rw [List.cons_append, List.infix_cons_iff, ih, List.infix_cons_iff, or_assoc]
    cases s with
    | nil => simp [hc]
    | cons y s => simp

theorem infix_join_of_mem {piece : Bytes} {pieces : List Bytes} (h : piece ∈ pieces) :
    piece <:+: join [b] pieces := by
  induction pieces with
  | nil => cases h
  | cons first pieces ih =>
    cases pieces with
    | nil =>
      rw [List.mem_singleton.mp h]
      simp [join]
    | cons next pieces =>
      rw [join_cons_cons]
      rcases List.mem_cons.mp h with rfl | h
      · exact List.infix_append [] _ _
      · exact (List.infix_cons (ih h)).trans (List.suffix_append first _).isInfix

end Bytes

namespace Comment

section Openers

variable {b c : UInt8} (hb : b ≠ 32 ∧ b ≠ newline) (hc : c ≠ 32 ∧ c ≠ newline)
include hb hc

/-- Blanked bytes part the texts in which an opener is looked for. -/
theorem not_infix_append_blank_append {s t comment : Bytes} (hne : comment ≠ [])
    (hs : ¬[b, c] <:+: s) (ht : ¬[b, c] <:+: t) : ¬[b, c] <:+: s ++ blank comment ++ t := by
  induction comment generalizing s with
  | nil => exact absurd rfl hne
  | cons d comment ih =>
    let e := if d = newline then newline else 32
    have hbe : b ≠ e := by
      simp only [e]
      split
      · exact hb.2
      · exact hb.1
    have hce : c ≠ e := by
      simp only [e]
      split
      · exact hc.2
      · exact hc.1
    have hblank : s ++ blank (d :: comment) ++ t = s ++ e :: (blank comment ++ t) := by
      simp [blank, e]
    rw [hblank, Bytes.pair_infix_append_cons hbe hce, not_or]
    refine ⟨hs, ?_⟩
    cases comment with
    | nil => exact ht
    | cons next comment =>
      exact ih (s := []) (List.cons_ne_nil _ _) Bytes.pair_not_infix_nil

end Openers

theorem not_infix_blankBlocks (s : Bytes) : ¬blockOpener <:+: blankBlocks s := by
  have hopener : blockOpener ≠ [] := by decide
  fun_induction blankBlocks s with
  | case1 s hnone => exact (Bytes.breakOn_eq_none_iff hopener).mp hnone
  | case2 s before inside hopen hclose =>
    have hbefore := Bytes.not_infix_of_breakOn hopener hopen
    rw [← List.append_nil (before ++ _)]
    exact not_infix_append_blank_append (by decide) (by decide) (List.cons_ne_nil _ _) hbefore
      Bytes.pair_not_infix_nil
  | case3 s before inside hopen body after hclose hlt ih =>
    have hbefore := Bytes.not_infix_of_breakOn hopener hopen
    exact not_infix_append_blank_append (by decide) (by decide) (List.cons_ne_nil _ _) hbefore ih

theorem unopened_blankLineComment {line : Bytes} (h : ¬blockOpener <:+: line) :
    Unopened (blankLineComment line) := by
  have hopener : lineOpener ≠ [] := by decide
  rw [blankLineComment]
  split
  · rename_i hnone
    exact .of_no_opener ((Bytes.breakOn_eq_none_iff hopener).mp hnone) h
  · rename_i before comment hopen
    have hline := Bytes.not_infix_of_breakOn hopener hopen
    have hblock : ¬blockOpener <:+: before := by
      intro hpart
      apply h
      rw [← Bytes.breakOn_append hopen, List.append_assoc]
      exact hpart.trans (List.prefix_append before _).isInfix
    rw [← List.append_nil (before ++ _)]
    refine .of_no_opener ?_ ?_
    · exact not_infix_append_blank_append (by decide) (by decide) (List.cons_ne_nil _ _) hline
        Bytes.pair_not_infix_nil
    · exact not_infix_append_blank_append (by decide) (by decide) (List.cons_ne_nil _ _) hblock
        Bytes.pair_not_infix_nil

variable (source : Bytes)

theorem unopened_of_mem_strip {line : Bytes}
    (h : line ∈ Bytes.splitOn [newline] (strip source)) : Unopened line := by
  rw [splitOn_strip] at h
  obtain ⟨original, horiginal, rfl⟩ := List.mem_map.mp h
  apply unopened_blankLineComment
  intro hpart
  have hblocks := Bytes.infix_join_of_mem (b := newline) horiginal
  rw [Bytes.join_splitOn] at hblocks
  exact not_infix_blankBlocks source (hpart.trans hblocks)

theorem unopened_strip : Unopened (strip source) := by
  have hjoin := unopened_join fun _ hline => unopened_of_mem_strip source hline
  rwa [Bytes.join_splitOn] at hjoin

theorem strip_strip : strip (strip source) = strip source := by
  have hlines : ∀ line ∈ Bytes.splitOn [newline] (strip source), newline ∉ line ∧ Unopened line :=
    fun line hline => ⟨Bytes.not_mem_of_mem_splitOn hline, unopened_of_mem_strip source hline⟩
  have hstrip := strip_join Bytes.splitOn_ne_nil hlines
  rwa [Bytes.join_splitOn] at hstrip

end Comment

end TimedInput
