import Mathlib.Data.List.Chain
import Mathlib.Data.List.Infix
import Mathlib.Data.List.TakeWhile
import TimedInput.Text.Bytes

/-!
# Splitting and joining

A text whose pieces do not contain the separator is taken apart where it was put together, and
the words of a text are its longest pieces outside a class of bytes.
-/

namespace TimedInput.Bytes

variable {b : UInt8} {s : Bytes}

/-- A pattern is not found in a text exactly if it is no part of it. -/
theorem breakOn_eq_none_iff {pat : Bytes} (hpat : pat ≠ []) :
    breakOn pat s = none ↔ ¬pat <:+: s := by
  induction s with
  | nil => simp [breakOn, hpat]
  | cons c rest ih =>
    rw [breakOn, List.infix_cons_iff]
    by_cases hp : pat.isPrefixOf (c :: rest) = true
    · have hprefix : pat <+: c :: rest := List.isPrefixOf_iff_prefix.mp hp
      simp [hp, hprefix]
    · have hprefix : ¬pat <+: c :: rest := fun h => hp (List.isPrefixOf_iff_prefix.mpr h)
      simp [hp, hprefix, ih]

/-- No occurrence of a pattern begins before the first one does. -/
theorem not_prefix_drop_of_breakOn {pat before after : Bytes}
    (h : breakOn pat s = some (before, after)) {i : Nat} (hi : i < before.length) :
    ¬pat <+: s.drop i := by
  induction s generalizing before i with
  | nil =>
    cases pat with
    | nil =>
      simp only [breakOn, List.isEmpty_nil, if_true, Option.some.injEq, Prod.mk.injEq] at h
      rw [← h.1] at hi
      cases hi
    | cons _ _ => simp [breakOn] at h
  | cons c rest ih =>
    rw [breakOn] at h
    split at h
    · simp only [Option.some.injEq, Prod.mk.injEq] at h
      rw [← h.1] at hi
      cases hi
    · rename_i hprefix
      obtain ⟨⟨front, back⟩, hfront, heq⟩ := Option.map_eq_some_iff.mp h
      simp only [Prod.mk.injEq] at heq
      obtain ⟨rfl, rfl⟩ := heq
      cases i with
      | zero => exact fun hpart => hprefix (List.isPrefixOf_iff_prefix.mpr hpart)
      | succ i => exact ih hfront (Nat.lt_of_succ_lt_succ hi)

/-- A pattern is no part of what stands before its first occurrence. -/
theorem not_infix_of_breakOn {pat before after : Bytes} (hpat : pat ≠ [])
    (h : breakOn pat s = some (before, after)) : ¬pat <:+: before := by
  rintro ⟨front, back, rfl⟩
  have hpos : 0 < pat.length := List.length_pos_iff.mpr hpat
  refine not_prefix_drop_of_breakOn h (i := front.length) (by simp; omega) ?_
  rw [← breakOn_append h]
  exact ⟨back ++ pat ++ after, by simp⟩

theorem breakOn_of_not_mem (h : b ∉ s) : breakOn [b] s = none := by
  apply (breakOn_eq_none_iff (List.cons_ne_nil b [])).mpr
  intro hpart
  exact h (hpart.subset List.mem_cons_self)

theorem breakOn_append_cons (h : b ∉ s) (t : Bytes) : breakOn [b] (s ++ b :: t) = some (s, t) := by
  induction s with
  | nil => simp [breakOn]
  | cons c rest ih =>
    have hc : b ≠ c := List.ne_of_not_mem_cons h
    have hrest : b ∉ rest := List.not_mem_of_not_mem_cons h
    simp [breakOn, hc, ih hrest]

/-- What stands before the first separator is known, and so is what stands behind it. -/
theorem append_cons_inj {s' t t' : Bytes} (hs : b ∉ s) (hs' : b ∉ s')
    (h : s ++ b :: t = s' ++ b :: t') : s = s' ∧ t = t' := by
  have hbreak := congrArg (breakOn [b]) h
  rw [breakOn_append_cons hs, breakOn_append_cons hs'] at hbreak
  cases hbreak
  exact ⟨rfl, rfl⟩

theorem splitOn_of_none {sep : Bytes} (h : breakOn sep s = none) : splitOn sep s = [s] := by
  rw [splitOn]
  split
  · rfl
  · split
    · rfl
    · rename_i hbreak
      rw [h] at hbreak
      cases hbreak

theorem splitOn_of_some {sep before after : Bytes} (hsep : sep ≠ [])
    (h : breakOn sep s = some (before, after)) :
    splitOn sep s = before :: splitOn sep after := by
  rw [splitOn, dif_neg hsep]
  split
  · rename_i hbreak
    rw [h] at hbreak
    cases hbreak
  · rename_i hbreak
    rw [h] at hbreak
    cases hbreak
    rfl

theorem splitOn_of_not_mem (h : b ∉ s) : splitOn [b] s = [s] :=
  splitOn_of_none (breakOn_of_not_mem h)

theorem splitOn_append_cons (h : b ∉ s) (t : Bytes) :
    splitOn [b] (s ++ b :: t) = s :: splitOn [b] t :=
  splitOn_of_some (List.cons_ne_nil b []) (breakOn_append_cons h t)

theorem join_cons_cons (piece next : Bytes) (pieces : List Bytes) :
    join [b] (piece :: next :: pieces) = piece ++ b :: join [b] (next :: pieces) := by
  simp [join, List.intercalate]

theorem join_cons_head (c : UInt8) (piece : Bytes) (pieces : List Bytes) :
    join [b] ((c :: piece) :: pieces) = c :: join [b] (piece :: pieces) := by
  cases pieces with
  | nil => simp [join]
  | cons next pieces => rw [join_cons_cons, join_cons_cons, List.cons_append]

theorem splitOn_join {pieces : List Bytes} (hne : pieces ≠ [])
    (h : ∀ piece ∈ pieces, b ∉ piece) : splitOn [b] (join [b] pieces) = pieces := by
  induction pieces with
  | nil => exact absurd rfl hne
  | cons piece pieces ih =>
    have hpiece := h piece List.mem_cons_self
    cases pieces with
    | nil => simpa [join] using splitOn_of_not_mem hpiece
    | cons next pieces =>
      rw [join_cons_cons, splitOn_append_cons hpiece, ih (List.cons_ne_nil _ _)]
      exact fun other hother => h other (List.mem_cons_of_mem piece hother)

theorem splitOn_flatMap_snoc {pieces : List Bytes} (h : ∀ piece ∈ pieces, b ∉ piece) :
    splitOn [b] (pieces.flatMap (· ++ [b])) = pieces ++ [[]] := by
  induction pieces with
  | nil => exact splitOn_of_not_mem List.not_mem_nil
  | cons piece pieces ih =>
    rw [List.flatMap_cons, List.append_assoc, List.singleton_append,
      splitOn_append_cons (h piece List.mem_cons_self), ih]
    · rfl
    · exact fun other hother => h other (List.mem_cons_of_mem piece hother)

theorem splitOn_cons (c : UInt8) :
    splitOn [b] (c :: s) =
      if c = b then [] :: splitOn [b] s else (splitOn [b] s).modifyHead (c :: ·) := by
  split
  · rename_i h
    subst h
    exact splitOn_append_cons List.not_mem_nil s
  · rename_i h
    by_cases hmem : b ∈ s
    · obtain ⟨u, t, rfl, hu⟩ := List.eq_append_cons_of_mem hmem
      have hcu : b ∉ c :: u := by
        rw [List.mem_cons, not_or]
        exact ⟨Ne.symm h, hu⟩
      rw [splitOn_append_cons hu, ← List.cons_append, splitOn_append_cons hcu]
      rfl
    · have hcs : b ∉ c :: s := by
        rw [List.mem_cons, not_or]
        exact ⟨Ne.symm h, hmem⟩
      rw [splitOn_of_not_mem hmem, splitOn_of_not_mem hcs]
      rfl

theorem exists_splitOn_eq_cons (sep s : Bytes) :
    ∃ piece pieces, splitOn sep s = piece :: pieces := by
  rw [splitOn]
  split
  · exact ⟨s, [], rfl⟩
  · split <;> exact ⟨_, _, rfl⟩

theorem splitOn_ne_nil : splitOn [b] s ≠ [] := by
  obtain ⟨piece, pieces, h⟩ := exists_splitOn_eq_cons [b] s
  exact h ▸ List.cons_ne_nil piece pieces

/-- Nothing is lost between the pieces of a text. -/
theorem join_splitOn {sep : Bytes} : join sep (splitOn sep s) = s := by
  fun_induction splitOn sep s with
  | case1 s => exact List.intercalate_singleton
  | case2 s _ _ => exact List.intercalate_singleton
  | case3 s _ before after h _ ih =>
    obtain ⟨piece, pieces, hafter⟩ := exists_splitOn_eq_cons sep after
    rw [← breakOn_append h]
    conv_rhs => rw [← ih, hafter]
    rw [hafter]
    exact List.intercalate_cons_cons

/-- No piece contains the separator, not even where one occurrence runs into the next. -/
theorem not_infix_of_mem_splitOn {sep piece : Bytes} (hsep : sep ≠ [])
    (h : piece ∈ splitOn sep s) : ¬sep <:+: piece := by
  fun_induction splitOn sep s with
  | case1 s hnil => exact absurd hnil hsep
  | case2 s _ hnone =>
    rw [List.mem_singleton.mp h]
    exact (breakOn_eq_none_iff hsep).mp hnone
  | case3 s _ before after hsome _ ih =>
    rcases List.mem_cons.mp h with rfl | h
    · exact not_infix_of_breakOn hsep hsome
    · exact ih h

theorem not_mem_of_mem_splitOn {piece : Bytes} (h : piece ∈ splitOn [b] s) : b ∉ piece := by
  intro hmem
  have hpart : [b] <:+: piece := (List.singleton_infix_iff b piece).mpr hmem
  exact not_infix_of_mem_splitOn (List.cons_ne_nil b []) h hpart

/-- Texts that agree on where the separator stands are split alike. -/
theorem forall₂_splitOn {R : UInt8 → UInt8 → Prop} (hR : ∀ c d, R c d → (c = b ↔ d = b))
    {t : Bytes} (h : List.Forall₂ R s t) :
    List.Forall₂ (List.Forall₂ R) (splitOn [b] s) (splitOn [b] t) := by
  induction h with
  | nil =>
    rw [splitOn_of_not_mem List.not_mem_nil]
    exact .cons .nil .nil
  | @cons c d s t hcd _ ih =>
    rw [splitOn_cons, splitOn_cons]
    by_cases hc : c = b
    · rw [if_pos hc, if_pos ((hR c d hcd).mp hc)]
      exact .cons .nil ih
    · rw [if_neg hc, if_neg fun hd => hc ((hR c d hcd).mpr hd)]
      generalize splitOn [b] s = pieces, splitOn [b] t = others at ih
      cases ih with
      | nil => exact .nil
      | cons hfirst hrest => exact .cons (.cons hcd hfirst) hrest

/-- The first byte that is not dropped is not of the class. -/
theorem head?_dropWhile {p : UInt8 → Bool} {c : UInt8} (h : c ∈ (s.dropWhile p).head?) :
    p c = false := by
  have hhead := List.head?_dropWhile_not p s
  rw [Option.mem_def.mp h] at hhead
  simpa using hhead

/-- A run of bytes of a class that a byte outside the class, or nothing, follows. -/
theorem span_append {p : UInt8 → Bool} {run : Bytes} (hrun : ∀ c ∈ run, p c = true)
    (hs : ∀ c ∈ s.head?, p c = false) :
    (run ++ s).takeWhile p = run ∧ (run ++ s).dropWhile p = s := by
  rw [List.takeWhile_append_of_pos hrun, List.dropWhile_append_of_pos hrun]
  cases s with
  | nil => simp
  | cons c s => simp [hs c rfl]

theorem dropTail_eq_self {p : UInt8 → Bool} (h : ∀ c ∈ s.getLast?, p c = false) :
    dropTail p s = s := by
  unfold dropTail
  cases hrev : s.reverse with
  | nil => simpa using hrev.symm
  | cons c rest =>
    have hc : p c = false := by
      apply h
      rw [← List.head?_reverse, hrev]
      rfl
    rw [List.dropWhile_cons_of_neg (by simp [hc]), ← hrev, List.reverse_reverse]

/-- Nothing is trimmed from a text that has no blanks at its ends. -/
theorem trim_eq_self (hhead : ∀ c ∈ s.head?, isBlank c = false)
    (hlast : ∀ c ∈ s.getLast?, isBlank c = false) : s.trim = s := by
  have hdrop : s.dropWhile isBlank = s := by
    cases s with
    | nil => rfl
    | cons c rest => exact List.dropWhile_cons_of_neg (by simp [hhead c rfl])
  rw [trim, hdrop, dropTail_eq_self hlast]

theorem trim_eq_nil_iff : s.trim = [] ↔ ∀ c ∈ s, isBlank c = true := by
  constructor
  · intro h
    rw [trim, dropTail, List.reverse_eq_nil_iff, List.dropWhile_eq_nil_iff] at h
    have hdrop : s.dropWhile isBlank = [] := by
      cases hs : s.dropWhile isBlank with
      | nil => rfl
      | cons c rest =>
        have hblank := h c (by simp [hs])
        have hhead : isBlank c = false := head?_dropWhile (s := s) (by simp [hs])
        rw [hblank] at hhead
        cases hhead
    exact List.dropWhile_eq_nil_iff.mp hdrop
  · intro h
    rw [trim, List.dropWhile_eq_nil_iff.mpr h]
    rfl

section Words

variable {p : UInt8 → Bool}

theorem wordsBy_nil : wordsBy p [] = [] := by
  rw [wordsBy]
  rfl

theorem wordsBy_cons (hb : p b = true) : wordsBy p (b :: s) = wordsBy p s := by
  have hdrop : (b :: s).dropWhile p = s.dropWhile p := List.dropWhile_cons_of_pos hb
  rw [wordsBy, wordsBy]
  split <;> split <;> simp_all

theorem wordsBy_append {word : Bytes} (hne : word ≠ []) (hword : ∀ c ∈ word, p c = false)
    (hs : ∀ c ∈ s.head?, p c = true) : wordsBy p (word ++ s) = word :: wordsBy p s := by
  cases word with
  | nil => exact absurd rfl hne
  | cons c rest =>
    have hc : p c = false := hword c List.mem_cons_self
    have hrest : ∀ d ∈ rest, (!p d) = true := by
      intro d hd
      simp [hword d (List.mem_cons_of_mem c hd)]
    have hs' : ∀ d ∈ s.head?, (!p d) = false := by
      intro d hd
      simp [hs d hd]
    obtain ⟨htake, hdrop⟩ := span_append hrest hs'
    rw [wordsBy]
    split
    · rename_i h
      simp [hc] at h
    · rename_i d tail h
      simp only [List.cons_append, List.dropWhile_cons, hc, Bool.false_eq_true, if_false,
        List.cons.injEq] at h
      obtain ⟨rfl, rfl⟩ := h
      simp only [htake, hdrop]

/-- Words that are each put behind a separator are found again. -/
theorem wordsBy_flatMap_cons {words : List Bytes} (hb : p b = true)
    (h : ∀ word ∈ words, word ≠ [] ∧ ∀ c ∈ word, p c = false) :
    wordsBy p (words.flatMap (b :: ·)) = words := by
  induction words with
  | nil => exact wordsBy_nil
  | cons word words ih =>
    obtain ⟨hne, hword⟩ := h word List.mem_cons_self
    have hhead : ∀ c ∈ (words.flatMap (b :: ·)).head?, p c = true := by
      intro c hc
      cases words with
      | nil => cases hc
      | cons next words =>
        obtain rfl : b = c := by simpa using hc
        exact hb
    rw [List.flatMap_cons, List.cons_append, wordsBy_cons hb, wordsBy_append hne hword hhead, ih]
    exact fun other hother => h other (List.mem_cons_of_mem word hother)

/-- The longest pieces outside a class of bytes, with bytes of the class between them. -/
inductive Words (p : UInt8 → Bool) : Bytes → List Bytes → Prop where
  | nil {gap : Bytes} (hgap : ∀ c ∈ gap, p c = true) : Words p gap []
  | cons {gap word rest : Bytes} {words : List Bytes} (hgap : ∀ c ∈ gap, p c = true)
    (hne : word ≠ []) (hword : ∀ c ∈ word, p c = false) (hrest : ∀ c ∈ rest.head?, p c = true)
    (h : Words p rest words) : Words p (gap ++ (word ++ rest)) (word :: words)

theorem wordsBy_append_of_blank {gap : Bytes} (h : ∀ c ∈ gap, p c = true) :
    wordsBy p (gap ++ s) = wordsBy p s := by
  induction gap with
  | nil => rfl
  | cons c gap ih =>
    rw [List.cons_append, wordsBy_cons (h c List.mem_cons_self)]
    exact ih fun d hd => h d (List.mem_cons_of_mem c hd)

theorem words_wordsBy (s : Bytes) : Words p s (wordsBy p s) := by
  fun_induction wordsBy p s with
  | case1 s h => exact .nil (List.dropWhile_eq_nil_iff.mp h)
  | case2 s b rest h _ ih =>
    have hgap : ∀ c ∈ s.takeWhile p, p c = true := fun c hc => List.mem_takeWhile_imp hc
    have hb : p b = false := head?_dropWhile (s := s) (by simp [h])
    have hword : ∀ c ∈ b :: rest.takeWhile (!p ·), p c = false := by
      intro c hc
      rcases List.mem_cons.mp hc with rfl | hc
      · exact hb
      · simpa using List.mem_takeWhile_imp hc
    have hrest : ∀ c ∈ (rest.dropWhile (!p ·)).head?, p c = true := by
      intro c hc
      simpa using head?_dropWhile hc
    have hs : s.takeWhile p ++
        ((b :: rest.takeWhile (!p ·)) ++ rest.dropWhile (!p ·)) = s := by
      rw [List.cons_append, List.takeWhile_append_dropWhile, ← h, List.takeWhile_append_dropWhile]
    have hwords := Words.cons hgap (List.cons_ne_nil _ _) hword hrest ih
    rwa [hs] at hwords

theorem wordsBy_eq_iff {words : List Bytes} : wordsBy p s = words ↔ Words p s words := by
  constructor
  · rintro rfl
    exact words_wordsBy s
  · intro h
    induction h with
    | @nil gap hgap =>
      rw [← List.append_nil gap, wordsBy_append_of_blank hgap, wordsBy_nil]
    | cons hgap hne hword hrest _ ih =>
      rw [wordsBy_append_of_blank hgap, wordsBy_append hne hword hrest, ih]

end Words

end TimedInput.Bytes
