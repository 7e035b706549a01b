import TimedInput.Proofs.Script.Isolation
import TimedInput.Proofs.Text.Trimming

/-!
# Lines keep their places

A line is known by what stands above it, not by how a text is split. What a source says on a line is
found again on the same line of the source without its comments, as far from the start as before,
so whatever is said of a line is said of the line under this number in the source.
-/

namespace TimedInput

namespace Bytes

/-- The line with the given number, counted from 1, between what stands above it and below it. -/
structure LineAt (s : Bytes) (number : Nat) (above line below : Bytes) : Prop where
  eq : s = above ++ line ++ below
  number_eq : number = above.count Comment.newline + 1
  unbroken : Comment.newline ∉ line
  begins : ∀ b ∈ above.getLast?, b = Comment.newline
  ends : ∀ b ∈ below.head?, b = Comment.newline

section Lines

variable {s u t above line below : Bytes} {k : Nat}

theorem lineAt_of_not_mem (h : Comment.newline ∉ s) : LineAt s 1 [] s [] :=
  ⟨by simp, rfl, h, nofun, nofun⟩

theorem lineAt_first (h : Comment.newline ∉ u) :
    LineAt (u ++ Comment.newline :: t) 1 [] u (Comment.newline :: t) :=
  ⟨rfl, rfl, h, nofun, by simp⟩

/-- A line in front moves all lines one number down. -/
theorem LineAt.below_line (h : LineAt t k above line below) (hu : Comment.newline ∉ u) :
    LineAt (u ++ Comment.newline :: t) (k + 1) (u ++ Comment.newline :: above) line below := by
  refine ⟨by simp [h.eq], ?_, h.unbroken, ?_, h.ends⟩
  · rw [h.number_eq, List.count_append, List.count_eq_zero.mpr hu, List.count_cons_self]
    omega
  · intro b hb
    rw [List.getLast?_append_cons, List.getLast?_cons] at hb
    cases hlast : above.getLast? with
    | none => simpa [hlast, eq_comm] using hb
    | some c =>
      obtain rfl : c = b := by simpa [hlast] using hb
      exact h.begins c hlast

theorem exists_lineAt_of_getElem? (h : (splitOn [Comment.newline] s)[k]? = some line) :
    ∃ above below, LineAt s (k + 1) above line below := by
  induction k generalizing s with
  | zero =>
    by_cases hmem : Comment.newline ∈ s
    · obtain ⟨u, t, rfl, hu⟩ := List.eq_append_cons_of_mem hmem
      rw [splitOn_append_cons hu] at h
      obtain rfl : u = line := by simpa using h
      exact ⟨[], _, lineAt_first hu⟩
    · rw [splitOn_of_not_mem hmem] at h
      obtain rfl : s = line := by simpa using h
      exact ⟨[], [], lineAt_of_not_mem hmem⟩
  | succ k ih =>
    by_cases hmem : Comment.newline ∈ s
    · obtain ⟨u, t, rfl, hu⟩ := List.eq_append_cons_of_mem hmem
      rw [splitOn_append_cons hu, List.getElem?_cons_succ] at h
      obtain ⟨above, below, hline⟩ := ih h
      exact ⟨_, below, hline.below_line hu⟩
    · simp [splitOn_of_not_mem hmem] at h

theorem LineAt.getElem?_splitOn {number : Nat} (h : LineAt s number above line below) :
    (splitOn [Comment.newline] s)[number - 1]? = some line := by
  obtain ⟨rfl, rfl, hline, hbegins, hends⟩ := h
  rw [Nat.add_sub_cancel]
  induction hcount : above.count Comment.newline generalizing above with
  | zero =>
    -- what stands above a line ends with a line feed, if there is anything
    have habove : above = [] := by
      by_contra hne
      have hlast := hbegins _ (List.getLast?_eq_some_getLast hne)
      have hmem := List.getLast_mem hne
      rw [hlast] at hmem
      exact List.count_eq_zero.mp hcount hmem
    rw [habove, List.nil_append]
    cases below with
    | nil => simp [splitOn_of_not_mem hline]
    | cons b below =>
      obtain rfl := hends b rfl
      simp [splitOn_append_cons hline]
  | succ k ih =>
    have hmem : Comment.newline ∈ above := by
      rw [← List.count_pos_iff]
      omega
    obtain ⟨u, rest, rfl, hu⟩ := List.eq_append_cons_of_mem hmem
    rw [List.count_append, List.count_eq_zero.mpr hu, List.count_cons_self, Nat.zero_add] at hcount
    rw [List.append_assoc, List.append_assoc, List.cons_append, splitOn_append_cons hu,
      List.getElem?_cons_succ, ← List.append_assoc]
    apply ih _ (Nat.succ.inj hcount)
    intro b hb
    apply hbegins
    rw [List.getLast?_append_cons, List.getLast?_cons, Option.mem_def.mp hb]
    rfl

end Lines

end Bytes

namespace Comment

namespace Blanked

variable {s t : Bytes}

theorem count_newline (h : Blanked s t) : s.count newline = t.count newline := by
  induction h with
  | nil => rfl
  | @cons b c s t hbc _ ih =>
    have hiff : (b == newline) = (c == newline) := by
      rw [Bool.eq_iff_iff, beq_iff_eq, beq_iff_eq]
      exact newline_iff hbc
    rw [List.count_cons, List.count_cons, ih, hiff]

theorem getElem? (h : Blanked s t) {i : Nat} {b c : UInt8} (hb : s[i]? = some b)
    (hc : t[i]? = some c) : c = b ∨ b ≠ newline ∧ c = 32 := by
  obtain ⟨hs, rfl⟩ := List.getElem?_eq_some_iff.mp hb
  obtain ⟨ht, rfl⟩ := List.getElem?_eq_some_iff.mp hc
  exact List.Forall₂.get h hs ht

theorem exists_of_append {left right : Bytes} (h : Blanked s (left ++ right)) :
    ∃ left' right', s = left' ++ right' ∧ Blanked left' left ∧ Blanked right' right :=
  ⟨_, _, (List.take_append_drop left.length s).symm, List.forall₂_take_append s left right h,
    List.forall₂_drop_append s left right h⟩

theorem head?_newline (h : Blanked s t) (ht : ∀ c ∈ t.head?, c = newline) :
    ∀ b ∈ s.head?, b = newline := by
  cases h with
  | nil => exact nofun
  | cons hbc _ =>
    simp only [List.head?_cons, Option.mem_some_iff, forall_eq'] at ht ⊢
    exact (newline_iff hbc).mpr ht

theorem join {lines others : List Bytes} (h : List.Forall₂ Blanked lines others) :
    Blanked (Bytes.join [newline] lines) (Bytes.join [newline] others) := by
  induction h with
  | nil => exact .refl _
  | cons hline hrest ih =>
    cases hrest with
    | nil => simpa [Bytes.join] using hline
    | cons hnext hrest =>
      rw [Bytes.join_cons_cons, Bytes.join_cons_cons]
      exact hline.append (.cons (.inl rfl) ih)

/-- A line of the blanked text is the line with the same number, and begins where that begins. -/
theorem exists_lineAt (h : Blanked s t) {number : Nat} {above line below : Bytes}
    (hline : Bytes.LineAt t number above line below) :
    ∃ above' line' below', Bytes.LineAt s number above' line' below' ∧
      above'.length = above.length ∧ Blanked line' line := by
  obtain ⟨rfl, rfl, hunbroken, hbegins, hends⟩ := hline
  obtain ⟨front, below', rfl, hfront, hbelow⟩ := h.exists_of_append
  obtain ⟨above', line', rfl, habove, hline⟩ := hfront.exists_of_append
  refine ⟨above', line', below', ⟨rfl, ?_, ?_, ?_, ?_⟩, habove.length_eq, hline⟩
  · rw [habove.count_newline]
  · intro hmem
    rw [← List.count_pos_iff, hline.count_newline, List.count_pos_iff] at hmem
    exact hunbroken hmem
  · rw [← List.head?_reverse] at hbegins ⊢
    exact head?_newline (List.rel_reverse habove) hbegins
  · exact hbelow.head?_newline hends

end Blanked

theorem blanked_strip (source : Bytes) : Blanked source (strip source) := by
  have hlines := Blanked.join (blanked_lines source)
  rwa [Bytes.join_splitOn, Bytes.join_splitOn] at hlines

/-- What a source has before and inside its block comment without an end. All comments before it
end. -/
structure Endless (source before inside : Bytes) : Prop where
  eq : source = before ++ blockOpener ++ inside
  unclosed : ¬blockCloser <:+: inside
  first : beforeUnterminated? before = none

theorem beforeUnterminated?_of_closed {s before inside body after : Bytes}
    (hopen : Bytes.breakOn blockOpener s = some (before, inside))
    (hclose : Bytes.breakOn blockCloser inside = some (body, after))
    (h : beforeUnterminated? after = none) : beforeUnterminated? s = none := by
  rw [beforeUnterminated?]
  split
  · rfl
  · rename_i front rest heq
    obtain ⟨rfl, rfl⟩ : before = front ∧ inside = rest := by simpa [hopen] using heq
    split <;> simp_all

theorem endless_of_beforeUnterminated? {source before : Bytes}
    (h : beforeUnterminated? source = some before) : ∃ inside, Endless source before inside := by
  have hopener : blockOpener ≠ [] := by decide
  have hcloser : blockCloser ≠ [] := by decide
  fun_induction beforeUnterminated? source generalizing before with
  | case1 => cases h
  | case2 source front inside hopen hclose =>
    obtain rfl := Option.some.inj h
    have hnone := (Bytes.breakOn_eq_none_iff hopener).mpr (Bytes.not_infix_of_breakOn hopener hopen)
    exact ⟨inside, (Bytes.breakOn_append hopen).symm,
      (Bytes.breakOn_eq_none_iff hcloser).mp hclose, beforeUnterminated?_of_unopened hnone⟩
  | case3 source front rest hopen body after hclose _ ih =>
    obtain ⟨between, hbetween, rfl⟩ := Option.map_eq_some_iff.mp h
    obtain ⟨inside, heq, hunclosed, hfirst⟩ := ih hbetween
    refine ⟨inside, ?_, hunclosed, ?_⟩
    · rw [← Bytes.breakOn_append hopen, ← Bytes.breakOn_append hclose, heq]
      simp
    · have hfront := Bytes.breakOn_append_append hopener hopen (body ++ blockCloser ++ between)
      have hbody := Bytes.breakOn_append_append hcloser hclose between
      simp only [← List.append_assoc] at hfront
      exact beforeUnterminated?_of_closed hfront hbody hfirst

end Comment

namespace SourceLine

theorem pairwise_numbered (first : Nat) (lines : List Bytes) :
    (numbered first lines).Pairwise (·.number < ·.number) := by
  induction lines generalizing first with
  | nil => exact .nil
  | cons line lines ih =>
    by_cases h : line.trim = []
    · rw [numbered_cons_of_blank first h]
      exact ih (first + 1)
    · rw [numbered_cons_of_filled first h]
      exact .cons (fun _ hother => le_number hother) (ih (first + 1))

theorem mem_numbered_iff {lines : List Bytes} {number : Nat} {text : Bytes} :
    ⟨number, text⟩ ∈ numbered 1 lines ↔
      text ≠ [] ∧ 1 ≤ number ∧ ∃ line, lines[number - 1]? = some line ∧ text = line.trim := by
  rw [numbered, List.mem_filterMap]
  constructor
  · rintro ⟨⟨line, index⟩, hmem, heq⟩
    obtain ⟨hle, hline⟩ := List.mem_zipIdx_iff_le_and_getElem?_sub.mp hmem
    by_cases hblank : line.trim = []
    · simp [hblank] at heq
    · simp only [hblank, if_false, Option.some.injEq, SourceLine.mk.injEq] at heq
      obtain ⟨rfl, rfl⟩ := heq
      exact ⟨hblank, hle, line, hline, rfl⟩
  · rintro ⟨hfilled, hle, line, hline, rfl⟩
    refine ⟨(line, number), List.mem_zipIdx_iff_le_and_getElem?_sub.mpr ⟨hle, hline⟩, ?_⟩
    simp [hfilled]

/-- The lines that are read are those of the text that are not blank, without the blanks at their
ends. -/
theorem mem_ofStripped_iff {stripped : Bytes} {number : Nat} {text : Bytes} :
    ⟨number, text⟩ ∈ ofStripped stripped ↔
      text ≠ [] ∧ ∃ above line below left right,
        Bytes.LineAt stripped number above line below ∧ Bytes.Trimmed line left text right := by
  rw [ofStripped_eq_numbered, mem_numbered_iff]
  apply and_congr_right
  intro _
  constructor
  · rintro ⟨hle, line, hline, rfl⟩
    obtain ⟨above, below, hat⟩ := Bytes.exists_lineAt_of_getElem? hline
    rw [Nat.sub_add_cancel hle] at hat
    obtain ⟨left, right, htrimmed⟩ := Bytes.exists_trimmed line
    exact ⟨above, line, below, left, right, hat, htrimmed⟩
  · rintro ⟨above, line, below, left, right, hat, htrimmed⟩
    have hle : 1 ≤ number := hat.number_eq ▸ Nat.le_add_left 1 _
    exact ⟨hle, line, hat.getElem?_splitOn, htrimmed.eq_trim⟩

end SourceLine

theorem LineReading.exists_ofLine_of_mem {platform : Platform} {base : UInt64}
    {lines : List SourceLine} {reading : LineReading} (h : reading ∈ ofLines platform base lines) :
    ∃ above line below, lines = above ++ line :: below ∧
      reading = ofLine platform (baseAfter platform base above) line := by
  induction lines generalizing base with
  | nil => cases h
  | cons line lines ih =>
    rcases List.mem_cons.mp h with rfl | h
    · exact ⟨[], line, lines, rfl, rfl⟩
    · obtain ⟨above, other, below, rfl, rfl⟩ := ih h
      exact ⟨line :: above, other, below, rfl, rfl⟩

namespace Script

/-- Blanking the comments of a source keeps its length and its line feeds, changes other bytes into
spaces only, and leaves nothing in which a comment begins, so doing it again changes nothing and
gives no warning. The lines that are read then are exactly those that are not blank, trimmed, from
the top down. Each is found in the source on the line with its number, at the same distance from
the start, unless comments were there. So an error of a script has the number of the line of the
source that it is about, and a warning that of the line where the comment without an end begins. -/
theorem lines_keep_their_places (platform : Platform) (source : Bytes) :
    let stripped := Comment.strip source
    let lines := SourceLine.ofSource source
    let script := compile platform source
    (stripped.length = source.length ∧
      ∀ (i : Nat) (b c : UInt8), source[i]? = some b → stripped[i]? = some c →
        (b = Comment.newline ↔ c = Comment.newline) ∧ (c = b ∨ c = 32)) ∧
    (¬Comment.blockOpener <:+: stripped ∧ ¬Comment.lineOpener <:+: stripped ∧
      Comment.strip stripped = stripped ∧ warningsOf stripped = []) ∧
    lines.Pairwise (·.number < ·.number) ∧
    (∀ (number : Nat) (text : Bytes), ⟨number, text⟩ ∈ lines ↔
      text ≠ [] ∧ ∃ above line below left right,
        Bytes.LineAt stripped number above line below ∧ Bytes.Trimmed line left text right) ∧
    (∀ line ∈ lines, ∃ above original below above' left right below',
      Bytes.LineAt source line.number above original below ∧
      Bytes.LineAt stripped line.number above' (left ++ line.text ++ right) below' ∧
      above'.length = above.length ∧ Comment.Blanked original (left ++ line.text ++ right)) ∧
    (∀ d ∈ script.errors, ∃ before line after, lines = before ++ line :: after ∧
      let reading := LineReading.ofLine platform (LineReading.baseAfter platform 0 before) line
      d ∈ reading.errors ∧ d.line = line.number) ∧
    ∀ d ∈ script.warnings, d.cause = .unterminatedComment ∧ ∃ before inside,
      Comment.Endless source before inside ∧ d.line = (before.count Comment.newline + 1 : Nat) := by
  intro stripped lines script
  have hblanked : Comment.Blanked source stripped := Comment.blanked_strip source
  have hunopened : Unopened stripped := Comment.unopened_strip source
  have hlines : ∀ number text, ⟨number, text⟩ ∈ lines ↔
      text ≠ [] ∧ ∃ above line below left right,
        Bytes.LineAt stripped number above line below ∧ Bytes.Trimmed line left text right :=
    fun _ _ => SourceLine.mem_ofStripped_iff
  refine ⟨⟨hblanked.length_eq.symm, ?_⟩, ⟨?_, ?_, Comment.strip_strip source, ?_⟩, ?_, hlines, ?_,
    ?_, ?_⟩
  · intro i b c hb hc
    have hbc := hblanked.getElem? hb hc
    exact ⟨Comment.Blanked.newline_iff hbc, hbc.imp_right And.right⟩
  · exact hunopened.not_infix (.inr rfl)
  · exact hunopened.not_infix (.inl rfl)
  · rw [warningsOf, Comment.unterminatedLine?_eq_none hunopened]
    rfl
  · exact SourceLine.pairwise_numbered 1 _
  · intro line hline
    obtain ⟨-, above', whole, below', left, right, hat', htrimmed⟩ :=
      (hlines line.number line.text).mp hline
    obtain ⟨above, original, below, hat, hlength, hwhole⟩ := hblanked.exists_lineAt hat'
    rw [htrimmed.eq] at hat' hwhole
    exact ⟨above, original, below, above', left, right, below', hat, hat', hlength.symm, hwhole⟩
  · intro d hd
    obtain ⟨reading, hreading, hd⟩ := List.mem_flatMap.mp hd
    obtain ⟨before, line, after, heq, rfl⟩ := LineReading.exists_ofLine_of_mem hreading
    let base := LineReading.baseAfter platform 0 before
    have hreport := LineReading.report_ofLine platform base line
    exact ⟨before, line, after, heq, hd, hreport.line_of_mem_errors d hd⟩
  · intro d hd
    obtain ⟨number, hnumber, rfl⟩ := List.mem_map.mp hd
    obtain ⟨before, hbefore, rfl⟩ := Option.map_eq_some_iff.mp (Option.mem_toList.mp hnumber)
    obtain ⟨inside, hendless⟩ := Comment.endless_of_beforeUnterminated? hbefore
    exact ⟨rfl, before, inside, hendless, by rw [Nat.add_comm]⟩

end Script

end TimedInput
