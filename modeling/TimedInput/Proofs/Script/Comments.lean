import TimedInput.Proofs.Text.Splitting
import TimedInput.Script.SourceLine

/-!
# Texts without comments

A text in which no comment begins is left as it is, and is read line by line. Whether a
comment begins is decided by neighbouring bytes, so pieces without comments that are put
together with something else than slashes and stars make a text without comments.
-/

namespace TimedInput

/-- No slash is followed by a slash or a star. -/
def Unopened (s : Bytes) : Prop :=
  s.IsChain fun a b => a = 47 → b ≠ 47 ∧ b ≠ 42

namespace Unopened

variable {s t : Bytes}

theorem of_not_mem (h : 47 ∉ s) : Unopened s := by
  induction s with
  | nil => exact .nil
  | cons b s ih =>
    cases s with
    | nil => exact .singleton b
    | cons c s =>
      refine .cons_cons ?_ (ih (List.not_mem_of_not_mem_cons h))
      rintro rfl
      exact absurd List.mem_cons_self h

theorem of_no_opener (hline : ¬ascii "//" <:+: s) (hblock : ¬ascii "/*" <:+: s) : Unopened s := by
  induction s with
  | nil => exact .nil
  | cons b s ih =>
    rw [List.infix_cons_iff, not_or] at hline hblock
    cases s with
    | nil => exact .singleton b
    | cons c s =>
      refine .cons_cons ?_ (ih hline.2 hblock.2)
      rintro rfl
      refine ⟨?_, ?_⟩
      · rintro rfl
        exact hline.1 ⟨s, rfl⟩
      · rintro rfl
        exact hblock.1 ⟨s, rfl⟩

theorem append (hs : Unopened s) (ht : Unopened t) (hlast : s.getLast? ≠ some 47) :
    Unopened (s ++ t) := by
  refine List.isChain_append.mpr ⟨hs, ht, ?_⟩
  rintro a ha b - rfl
  exact absurd ha hlast

/-- A byte that belongs to no comment opener parts two texts. -/
theorem append_cons (hs : Unopened s) (ht : Unopened t) {b : UInt8} (hslash : b ≠ 47)
    (hstar : b ≠ 42) : Unopened (s ++ b :: t) := by
  refine List.isChain_append.mpr ⟨hs, ?_, ?_⟩
  · cases t with
    | nil => exact .singleton b
    | cons c t => exact .cons_cons (fun h => absurd h hslash) ht
  · intro a ha c hc _
    obtain rfl : b = c := by simpa using hc
    exact ⟨hslash, hstar⟩

theorem not_infix (h : Unopened s) {b : UInt8} (hb : b = 47 ∨ b = 42) : ¬[47, b] <:+: s := by
  intro hpart
  have hopener : Unopened [47, b] := h.infix hpart
  obtain ⟨hslash, hstar⟩ := (List.isChain_pair.mp hopener) rfl
  rcases hb with hb | hb
  · exact hslash hb
  · exact hstar hb

theorem breakOn_eq_none (h : Unopened s) {b : UInt8} (hb : b = 47 ∨ b = 42) :
    Bytes.breakOn [47, b] s = none :=
  (Bytes.breakOn_eq_none_iff (List.cons_ne_nil _ _)).mpr (h.not_infix hb)

end Unopened

namespace Comment

theorem blankBlocks_eq_self {s : Bytes} (h : Unopened s) : blankBlocks s = s := by
  have hbreak : Bytes.breakOn blockOpener s = none := h.breakOn_eq_none (.inr rfl)
  rw [blankBlocks]
  split
  · rfl
  · simp_all

theorem blankLineComment_eq_self {line : Bytes} (h : Unopened line) :
    blankLineComment line = line := by
  have hbreak : Bytes.breakOn lineOpener line = none := h.breakOn_eq_none (.inl rfl)
  rw [blankLineComment, hbreak]

theorem beforeUnterminated?_of_unopened {s : Bytes} (h : Bytes.breakOn blockOpener s = none) :
    beforeUnterminated? s = none := by
  rw [beforeUnterminated?]
  split
  · rfl
  · simp_all

theorem unterminatedLine?_eq_none {s : Bytes} (h : Unopened s) : unterminatedLine? s = none := by
  rw [unterminatedLine?, beforeUnterminated?_of_unopened (h.breakOn_eq_none (.inr rfl))]
  rfl

theorem unopened_join {lines : List Bytes} (h : ∀ line ∈ lines, Unopened line) :
    Unopened (Bytes.join [newline] lines) := by
  induction lines with
  | nil => exact .nil
  | cons line lines ih =>
    have hline := h line List.mem_cons_self
    cases lines with
    | nil => simpa [Bytes.join] using hline
    | cons next lines =>
      have hrest := ih fun other hother => h other (List.mem_cons_of_mem line hother)
      rw [Bytes.join_cons_cons]
      exact hline.append_cons hrest (by decide) (by decide)

theorem strip_join {lines : List Bytes} (hne : lines ≠ [])
    (h : ∀ line ∈ lines, newline ∉ line ∧ Unopened line) :
    strip (Bytes.join [newline] lines) = Bytes.join [newline] lines := by
  have hlines : lines.map blankLineComment = lines := by
    calc lines.map blankLineComment = lines.map id :=
          List.map_congr_left fun line hline => blankLineComment_eq_self (h line hline).2
      _ = lines := List.map_id lines
  rw [strip, blankBlocks_eq_self (unopened_join fun line hline => (h line hline).2),
    Bytes.splitOn_join hne fun line hline => (h line hline).1, hlines]

end Comment

namespace SourceLine

/-- Lines without comments, blanks at their ends and line feeds are read as they were written. -/
theorem ofSource_join {lines : List Bytes}
    (h : ∀ line ∈ lines, Comment.newline ∉ line ∧ Unopened line ∧ line ≠ [] ∧ line.trim = line) :
    ofSource (Bytes.join [Comment.newline] lines) =
      (lines.zipIdx 1).map fun (line, number) => ⟨number, line⟩ := by
  cases lines with
  | nil =>
    have hempty : Unopened [] := .of_not_mem List.not_mem_nil
    have hsplit : Bytes.splitOn [Comment.newline] [] = [[]] :=
      Bytes.splitOn_of_not_mem List.not_mem_nil
    have hstrip : Comment.strip [] = [] := by
      rw [Comment.strip, Comment.blankBlocks_eq_self hempty, hsplit]
      rfl
    change ofStripped (Comment.strip []) = []
    rw [hstrip, ofStripped, hsplit]
    rfl
  | cons first rest =>
    have hstrip := Comment.strip_join (List.cons_ne_nil first rest)
      fun line hline => ⟨(h line hline).1, (h line hline).2.1⟩
    rw [ofSource, hstrip, ofStripped, Bytes.splitOn_join (List.cons_ne_nil first rest)
      fun line hline => (h line hline).1, ← List.filterMap_eq_map]
    apply List.filterMap_congr
    rintro ⟨line, number⟩ hmem
    obtain ⟨-, -, hne, htrim⟩ := h line (List.fst_mem_of_mem_zipIdx hmem)
    simp [htrim, hne]

end SourceLine

end TimedInput
