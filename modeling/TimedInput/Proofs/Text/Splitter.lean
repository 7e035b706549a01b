import Mathlib.Logic.Function.Iterate
import TimedInput.Proofs.Text.Splitting

/-!
# Splitting with a cursor

A text can be split without taking it apart: a cursor runs over it from one separator to the next,
and the piece between is copied out. A place that no text reaches stands for a separator that is not
found, and the last piece is as long as it takes to get there. The cursor makes one round for each
piece, and the pieces are those of the text.
-/

namespace TimedInput.Bytes

/-- The first place at `start` or behind it where the pattern stands; `nowhere` if there is none. -/
def place (nowhere : Nat) (pat s : Bytes) (start : Nat) : Nat :=
  ((List.range' start (s.length + 1 - start)).find? fun i => pat.isPrefixOf (s.drop i)).getD nowhere

/-- At most `count` bytes of the text from `start` on. -/
def extract (s : Bytes) (start count : Nat) : Bytes :=
  (s.drop start).take count

structure Splitter where
  /-- Where the next piece begins. -/
  offset : Nat
  passed : List Bytes
  isOver : Bool
  deriving DecidableEq, Repr

namespace Splitter

def initial : Splitter :=
  ⟨0, [], false⟩

/-- One round: passes the piece up to the next separator, and goes behind that. -/
def step (nowhere : Nat) (sep s : Bytes) (sp : Splitter) : Splitter :=
  if sp.isOver then sp
  else
    let pos := place nowhere sep s sp.offset
    { offset := pos + sep.length
      passed := sp.passed ++ [extract s sp.offset (pos - sp.offset)]
      isOver := pos == nowhere }

end Splitter

section Place

variable {nowhere start : Nat} {pat s before after : Bytes}

theorem place_of_none (h : breakOn pat (s.drop start) = none) (hpat : pat ≠ []) :
    place nowhere pat s start = nowhere := by
  have hnone : (List.range' start (s.length + 1 - start)).find?
      (fun i => pat.isPrefixOf (s.drop i)) = none := by
    rw [List.find?_range'_eq_none]
    intro i hi _
    rw [Bool.not_eq_true', ← Bool.not_eq_true, List.isPrefixOf_iff_prefix]
    intro hprefix
    obtain ⟨k, rfl⟩ := Nat.exists_eq_add_of_le hi
    rw [← List.drop_drop] at hprefix
    have hpart : pat <:+: (s.drop start).drop k := hprefix.isInfix
    exact (breakOn_eq_none_iff hpat).mp h (hpart.trans (List.drop_suffix k _).isInfix)
  rw [place, hnone]
  rfl

theorem length_of_breakOn (h : breakOn pat (s.drop start) = some (before, after)) :
    before.length + pat.length + after.length = s.length - start := by
  rw [← List.length_append, ← List.length_append, breakOn_append h, List.length_drop]

theorem place_of_some (h : breakOn pat (s.drop start) = some (before, after))
    (hstart : start ≤ s.length) : place nowhere pat s start = start + before.length := by
  have hs := breakOn_append h
  have hlength := length_of_breakOn h
  have hsome : (List.range' start (s.length + 1 - start)).find?
      (fun i => pat.isPrefixOf (s.drop i)) = some (start + before.length) := by
    rw [List.find?_range'_eq_some]
    refine ⟨?_, ?_, ?_⟩
    · rw [List.isPrefixOf_iff_prefix, ← List.drop_drop, ← hs, List.append_assoc,
        List.drop_left]
      exact List.prefix_append pat after
    · rw [List.mem_range'_1]
      omega
    · intro i hi hlt
      obtain ⟨k, rfl⟩ := Nat.exists_eq_add_of_le hi
      rw [Bool.not_eq_true', ← Bool.not_eq_true, List.isPrefixOf_iff_prefix, ← List.drop_drop]
      exact not_prefix_drop_of_breakOn h (by omega)
  rw [place, hsome]
  rfl

end Place

namespace Splitter

variable {nowhere k : Nat} {sep s before after : Bytes} {sp : Splitter}

/-- After `k` rounds `k` pieces have been passed, and the cursor stands where the others begin. -/
structure Underway (sep s : Bytes) (k : Nat) (sp : Splitter) : Prop where
  running : sp.isOver = false
  inside : sp.offset ≤ s.length
  count : sp.passed.length = k
  pieces : sp.passed ++ splitOn sep (s.drop sp.offset) = splitOn sep s

theorem underway_initial (sep s : Bytes) : Underway sep s 0 initial :=
  ⟨rfl, Nat.zero_le _, rfl, rfl⟩

theorem step_of_running (h : sp.isOver = false) {pos : Nat}
    (hplace : place nowhere sep s sp.offset = pos) :
    step nowhere sep s sp =
      ⟨pos + sep.length, sp.passed ++ [extract s sp.offset (pos - sp.offset)], pos == nowhere⟩ := by
  rw [step, h, hplace]
  rfl

section Rounds

variable (hsep : sep ≠ []) (hfar : s.length ≤ nowhere)
include hsep hfar

theorem Underway.step_of_some (h : Underway sep s k sp)
    (hbreak : breakOn sep (s.drop sp.offset) = some (before, after)) :
    Underway sep s (k + 1) (step nowhere sep s sp) := by
  have hs := breakOn_append hbreak
  have hlength := length_of_breakOn hbreak
  have hpos : 0 < sep.length := List.length_pos_iff.mpr hsep
  have hinside := h.inside
  have hpieces := h.pieces
  rw [splitOn_of_some hsep hbreak] at hpieces
  have hpiece : extract s sp.offset (sp.offset + before.length - sp.offset) = before := by
    rw [extract, ← hs, Nat.add_sub_cancel_left, List.append_assoc, List.take_left]
  have hafter : s.drop (sp.offset + before.length + sep.length) = after := by
    rw [Nat.add_assoc, ← List.drop_drop, ← hs, ← List.length_append, List.drop_left]
  rw [step_of_running h.running (place_of_some hbreak hinside), hpiece]
  refine ⟨?_, ?_, ?_, ?_⟩
  · -- a separator that is found ends within the text
    rw [beq_eq_false_iff_ne]
    omega
  · change sp.offset + before.length + sep.length ≤ s.length
    omega
  · rw [List.length_append, h.count]
    rfl
  · rw [hafter, List.append_assoc]
    exact hpieces

theorem Underway.step_of_none (h : Underway sep s k sp)
    (hbreak : breakOn sep (s.drop sp.offset) = none) :
    (step nowhere sep s sp).isOver = true ∧ (step nowhere sep s sp).passed = splitOn sep s ∧
      (splitOn sep s).length = k + 1 := by
  have hpieces := h.pieces
  rw [splitOn_of_none hbreak] at hpieces
  have hpiece : extract s sp.offset (nowhere - sp.offset) = s.drop sp.offset := by
    apply List.take_of_length_le
    rw [List.length_drop]
    omega
  rw [step_of_running h.running (place_of_none hbreak hsep), hpiece]
  refine ⟨beq_self_eq_true nowhere, hpieces, ?_⟩
  rw [← hpieces, List.length_append, h.count]
  rfl

/-- As long as there are pieces to come, a round is made for each. -/
theorem underway_iterate (hk : k < (splitOn sep s).length) :
    Underway sep s k ((step nowhere sep s)^[k] initial) := by
  induction k with
  | zero => exact underway_initial sep s
  | succ k ih =>
    have h := ih (by omega)
    rw [Function.iterate_succ_apply']
    cases hbreak : breakOn sep (s.drop ((step nowhere sep s)^[k] initial).offset) with
    | none =>
      obtain ⟨-, -, hlength⟩ := h.step_of_none hsep hfar hbreak
      omega
    | some parts => exact h.step_of_some hsep hfar hbreak

theorem over_iterate :
    let last := (step nowhere sep s)^[(splitOn sep s).length] initial
    last.isOver = true ∧ last.passed = splitOn sep s := by
  obtain ⟨piece, pieces, hsplit⟩ := exists_splitOn_eq_cons sep s
  have hlength : (splitOn sep s).length = pieces.length + 1 := by
    rw [hsplit]
    rfl
  intro last
  have h := underway_iterate hsep hfar (k := pieces.length) (by omega)
  have hlast : last = step nowhere sep s ((step nowhere sep s)^[pieces.length] initial) := by
    change (step nowhere sep s)^[_] initial = _
    rw [hlength, Function.iterate_succ_apply']
  rw [hlast]
  cases hbreak : breakOn sep (s.drop ((step nowhere sep s)^[pieces.length] initial).offset) with
  | none =>
    obtain ⟨hover, hpassed, -⟩ := h.step_of_none hsep hfar hbreak
    exact ⟨hover, hpassed⟩
  | some parts =>
    -- two more pieces would be too many
    obtain ⟨next, others, hafter⟩ := exists_splitOn_eq_cons sep parts.2
    have hcount := congrArg List.length h.pieces
    rw [splitOn_of_some hsep hbreak, hafter, List.length_append, h.count] at hcount
    simp only [List.length_cons] at hcount
    omega

end Rounds

end Splitter

end TimedInput.Bytes
