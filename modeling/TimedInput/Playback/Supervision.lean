import TimedInput.Playback.Session

/-!
# Supervision

An owner that waits for the end of a run in slices, and between two of them looks
whether it was interrupted. From the first slice that ends at or after the interrupt, it
asks the player to cancel.

The slices come to an end: in each of them the run makes a step, or the next step comes
nearer.
-/

namespace TimedInput

namespace Run

variable {σ : Type}

/-- A run that has not moved is over, or its next step is due after the deadline. -/
theorem playUntil_eq_or_lt (backend : Backend σ) (deadline : Nat) (clock : Nat)
    (run : Run σ) :
    (run.playUntil backend (some deadline) clock).2 = run ∧
        (run.isOver = true ∨ deadline < max clock run.ready) ∨
      (run.playUntil backend (some deadline) clock).2.stage.Lt run.stage := by
  fun_induction playUntil backend (some deadline) clock run with
  | case1 clock run h => exact .inl ⟨rfl, .inl h⟩
  | case2 clock run h now hd => exact .inl ⟨rfl, .inr (of_decide_eq_true hd)⟩
  | case3 clock run h now hd hstep ih =>
    refine .inr ?_
    cases ih with
    | inl same =>
      rw [same.1]
      exact hstep
    | inr less => exact less.trans hstep

theorem ready_cancel_le (run : Run σ) :
    ({ run with cancelRequested := true } : Run σ).ready ≤ run.ready := by
  have same : ({ run with cancelRequested := true } : Run σ).awaited? = run.awaited? := rfl
  unfold ready
  rw [same]
  cases run.awaited? with
  | none => exact Nat.le_refl _
  | some instant =>
    simp only [if_true]
    split
    · exact Nat.le_refl _
    · exact Nat.le_max_left _ _

end Run

namespace Session

variable {σ : Type}

/-- What is left of the run. -/
def stage (s : Session σ) : Stage :=
  match s.player with
  | .started run => run.stage
  | _ => .ended .cancelled

/-- How far away the next step of the run is. -/
def gap (s : Session σ) : Nat :=
  match s.player with
  | .started run => run.ready - s.clock
  | _ => 0

/-- A session is closer to its end when less is left to do, or as much but sooner. -/
def Closer (a b : Session σ) : Prop :=
  a.stage.Lt b.stage ∨ a.stage = b.stage ∧ a.gap < b.gap

theorem stage_cancel (s : Session σ) : s.cancel.stage = s.stage := by
  obtain ⟨backend, settings, clock, player⟩ := s
  cases player with
  | idle device => rfl
  | dismissed => rfl
  | started run =>
    simp only [cancel, stage, Player.cancel]
    by_cases h : run.isOver = true <;> simp [h]

theorem gap_cancel_le (s : Session σ) : s.cancel.gap ≤ s.gap := by
  obtain ⟨backend, settings, clock, player⟩ := s
  cases player with
  | idle device => exact Nat.le_refl _
  | dismissed => exact Nat.le_refl _
  | started run =>
    simp only [cancel, gap, Player.cancel]
    by_cases h : run.isOver = true
    · simp [h]
    · simpa [h] using Nat.sub_le_sub_right run.ready_cancel_le clock

theorem Closer.of_cancel {a b : Session σ} (h : a.Closer b) : a.cancel.Closer b := by
  obtain h | ⟨h1, h2⟩ := h
  · exact .inl (a.stage_cancel ▸ h)
  · exact .inr ⟨a.stage_cancel.trans h1, Nat.lt_of_le_of_lt a.gap_cancel_le h2⟩

/-- A slice that ends before the run does brings the session closer to its end. -/
theorem closer_of_waitFor {s t : Session σ} {span : Nat} (hspan : 0 < span)
    (h : s.waitFor span = (t, false)) : t.Closer s := by
  obtain ⟨backend, settings, clock, player⟩ := s
  cases player with
  | idle device => simp [waitFor, isSettled, state, Player.state] at h
  | dismissed => simp [waitFor, isSettled, state, Player.state] at h
  | started run =>
    have moved := run.playUntil_eq_or_lt backend (clock + span) clock
    have hspan' : ¬span = 0 := by omega
    simp only [waitFor, play, isSettled_started, Bool.or_eq_true, hspan', decide_false,
      Bool.false_eq_true, or_false] at h
    by_cases hover : run.isOver = true
    · simp [hover] at h
    · by_cases hplayed : (run.playUntil backend (some (clock + span)) clock).2.isOver = true
      · simp [hover, hplayed] at h
      · simp only [hover, hplayed, Bool.false_eq_true, if_false, Prod.mk.injEq, and_true] at h
        subst h
        obtain ⟨same, ended | late⟩ | less := moved
        · exact absurd ended hover
        · refine .inr ⟨congrArg Run.stage same, ?_⟩
          simp only [gap, same]
          omega
        · exact .inl less

theorem prodLex_of_closer {a b : Session σ} (h : a.Closer b) :
    Prod.Lex (· < ·) (Prod.Lex (· < ·) (Prod.Lex (· < ·) (· < ·)))
      (a.stage.eventsLeft, a.stage.stepsLeft, a.stage.callsLeft, a.gap)
      (b.stage.eventsLeft, b.stage.stepsLeft, b.stage.callsLeft, b.gap) := by
  obtain (h | ⟨he, h | ⟨hs, h⟩⟩) | ⟨hstage, hgap⟩ := h
  · exact .left _ _ h
  · rw [he]
    exact .right _ (.left _ _ h)
  · rw [he, hs]
    exact .right _ (.right _ (.left _ _ h))
  · rw [hstage]
    exact .right _ (.right _ (.right _ hgap))

/-- Waits for the end of the run in slices of the given span, which must not be empty. -/
def supervise (slice : Nat) (interrupt : Option Nat) (s : Session σ) : Session σ :=
  if hslice : slice = 0 then s
  else
    match h : s.waitFor slice with
    | (t, true) => t
    | (t, false) =>
      have : t.Closer s := closer_of_waitFor (Nat.pos_of_ne_zero hslice) h
      if interrupt.any (· ≤ t.clock) then supervise slice interrupt t.cancel
      else supervise slice interrupt t
termination_by (s.stage.eventsLeft, s.stage.stepsLeft, s.stage.callsLeft, s.gap)
decreasing_by
  · exact prodLex_of_closer this.of_cancel
  · exact prodLex_of_closer this

end Session

end TimedInput
