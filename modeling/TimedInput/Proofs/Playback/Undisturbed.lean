import Mathlib.Order.WellFounded
import TimedInput.Proofs.Playback.Outline

/-!
# Undisturbed runs

A run that is stepped until it is over, at whatever instants, with nothing in between. Every run
comes to its end in this way. If its backend does not cancel it either, nothing does.
-/

namespace TimedInput

variable {σ : Type}

/-- The backend whose calls never cancel a run. -/
def Backend.passive (backend : Backend σ) : Backend σ where
  perform now call device :=
    ({ (backend.perform now call device).1 with cancels := false },
      (backend.perform now call device).2)
  pointer := backend.pointer

theorem Backend.Led.of_passive {backend : Backend σ} {device : σ} {calls : List Call} {current : σ}
    (h : backend.passive.Led device calls current) : backend.Led device calls current := by
  induction h with
  | nil => exact .nil
  | snoc _ now call ih => exact ih.snoc now call

namespace Run

/-- The run after so many steps, made at the given instants and with nothing in between. -/
def nth (backend : Backend σ) (instants : Nat → Nat) (run : Run σ) : Nat → Run σ
  | 0 => run
  | n + 1 => (run.nth backend instants n).step backend (instants n)

theorem nth_eq_follow (backend : Backend σ) (instants : Nat → Nat) (run : Run σ) (n : Nat) :
    run.nth backend instants n =
      run.follow backend ((List.range n).map fun i => .step (instants i)) := by
  induction n with
  | zero => rfl
  | succ n ih => simp [nth, ih, List.range_succ, move]

/-- Every run comes to its end, whenever its steps are made. -/
theorem exists_nth_isOver (backend : Backend σ) (instants : Nat → Nat) (run : Run σ) :
    ∃ n, (run.nth backend instants n).isOver = true := by
  -- the measure of `step_lt` cannot fall forever
  obtain ⟨n, hn⟩ := WellFounded.not_rel_apply_succ
    (r := Prod.Lex (· < ·) (Prod.Lex (· < ·) (· < ·)))
    fun n =>
      let stage := (run.nth backend instants n).stage
      (stage.eventsLeft, stage.stepsLeft, stage.callsLeft)
  refine ⟨n, ?_⟩
  by_contra hover
  exact hn (prodLex_of_stageLt (step_lt backend _ _ (by simpa using hover)))

theorem nth_of_isOver {backend : Backend σ} {instants : Nat → Nat} {run : Run σ} {m n : Nat}
    (hover : (run.nth backend instants m).isOver = true) (hmn : m ≤ n) :
    run.nth backend instants n = run.nth backend instants m := by
  induction n, hmn using Nat.le_induction with
  | base => rfl
  | succ n _ ih =>
    rw [nth, ih, step_of_isOver hover]

theorem nth_eq_of_isOver {backend : Backend σ} {instants : Nat → Nat} {run : Run σ} {m n : Nat}
    (hm : (run.nth backend instants m).isOver = true)
    (hn : (run.nth backend instants n).isOver = true) :
    run.nth backend instants m = run.nth backend instants n := by
  rcases Nat.le_total m n with h | h
  · exact (nth_of_isOver hm h).symm
  · exact nth_of_isOver hn h

/-- A run that waits for something is not over yet. -/
theorem lt_of_polls_nth {backend : Backend σ} {instants : Nat → Nat} {run : Run σ} {m n : Nat}
    (hover : (run.nth backend instants m).isOver = true)
    (hpolls : (run.nth backend instants n).polls = true) : n < m := by
  by_contra hle
  rw [nth_of_isOver hover (Nat.le_of_not_lt hle), not_polls_of_isOver hover] at hpolls
  cases hpolls

theorem log_prefix_nth (backend : Backend σ) (instants : Nat → Nat) (run : Run σ) {m n : Nat}
    (hmn : m ≤ n) : (run.nth backend instants m).log <+: (run.nth backend instants n).log := by
  induction n, hmn using Nat.le_induction with
  | base => exact List.prefix_rfl
  | succ n _ ih => exact ih.trans (log_prefix_step ..)

/-- The run was not asked to cancel and is not about to end as if it were. -/
def Unasked (run : Run σ) : Prop :=
  run.cancelRequested = false ∧ run.outcome? ≠ some .cancelled

theorem Unasked.step {backend : Backend σ} {run : Run σ} (h : run.Unasked) (now : Nat) :
    (run.step backend.passive now).Unasked := by
  obtain ⟨hcancel, houtcome⟩ := h
  have ht := run.step_transition backend.passive now
  generalize run.step backend.passive now = next at ht
  unfold outcome? at houtcome
  cases ht with
  | cancelled hpolls hasked => simp [hcancel] at hasked
  | @called call calls next hs =>
    refine ⟨by simp [beginCall, Backend.passive, hcancel], ?_⟩
    cases next <;> simp_all [beginCall, outcome?]
  | settled hs => exact ⟨hcancel, by simpa [outcome?] using houtcome⟩
  | _ => exact ⟨hcancel, by simp_all [outcome?, drain]⟩

section Fresh

variable (backend : Backend σ) {settings : Settings} {timeline : Timeline} {device : σ}
variable {begun : Nat} {fresh : Run σ}
variable (hfresh : fresh = ofTimeline settings timeline device begun) (instants : Nat → Nat)
include hfresh

theorem unasked_nth (n : Nat) : (fresh.nth backend.passive instants n).Unasked := by
  induction n with
  | zero =>
    subst hfresh
    exact ⟨rfl, nofun⟩
  | succ n ih => exact ih.step (instants n)

theorem phase_nth (n : Nat) :
    (fresh.nth backend.passive instants n).Phase backend.passive
      ⟨[], [], backend.pointer device⟩ := by
  rw [nth_eq_follow, hfresh]
  exact phase_follow ..

end Fresh

end Run

end TimedInput
