import TimedInput.Proofs.Playback.Schedule
import TimedInput.Proofs.Playback.Slices

/-!
# Chronicles

The history of a run on the virtual clock is in the order of its instants, and what a step adds
to it has the instant of the step. So what a run has done until a deadline is the part of its
whole history that is not later.
-/

namespace TimedInput

variable {σ : Type}

def Entry.instant : Entry → Nat
  | .began instant _ | .called instant _ _ _ | .stuck instant _ => instant

namespace Run

theorem exists_history_step (backend : Backend σ) (run : Run σ) (now : Nat) :
    ∃ new, (run.step backend now).history = new ++ run.history ∧ ∀ e ∈ new, e.instant = now := by
  have ht := run.step_transition backend now
  generalize run.step backend now = next at ht
  cases ht with
  | began hs => exact ⟨[.began now _], rfl, by simp [Entry.instant]⟩
  | called hs => exact ⟨[.called now _ _ _], rfl, by simp [Entry.instant]⟩
  | @released call ok calls outcome hs =>
    cases ok with
    | true => exact ⟨[], rfl, List.forall_mem_nil _⟩
    | false => exact ⟨[.stuck now call], rfl, by simp [Entry.instant]⟩
  | _ => exact ⟨[], rfl, List.forall_mem_nil _⟩

/-- What is played makes up a history of its own, which does not begin before the next step. -/
theorem exists_history_playUntil (backend : Backend σ) (deadline : Option Nat) (clock : Nat)
    (run : Run σ) :
    ∃ new, (run.playUntil backend deadline clock).2.history = new ++ run.history ∧
      ∀ e ∈ new, max clock run.ready ≤ e.instant := by
  fun_induction playUntil backend deadline clock run with
  | case1 clock run h => exact ⟨[], rfl, List.forall_mem_nil _⟩
  | case2 clock run h now hd => exact ⟨[], rfl, List.forall_mem_nil _⟩
  | case3 clock run h now hd hstep ih =>
    obtain ⟨last, hlast, hlater⟩ := ih
    obtain ⟨first, hfirst, hnow⟩ := run.exists_history_step backend now
    refine ⟨last ++ first, by rw [hlast, hfirst, List.append_assoc], ?_⟩
    intro e he
    rcases List.mem_append.mp he with he | he
    · exact Nat.le_trans (Nat.le_max_left ..) (hlater e he)
    · exact Nat.le_of_eq (hnow e he).symm

/-- The history has the latest entry first, and nothing in it is later than the clock. -/
structure Dated (clock : Nat) (run : Run σ) : Prop where
  ordered : run.history.Pairwise fun a b => b.instant ≤ a.instant
  past : ∀ e ∈ run.history, e.instant ≤ clock

theorem Dated.step {backend : Backend σ} {clock now : Nat} {run : Run σ} (h : run.Dated clock)
    (hle : clock ≤ now) : (run.step backend now).Dated now := by
  obtain ⟨new, hhistory, hnow⟩ := run.exists_history_step backend now
  have hpast : ∀ e ∈ run.history, e.instant ≤ now := fun e he => Nat.le_trans (h.past e he) hle
  constructor
  · rw [hhistory]
    refine List.pairwise_append.mpr ⟨?_, h.ordered, ?_⟩
    · apply List.pairwise_of_forall_mem_list
      intro a ha b hb
      rw [hnow a ha, hnow b hb]
    · intro a ha b hb
      rw [hnow a ha]
      exact hpast b hb
  · rw [hhistory]
    intro e he
    rcases List.mem_append.mp he with he | he
    · exact Nat.le_of_eq (hnow e he)
    · exact hpast e he

theorem Dated.playUntil {clock : Nat} {run : Run σ} (h : run.Dated clock) (backend : Backend σ)
    (deadline : Option Nat) :
    (run.playUntil backend deadline clock).2.Dated (run.playUntil backend deadline clock).1 :=
  run.playUntil_induction backend (fun _ _ _ hle _ h => h.step hle) deadline h

theorem history_playUntil {backend : Backend σ} {clock deadline : Nat} {run : Run σ}
    (h : run.Dated clock) (hle : clock ≤ deadline) :
    (run.playUntil backend (some deadline) clock).2.history =
      (run.playUntil backend none clock).2.history.filter (·.instant ≤ deadline) := by
  have hwhole := run.playUntil_none_resume backend deadline clock
  have hpast := (h.playUntil backend (some deadline)).past
  have hclock := run.playUntil_le backend hle
  have hstop := run.isOver_or_late backend deadline clock
  generalize run.playUntil backend (some deadline) clock = played at hwhole hpast hclock hstop
  obtain ⟨now, run⟩ := played
  have hkept : run.history.filter (·.instant ≤ deadline) = run.history := by
    apply List.filter_eq_self.mpr
    exact fun e he => decide_eq_true (Nat.le_trans (hpast e he) hclock)
  rw [← hwhole]
  rcases hstop with hover | hlate
  · rw [playUntil_of_isOver backend none now hover]
    exact hkept.symm
  · -- whatever is played from here on is later
    obtain ⟨new, hhistory, hlater⟩ := run.exists_history_playUntil backend none now
    have hdropped : new.filter (·.instant ≤ deadline) = [] := by
      apply List.filter_eq_nil_iff.mpr
      intro e he
      have hlt : deadline < e.instant := Nat.lt_of_lt_of_le hlate (hlater e he)
      simpa using hlt
    rw [hhistory, List.filter_append, hdropped, hkept]
    rfl

end Run

end TimedInput
