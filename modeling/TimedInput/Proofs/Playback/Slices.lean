import Mathlib.Order.Basic
import TimedInput.Playback.Supervision

/-!
# Playing in slices

A run that is played until a deadline and then on makes the steps that it makes when it is
played at once. So an owner may sleep and wait in slices of any length and finds what it finds
after one long wait, unless it asks the run to cancel meanwhile.
-/

namespace TimedInput

variable {σ : Type}

namespace Run

variable (backend : Backend σ)

theorem playUntil_of_isOver (deadline : Option Nat) (clock : Nat) {run : Run σ}
    (h : run.isOver = true) : run.playUntil backend deadline clock = (clock, run) := by
  rw [playUntil, dif_pos h]

theorem isOver_playUntil (clock : Nat) (run : Run σ) :
    (run.playUntil backend none clock).2.isOver = true := by
  fun_induction playUntil backend none clock run with
  | case1 clock run h => exact h
  | case2 clock run h now hd => cases hd
  | case3 clock run h now hd hstep ih => exact ih

theorem playUntil_of_late {deadline clock : Nat} {run : Run σ}
    (h : deadline < max clock run.ready) :
    run.playUntil backend (some deadline) clock = (clock, run) := by
  rw [playUntil]
  simp only [Option.any_some, h, decide_true, if_true, dite_eq_ite, ite_self]

theorem playUntil_of_due {deadline : Option Nat} {clock : Nat} {run : Run σ}
    (hover : run.isOver = false) (hdue : ∀ e ∈ deadline, max clock run.ready ≤ e) :
    run.playUntil backend deadline clock =
      (run.step backend (max clock run.ready)).playUntil backend deadline
        (max clock run.ready) := by
  have hany : deadline.any (· < max clock run.ready) = false := by
    cases deadline with
    | none => rfl
    | some e => simpa using hdue e rfl
  rw [playUntil, dif_neg (by simp [hover])]
  simp only [hany, Bool.false_eq_true, if_false]

theorem playUntil_of_ready {deadline : Option Nat} {now : Nat} {run : Run σ}
    (hover : run.isOver = false) (hready : run.ready ≤ now) (hdue : ∀ e ∈ deadline, now ≤ e) :
    run.playUntil backend deadline now = (run.step backend now).playUntil backend deadline now := by
  have hmax : max now run.ready = now := Nat.max_eq_left hready
  have hdue' : ∀ e ∈ deadline, max now run.ready ≤ e := by rwa [hmax]
  rw [playUntil_of_due backend hover hdue', hmax]

/-- Every step is made at the first instant at which it can be made. -/
theorem playUntil_induction_ready {P : Nat → Run σ → Prop}
    (keeps : ∀ clock run, P clock run →
      P (max clock run.ready) (run.step backend (max clock run.ready)))
    (deadline : Option Nat) {clock : Nat} {run : Run σ} (h : P clock run) :
    P (run.playUntil backend deadline clock).1 (run.playUntil backend deadline clock).2 := by
  fun_induction playUntil backend deadline clock run with
  | case1 clock run hover => exact h
  | case2 clock run hover now hd => exact h
  | case3 clock run hover now hd hstep ih => exact ih (keeps clock run h)

theorem playUntil_induction {P : Nat → Run σ → Prop}
    (keeps : ∀ clock now run, clock ≤ now → run.ready ≤ now → P clock run →
      P now (run.step backend now))
    (deadline : Option Nat) {clock : Nat} {run : Run σ} (h : P clock run) :
    P (run.playUntil backend deadline clock).1 (run.playUntil backend deadline clock).2 :=
  playUntil_induction_ready backend
    (fun clock run => keeps clock _ run (Nat.le_max_left ..) (Nat.le_max_right ..)) deadline h

theorem le_playUntil (deadline : Option Nat) (clock : Nat) (run : Run σ) :
    clock ≤ (run.playUntil backend deadline clock).1 := by
  fun_induction playUntil backend deadline clock run with
  | case1 clock run h => exact Nat.le_refl clock
  | case2 clock run h now hd => exact Nat.le_refl clock
  | case3 clock run h now hd hstep ih => exact Nat.le_trans (Nat.le_max_left ..) ih

theorem playUntil_le {deadline clock : Nat} (run : Run σ) (h : clock ≤ deadline) :
    (run.playUntil backend (some deadline) clock).1 ≤ deadline := by
  fun_induction playUntil backend (some deadline) clock run with
  | case1 clock run hover => exact h
  | case2 clock run hover now hd => exact h
  | case3 clock run hover now hd hstep ih => exact ih (by simpa using hd)

/-- What is played until a deadline is over, or its next step comes later. -/
theorem isOver_or_late (deadline clock : Nat) (run : Run σ) :
    let played := run.playUntil backend (some deadline) clock
    played.2.isOver = true ∨ deadline < max played.1 played.2.ready := by
  fun_induction playUntil backend (some deadline) clock run with
  | case1 clock run h => exact .inl h
  | case2 clock run h now hd => exact .inr (of_decide_eq_true hd)
  | case3 clock run h now hd hstep ih => exact ih

theorem playUntil_resume {first : Nat} {deadline : Option Nat} (hle : ∀ e ∈ deadline, first ≤ e)
    (clock : Nat) (run : Run σ) :
    let played := run.playUntil backend (some first) clock
    played.2.playUntil backend deadline played.1 = run.playUntil backend deadline clock := by
  fun_induction playUntil backend (some first) clock run with
  | case1 clock run h => rfl
  | case2 clock run h now hd => rfl
  | case3 clock run h now hd hstep ih =>
    have hdue : now ≤ first := by simpa using hd
    rw [playUntil_of_due backend (by simpa using h) fun e he => Nat.le_trans hdue (hle e he)]
    exact ih

theorem playUntil_none_resume (deadline clock : Nat) (run : Run σ) :
    let played := run.playUntil backend (some deadline) clock
    played.2.playUntil backend none played.1 = run.playUntil backend none clock :=
  playUntil_resume backend (by simp) clock run

/-- A run that has nothing to do before an instant is played from there as from any earlier one. -/
theorem playUntil_late_start {clock later : Nat} {run : Run σ} (hover : run.isOver = false)
    (hle : clock ≤ later) (hlate : later < max clock run.ready) {deadline : Option Nat}
    (hdue : ∀ e ∈ deadline, run.ready ≤ e) :
    run.playUntil backend deadline later = run.playUntil backend deadline clock := by
  have hclock : max clock run.ready = run.ready := by omega
  have hlater : max later run.ready = run.ready := by omega
  rw [playUntil_of_due backend hover (by rwa [hlater]),
    playUntil_of_due backend hover (by rwa [hclock]), hclock, hlater]

/-- Where a pause ends does not matter to what is played after it. -/
theorem playUntil_pause {clock pause : Nat} (hle : clock ≤ pause) {deadline : Option Nat}
    (hdeadline : ∀ e ∈ deadline, pause ≤ e) (run : Run σ) :
    (((run.playUntil backend (some pause) clock).2).playUntil backend deadline pause).2 =
      (run.playUntil backend deadline clock).2 := by
  rw [← playUntil_resume backend hdeadline clock run]
  have hstop := run.isOver_or_late backend pause clock
  have hclock := run.playUntil_le backend hle
  generalize run.playUntil backend (some pause) clock = played at hstop hclock
  obtain ⟨now, run⟩ := played
  cases hover : run.isOver with
  | true => rw [playUntil_of_isOver backend _ _ hover, playUntil_of_isOver backend _ _ hover]
  | false =>
    have hlate : pause < max now run.ready := by simpa [hover] using hstop
    by_cases hdue : ∀ e ∈ deadline, run.ready ≤ e
    · rw [playUntil_late_start backend hover hclock hlate hdue]
    · -- the next step is too late for both of them
      simp only [not_forall] at hdue
      obtain ⟨e, rfl, he⟩ := hdue
      have hready : e < run.ready := by omega
      have hpause : e < max pause run.ready := by omega
      have hnow : e < max now run.ready := by omega
      rw [playUntil_of_late backend hpause, playUntil_of_late backend hnow]

theorem playUntil_none_of_pause {clock pause : Nat} (hle : clock ≤ pause) {run : Run σ}
    (h : (run.playUntil backend (some pause) clock).2.isOver = false) :
    ((run.playUntil backend (some pause) clock).2).playUntil backend none pause =
      run.playUntil backend none clock := by
  have hlate := (run.isOver_or_late backend pause clock).resolve_left (by simp [h])
  rw [playUntil_late_start backend h (run.playUntil_le backend hle) hlate (by simp)]
  exact run.playUntil_none_resume backend pause clock

theorem isOver_playUntil_iff {clock deadline : Nat} (hle : clock ≤ deadline) (run : Run σ) :
    (run.playUntil backend (some deadline) clock).2.isOver = true ↔
      (run.playUntil backend none clock).1 ≤ deadline := by
  have hwhole := run.playUntil_none_resume backend deadline clock
  have hclock := run.playUntil_le backend hle
  have hstop := run.isOver_or_late backend deadline clock
  generalize run.playUntil backend (some deadline) clock = played at hwhole hclock hstop
  obtain ⟨now, run⟩ := played
  rw [← hwhole]
  cases hover : run.isOver with
  | true => simpa [playUntil_of_isOver backend none now hover] using hclock
  | false =>
    have hlate : deadline < max now run.ready := by simpa [hover] using hstop
    have hnext := le_playUntil backend none (max now run.ready)
      (run.step backend (max now run.ready))
    rw [playUntil_of_due backend hover (by simp)]
    simp only [Bool.false_eq_true, false_iff]
    omega

end Run

namespace Session

theorem sleep_add (s : Session σ) (a b : Nat) : (s.sleep a).sleep b = s.sleep (a + b) := by
  obtain ⟨backend, settings, clock, player⟩ := s
  by_cases ha : a = 0
  · simp [ha, sleep]
  by_cases hb : b = 0
  · simp [hb, sleep]
  have hab : a + b ≠ 0 := by omega
  cases player with
  | started run =>
    have hlater : ∀ e ∈ some (clock + (a + b)), clock + a ≤ e := by
      intro e he
      obtain rfl := Option.some.inj he
      omega
    have h := run.playUntil_pause backend (Nat.le_add_right clock a) hlater
    simp only [sleep, play, ha, hb, hab, if_false, Nat.add_assoc, h]
  | _ => simp [sleep, play, ha, hb, Nat.add_assoc]

theorem clock_sleep (s : Session σ) (span : Nat) : (s.sleep span).clock = s.clock + span := by
  by_cases hspan : span = 0
  · simp [sleep, hspan]
  · simp [sleep, hspan]

theorem isSettled_sleep_iff {s : Session σ} (h : s.isSettled = false) {span : Nat}
    (hspan : span ≠ 0) : (s.sleep span).isSettled = true ↔ s.wait.clock ≤ s.clock + span := by
  obtain ⟨backend, settings, clock, player⟩ := s
  cases player with
  | started run =>
    have hiff := run.isOver_playUntil_iff backend (Nat.le_add_right clock span)
    simpa [sleep, hspan, play, wait] using hiff
  | _ => cases h

theorem isSettled_sleep_of_isSettled {s : Session σ} (h : s.isSettled = true) (span : Nat) :
    (s.sleep span).isSettled = true := by
  obtain ⟨backend, settings, clock, player⟩ := s
  by_cases hspan : span = 0
  · simpa [sleep, hspan] using h
  cases player with
  | started run =>
    have hover : run.isOver = true := by simpa using h
    simp [sleep, hspan, play, Run.playUntil_of_isOver backend _ _ hover, hover]
  | _ => rw [sleep, if_neg hspan]; exact h

theorem wait_sleep {s : Session σ} {span : Nat} (h : (s.sleep span).isSettled = false) :
    (s.sleep span).wait = s.wait := by
  obtain ⟨backend, settings, clock, player⟩ := s
  by_cases hspan : span = 0
  · simp [sleep, hspan]
  cases player with
  | started run =>
    have hover : (run.playUntil backend (some (clock + span)) clock).2.isOver = false := by
      simpa [sleep, hspan, play] using h
    have hwait := Run.playUntil_none_of_pause backend (Nat.le_add_right clock span) hover
    simp [sleep, hspan, play, wait, hwait]
  | _ => simp [sleep, hspan, play, isSettled, state, Player.state] at h

theorem waitFor_eq {s : Session σ} {span : Nat} (hspan : span ≠ 0) :
    s.waitFor span =
      if (s.sleep span).isSettled then (s.wait, true) else (s.sleep span, false) := by
  obtain ⟨backend, settings, clock, player⟩ := s
  cases player with
  | started run =>
    have hwhole := run.playUntil_none_resume backend (clock + span) clock
    by_cases hover : run.isOver = true
    · simp [waitFor, sleep, hspan, play, wait, hover, Run.playUntil_of_isOver]
    · by_cases hplayed : (run.playUntil backend (some (clock + span)) clock).2.isOver = true
      · simp only [Run.playUntil_of_isOver backend _ _ hplayed] at hwhole
        simp [waitFor, sleep, hspan, play, wait, hover, hplayed, ← hwhole]
      · simp [waitFor, sleep, hspan, play, hover, hplayed]
  | _ => simp [waitFor, sleep, hspan, play, wait, isSettled, state, Player.state]

section Supervise

variable {slice : Nat} (hslice : slice ≠ 0) {interrupt : Option Nat} {s : Session σ}
include hslice

theorem supervise_of_settles (h : (s.sleep slice).isSettled = true) :
    s.supervise slice interrupt = s.wait := by
  have hwait := s.waitFor_eq hslice
  rw [if_pos h] at hwait
  rw [supervise, dif_neg hslice]
  split
  · rename_i t ht
    exact (congrArg Prod.fst (ht.symm.trans hwait))
  · rename_i t ht
    cases congrArg Prod.snd (ht.symm.trans hwait)

theorem supervise_of_pending (h : (s.sleep slice).isSettled = false) :
    s.supervise slice interrupt =
      if interrupt.any (· ≤ s.clock + slice) then (s.sleep slice).cancel.supervise slice interrupt
      else (s.sleep slice).supervise slice interrupt := by
  have hwait := s.waitFor_eq hslice
  rw [if_neg (by simp [h])] at hwait
  rw [supervise, dif_neg hslice]
  split
  · rename_i t ht
    cases congrArg Prod.snd (ht.symm.trans hwait)
  · rename_i t ht
    obtain rfl : t = s.sleep slice := congrArg Prod.fst (ht.symm.trans hwait)
    simp only [clock_sleep]

/-- Up to the interrupt, slices make no difference. -/
theorem supervise_of_late (n : Nat)
    (hlate : ∀ e ∈ interrupt, n = 0 ∨ s.clock + n * slice < e) :
    s.supervise slice interrupt =
      if (s.sleep (n * slice)).isSettled then s.wait
      else (s.sleep (n * slice)).supervise slice interrupt := by
  induction n with
  | zero =>
    have hzero : s.sleep (0 * slice) = s := by simp [sleep]
    rw [hzero]
    split
    · rename_i hsettled
      exact supervise_of_settles hslice (isSettled_sleep_of_isSettled hsettled slice)
    · rfl
  | succ n ih =>
    have hadd : s.sleep ((n + 1) * slice) = (s.sleep (n * slice)).sleep slice := by
      rw [sleep_add, Nat.succ_mul]
    have hclock : s.clock + (n + 1) * slice = (s.sleep (n * slice)).clock + slice := by
      rw [clock_sleep, Nat.succ_mul, Nat.add_assoc]
    have hbefore : ∀ e ∈ interrupt, n = 0 ∨ s.clock + n * slice < e := by
      intro e he
      have h := (hlate e he).resolve_left (Nat.succ_ne_zero n)
      rw [Nat.succ_mul] at h
      omega
    rw [ih hbefore]
    cases hsettled : (s.sleep (n * slice)).isSettled with
    | true => simp [hadd, isSettled_sleep_of_isSettled hsettled]
    | false =>
      simp only [Bool.false_eq_true, if_false, hadd]
      cases hnext : ((s.sleep (n * slice)).sleep slice).isSettled with
      | true =>
        rw [supervise_of_settles hslice hnext, wait_sleep hsettled]
        rfl
      | false =>
        have hany : interrupt.any (· ≤ (s.sleep (n * slice)).clock + slice) = false := by
          cases interrupt with
          | none => rfl
          | some e =>
            have h := (hlate e rfl).resolve_left (Nat.succ_ne_zero n)
            simpa [← hclock] using h
        rw [supervise_of_pending hslice hnext, hany]
        rfl

theorem supervise_none : s.supervise slice none = s.wait := by
  let n := s.wait.clock + 1
  have hsettled : (s.sleep (n * slice)).isSettled = true := by
    cases h : s.isSettled with
    | true => exact isSettled_sleep_of_isSettled h _
    | false =>
      have hpos : 0 < slice := Nat.pos_of_ne_zero hslice
      have hspan : n ≤ n * slice := Nat.le_mul_of_pos_right n hpos
      rw [isSettled_sleep_iff h (by omega)]
      omega
  rw [supervise_of_late hslice n (by simp), if_pos hsettled]

/-- The interrupt is noticed when the first slice has passed that ends at it or later, unless the
end of the run comes first. -/
theorem supervise_some {instant n : Nat} (hlate : n = 0 ∨ s.clock + n * slice < instant)
    (hle : instant ≤ s.clock + (n + 1) * slice) :
    s.supervise slice (some instant) =
      if (s.sleep ((n + 1) * slice)).isSettled then s.wait
      else (s.sleep ((n + 1) * slice)).cancel.supervise slice (some instant) := by
  have hadd : s.sleep ((n + 1) * slice) = (s.sleep (n * slice)).sleep slice := by
    rw [sleep_add, Nat.succ_mul]
  have hclock : s.clock + (n + 1) * slice = (s.sleep (n * slice)).clock + slice := by
    rw [clock_sleep, Nat.succ_mul, Nat.add_assoc]
  rw [supervise_of_late hslice n (by simpa using hlate)]
  cases hsettled : (s.sleep (n * slice)).isSettled with
  | true => simp [hadd, isSettled_sleep_of_isSettled hsettled]
  | false =>
    simp only [Bool.false_eq_true, if_false, hadd]
    cases hnext : ((s.sleep (n * slice)).sleep slice).isSettled with
    | true =>
      rw [supervise_of_settles hslice hnext, wait_sleep hsettled]
      rfl
    | false =>
      have hany : (some instant).any (· ≤ (s.sleep (n * slice)).clock + slice) = true := by
        simpa [← hclock] using hle
      rw [supervise_of_pending hslice hnext, if_pos hany]
      rfl

end Supervise

end Session

end TimedInput
