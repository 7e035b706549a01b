import TimedInput.Proofs.Playback.Retiming

/-!
# Ticks

The steps of a move are counted by a sum of 64 bits, of its duration and the tick. As long as the
sum fits, they are as many as they should be, at least one, and the last of them is the target. A
tick so long that the sum does not fit leaves no step where there should be one, and the move is
passed over.
-/

namespace TimedInput

section Counts

variable {duration tick : UInt64}
variable (hleast : 1 ≤ duration.toNat) (hmost : duration.toNat < 2 ^ 63) (htick : 1 ≤ tick.toNat)
include hleast hmost htick

theorem stepCount_of_wrap (h : 2 ^ 64 < duration.toNat + tick.toNat) :
    stepCount duration tick = 0 := by
  have hsum : (duration + tick - 1).toNat = duration.toNat + tick.toNat - 2 ^ 64 - 1 := by
    have := tick.toNat_lt
    rw [UInt64.toNat_sub, UInt64.toNat_add, UInt64.toNat_one]
    omega
  have hquotient : (duration + tick - 1) / tick = 0 := by
    rw [← UInt64.toNat_inj, UInt64.toNat_div, hsum]
    exact Nat.div_eq_of_lt (by omega)
  rw [stepCount, hquotient]
  rfl

theorem ceilDiv_of_wrap (h : 2 ^ 64 < duration.toNat + tick.toNat) :
    duration.toNat ⌈/⌉ tick.toNat = 1 := by
  have hle : duration.toNat ⌈/⌉ tick.toNat ≤ 1 := by
    rw [ceilDiv_le_iff_le_mul htick]
    omega
  exact Nat.le_antisymm hle (one_le_ceilDiv hleast htick)

theorem stepCount_eq_ceilDiv_iff :
    stepCount duration tick = duration.toNat ⌈/⌉ tick.toNat ↔
      duration.toNat + tick.toNat ≤ 2 ^ 64 := by
  constructor
  · intro h
    by_contra hwrap
    rw [Nat.not_le] at hwrap
    rw [stepCount_of_wrap hleast hmost htick hwrap, ceilDiv_of_wrap hleast hmost htick hwrap] at h
    cases h
  · intro h
    exact stepCount_eq_ceilDiv hleast hmost htick (by omega)

end Counts

namespace Event

variable (settings : Settings) (s : InputState) {event : Event} {mode : MoveMode} {x y : Int32}
variable {duration : UInt64} (haction : event.action = .move mode x y duration)
variable (hleast : 1 ≤ duration.toNat)
include haction hleast

theorem length_calls_of_timed :
    (event.calls settings s).length = stepCount duration settings.effectiveTick := by
  have hduration : duration ≠ 0 := by
    rintro rfl
    cases hleast
  rw [calls_of_glide settings s haction hduration, Glide.callsOf_start?, List.length_map,
    List.length_range]

theorem pointer_of_timed (hmost : duration.toNat < 2 ^ 63)
    (hsum : duration.toNat + settings.effectiveTick.toNat - 1 < 2 ^ 64) :
    (s.replay ((event.calls settings s).map .success)).pointer = event.action.place s.pointer := by
  rw [haction]
  cases mode with
  | absolute =>
    obtain ⟨hmoves, hlast, -⟩ :=
      calls_of_timed_absolute settings s haction hleast hmost hsum rfl
    rw [InputState.replay_absolute (p := ⟨x, y⟩) hmoves hlast]
    rfl
  | relative =>
    obtain ⟨hmoves, htotal, -⟩ :=
      calls_of_timed_relative settings s haction hleast hmost hsum rfl
    rw [InputState.replay_relative hmoves, htotal]
    rfl

end Event

namespace Run

section Passing

variable {σ : Type} (backend : Backend σ) {run : Run σ} {event : Event} {rest : Timeline}
variable (hstage : run.stage = .await ⟨none, event :: rest⟩)
include hstage

theorem step_step_of_no_calls (hcalls : event.calls run.settings run.state = [])
    (hcancel : run.cancelRequested = false) (now later : Nat) :
    let next := (run.step backend now).step backend later
    next.stage = .await ⟨none, rest⟩ ∧ next.log = run.log ∧ next.device = run.device ∧
      next.state = run.state := by
  intro next
  have hdispatch : run.dispatch event = ([], none) := by
    have h := run.calls_dispatch event
    rw [hcalls, List.append_eq_nil_iff] at h
    obtain ⟨hissued, hglided⟩ := h
    cases hglide : (run.dispatch event).2 with
    | none => exact Prod.ext hissued hglide
    | some glide =>
      rw [hglide, Glide.callsOf, Option.elim_some, glide.calls_eq] at hglided
      cases hglided
  have hfirst : run.step backend now =
      { run with
        stage := .issue [] (.proceed ⟨none, rest⟩)
        history := .began now event :: run.history } := by
    simp only [step, hstage, wake, hcancel, hdispatch]
    rfl
  have hnext : next =
      { run with
        stage := .await ⟨none, rest⟩
        history := .began now event :: run.history } := by
    change (run.step backend now).step backend later = _
    rw [hfirst]
    rfl
  rw [hnext]
  exact ⟨rfl, log_began run _ now event, rfl, rfl⟩

/-- The steps of a move that takes time are as many as its duration has room for ticks, rounded up,
if and only if the sum of both fits in 64 bits. Then a run that is completed has made all its calls,
at least one, and has brought the pointer to its target. If the sum does not fit, then the one step
that there should be is missing, and the move is passed over without a call. -/
theorem timed_moves_arrive {mode : MoveMode} {x y : Int32} {duration : UInt64}
    (haction : event.action = .move mode x y duration) (hleast : 1 ≤ duration.toNat)
    (hmost : duration.toNat < 2 ^ 63) :
    let tick := run.settings.effectiveTick
    let due := duration.toNat ⌈/⌉ tick.toNat
    let calls := event.calls run.settings run.state
    1 ≤ tick.toNat ∧ 1 ≤ due ∧ calls.length = stepCount duration tick ∧
    (stepCount duration tick = due ↔ duration.toNat + tick.toNat ≤ 2 ^ 64) ∧
    (duration.toNat + tick.toNat ≤ 2 ^ 64 →
      (mode = .absolute → calls.getLast? = some (.moveAbsolute x y)) ∧
      (mode = .relative → Call.displacement calls = ⟨x, y⟩) ∧
      ∀ moves, (run.follow backend moves).outcome? = some .completed →
        ∃ earlier, earlier <+: moves ∧
          let arrived := run.follow backend earlier
          arrived.stage = .await ⟨none, rest⟩ ∧ arrived.log = run.log ++ calls.map .success ∧
            arrived.state.pointer = event.action.place run.state.pointer) ∧
    (2 ^ 64 < duration.toNat + tick.toNat →
      due = 1 ∧ calls = [] ∧
      (run.cancelRequested = false → ∀ now later,
        let next := (run.step backend now).step backend later
        next.stage = .await ⟨none, rest⟩ ∧ next.log = run.log ∧ next.device = run.device ∧
          next.state = run.state)) := by
  intro tick due calls
  have htick : 1 ≤ tick.toNat := run.settings.effectiveTick_pos
  have hdue : 1 ≤ due := one_le_ceilDiv hleast htick
  have hlength : calls.length = stepCount duration tick :=
    event.length_calls_of_timed run.settings run.state haction hleast
  have hiff := stepCount_eq_ceilDiv_iff hleast hmost htick
  refine ⟨htick, hdue, hlength, hiff, ?_, ?_⟩
  · intro hfits
    have hsum : duration.toNat + tick.toNat - 1 < 2 ^ 64 := by omega
    refine ⟨?_, ?_, ?_⟩
    · intro hmode
      obtain ⟨-, hlast, -⟩ :=
        Event.calls_of_timed_absolute run.settings run.state haction hleast hmost hsum hmode
      exact hlast
    · intro hmode
      obtain ⟨-, htotal, -⟩ :=
        Event.calls_of_timed_relative run.settings run.state haction hleast hmost hsum hmode
      exact htotal
    · intro moves hcompleted
      have hnonempty : calls ≠ [] := by
        apply List.ne_nil_of_length_pos
        rw [hlength, hiff.mpr hfits]
        exact hdue
      have hpointer := event.pointer_of_timed run.settings run.state haction hleast hmost hsum
      rcases event_of_settled backend hstage hnonempty hcompleted with
        ⟨earlier, hprefix, hs, hlog, hstate⟩ | ⟨_, _, _, _, _, ⟨hstopped, -⟩ | ⟨hstopped, -⟩⟩
      · rw [List.take_length] at hlog hstate
        exact ⟨earlier, hprefix, hs, hlog, (congrArg InputState.pointer hstate).trans hpointer⟩
      · cases hstopped
      · cases hstopped
  · intro hwrap
    have hnone : calls = [] := by
      rw [← List.length_eq_zero_iff, hlength]
      exact stepCount_of_wrap hleast hmost htick hwrap
    exact ⟨ceilDiv_of_wrap hleast hmost htick hwrap, hnone,
      fun hcancel => step_step_of_no_calls backend hstage hnone hcancel⟩

end Passing

theorem timed_moves_arrive_longest_tick :
    let event : Event := ⟨0, .move .relative 10 10 2, 0⟩
    let run := (ofTimeline ⟨18446744073709551614, false⟩ [event] Rehearsal.smooth 0).step
      Rehearsal.backend 0
    let calls := event.calls run.settings run.state
    run.stage = .await ⟨none, [event]⟩ ∧ calls.length = 1 ∧ Call.displacement calls = ⟨10, 10⟩ := by
  intro event run calls
  have hstage : run.stage = .await ⟨none, [event]⟩ := rfl
  have htick : run.settings.effectiveTick = 18446744073709551614 := by decide
  obtain ⟨-, -, hlength, -, hfits, -⟩ :=
    timed_moves_arrive Rehearsal.backend hstage rfl (by decide) (by decide)
  rw [htick] at hlength hfits
  obtain ⟨-, hsum, -⟩ := hfits (by decide)
  exact ⟨hstage, hlength.trans (by decide), hsum rfl⟩

/-- With the longest tick of all, the same move is passed over. -/
theorem longest_tick_loses_a_move :
    let event : Event := ⟨0, .move .relative 10 10 2, 0⟩
    let settings : Settings := ⟨18446744073709551615, false⟩
    let run := (ofTimeline settings [event] Rehearsal.smooth 0).nth Rehearsal.backend id 5
    (Script.compile .linux (ascii "0>mousemove rel 10 10 2")).timeline = [event] ∧
      stepCount 2 settings.effectiveTick = 0 ∧
      UInt64.toNat 2 ⌈/⌉ settings.effectiveTick.toNat = 1 ∧
      run.stage = .ended .completed ∧ run.log = [] := by
  intro event settings run
  have hdue : UInt64.toNat 2 ⌈/⌉ settings.effectiveTick.toNat = 1 := by
    rw [Nat.ceilDiv_eq_add_pred_div]
    decide
  have hover : run.isOver = true := by decide +kernel
  obtain ⟨outcome, hs⟩ := exists_of_isOver hover
  have hcompleted : run.outcome? = some .completed := by decide +kernel
  rw [outcome?, hs] at hcompleted
  cases hcompleted
  exact ⟨by decide +kernel, by decide, hdue, hs, by decide +kernel⟩

end Run

end TimedInput
