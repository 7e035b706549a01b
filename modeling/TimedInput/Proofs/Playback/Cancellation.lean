import TimedInput.Backend.Rehearsal
import TimedInput.Proofs.Playback.Undisturbed

/-!
# Cancellation

A run that is asked to cancel is compared with the same run when it is not. Up to the
first wait after the request both do the same, at whatever instants their steps are made.
There the first one turns to releasing what it holds at that point. If no wait is left, the
request comes too late and has no effect at all.
-/

namespace TimedInput

variable {σ : Type}

theorem Rehearsal.answersByCalls (r : Rehearsal) : backend.AnswersByCalls r := by
  refine ⟨fun calls => match calls.getLast? with
    | some call =>
      !(r.failing.contains call.record || r.failingAt.contains (r.count + calls.length - 1))
    | none => false, ?_⟩
  intro calls current h now call
  have hcurrent : current = { r with count := r.count + calls.length } := by
    induction h with
    | nil => rfl
    | @snoc calls current h now call ih =>
      rw [ih]
      simp [backend, perform, Nat.add_assoc]
  simp [hcurrent, backend, perform]

namespace Run

/-- The number of the first wait from the given step on. -/
def FirstPoll (plain : Nat → Run σ) (moment n : Nat) : Prop :=
  moment ≤ n ∧ (plain n).polls = true ∧ ∀ i, moment ≤ i → i < n → (plain i).polls = false

theorem FirstPoll.unique {plain : Nat → Run σ} {moment m n : Nat} (hm : FirstPoll plain moment m)
    (hn : FirstPoll plain moment n) : m = n := by
  obtain ⟨hmm, hmp, hmin⟩ := hm
  obtain ⟨hnm, hnp, hnmin⟩ := hn
  rcases Nat.lt_trichotomy m n with h | h | h
  · simp [hnmin m hmm h] at hmp
  · exact h
  · simp [hmin n hnm h] at hnp

theorem releasing_at_poll {backend : Backend σ} {run plain : Run σ}
    (houtline : run.outline = plain.outline) (hpolls : run.polls = true)
    (hcancel : run.cancelRequested = true) (now : Nat) :
    (run.step backend now).Releasing plain.log plain.state .cancelled := by
  rw [step_of_polls hpolls hcancel, ← log_eq_of_outline houtline, ← state_eq_of_outline houtline]
  exact run.releasing_drain .cancelled

section Twins

variable (backend : Backend σ) {settings : Settings} {timeline : Timeline} {device : σ}
variable {begun : Nat} {fresh : Run σ}
variable (hfresh : fresh = ofTimeline settings timeline device begun)
variable (hanswers : backend.AnswersByCalls device) (instants : Nat → Nat)
include hfresh

theorem tracked_nth (n : Nat) :
    (fresh.nth backend.passive instants n).Tracked backend device := by
  have h := tracked_follow backend.passive settings timeline device begun
    ((List.range n).map fun i => .step (instants i))
  rw [← hfresh, ← nth_eq_follow] at h
  exact h.of_passive

include hanswers

variable {backend}

/-- As long as it notices no request, a run does what the undisturbed one does. -/
theorem outline_move {moves : List Move} {n : Nat}
    (houtline : (fresh.follow backend moves).outline =
      (fresh.nth backend.passive instants n).outline)
    (hcancel : (fresh.follow backend moves).polls = true →
      (fresh.follow backend moves).cancelRequested = false) (m : Move) :
    (fresh.follow backend (moves ++ [m])).outline =
      (fresh.nth backend.passive instants (n + steps [m])).outline := by
  have hlog := log_eq_of_outline houtline
  have hled := tracked_follow backend settings timeline device begun moves
  have htwin := tracked_nth backend hfresh instants n
  rw [← hfresh] at hled
  unfold Tracked at hled htwin
  rw [follow_append]
  cases m with
  | cancel => exact (requestCancel_outline _).trans houtline
  | step now =>
    apply outline_step_eq houtline hcancel (unasked_nth backend hfresh instants n).1
    · -- the pointer is read before the first call, so both devices are still where they were
      intro timeline' hs
      have hphase := phase_follow backend settings timeline device begun moves
      rw [← hfresh] at hphase
      have hnil := log_of_opening hphase hs
      change backend.pointer _ = backend.pointer _
      rw [hnil] at hled
      rw [← hlog, hnil] at htwin
      rw [hled.eq_of_nil, htwin.eq_of_nil]
    · -- both devices have seen the calls of the same log
      intro call
      obtain ⟨answer, hanswer⟩ := hanswers
      have hok := hanswer _ _ htwin (instants n) call
      rw [hanswer _ _ hled now call, hlog, ← hok]
      rfl

theorem outline_follow {moves : List Move}
    (hunasked : (fresh.follow backend moves).cancelRequested = false) :
    (fresh.follow backend moves).outline =
      (fresh.nth backend.passive instants (steps moves)).outline := by
  induction moves using List.reverseRecOn with
  | nil => rfl
  | append_singleton moves m ih =>
    have hbefore : (fresh.follow backend moves).cancelRequested = false := by
      by_contra h
      rw [follow_append, cancelRequested_follow (by simpa using h) [m]] at hunasked
      cases hunasked
    have h := outline_move hfresh hanswers instants (ih hbefore) (fun _ => hbefore) m
    rwa [steps_append]

theorem outline_at_request {before : List Move} {m : Move}
    (hbefore : (fresh.follow backend before).cancelRequested = false) :
    (fresh.follow backend (before ++ [m])).outline =
      (fresh.nth backend.passive instants (steps (before ++ [m]))).outline := by
  rw [steps_append]
  exact outline_move hfresh hanswers instants (outline_follow hfresh hanswers instants hbefore)
    (fun _ => hbefore) m

/-- After a request, a run still does what the undisturbed one does, or it has come to a wait and
releases what is held there. -/
theorem follow_after_request {before : List Move} {m : Move}
    (hbefore : (fresh.follow backend before).cancelRequested = false)
    (hrequest : (fresh.follow backend (before ++ [m])).cancelRequested = true)
    (after : List Move) :
    let plain := fresh.nth backend.passive instants
    let moment := steps (before ++ [m])
    let run := fresh.follow backend (before ++ m :: after)
    (run.outline = (plain (moment + steps after)).outline ∧
        ∀ i, moment ≤ i → i < moment + steps after → (plain i).polls = false) ∨
      ∃ n, FirstPoll plain moment n ∧
        run.Releasing (plain n).log (plain n).state .cancelled := by
  intro plain moment
  induction after using List.reverseRecOn with
  | nil =>
    refine .inl ⟨?_, fun i hle hlt => absurd hlt (by simpa [steps] using hle)⟩
    exact outline_at_request hfresh hanswers instants hbefore
  | append_singleton after m' ih =>
    intro next
    let run := fresh.follow backend (before ++ m :: after)
    have hnext : next = run.move backend m' := by
      simp only [next, run, follow_append, follow_cons, follow_nil]
    rcases ih with ⟨houtline, hpolls⟩ | ⟨n, hn, h⟩
    · by_cases hpoll : run.polls = true
      · cases m' with
        | step now =>
          -- here the request is noticed
          have hcancel : run.cancelRequested = true := by
            simp only [run]
            rw [List.append_cons, follow_append]
            exact cancelRequested_follow hrequest after
          refine .inr ⟨moment + steps after, ⟨Nat.le_add_right .., ?_, hpolls⟩, ?_⟩
          · exact (polls_eq_of_outline houtline).symm.trans hpoll
          · rw [hnext]
            exact releasing_at_poll houtline hpoll hcancel now
        | cancel =>
          have hsteps : steps (after ++ [.cancel]) = steps after := by
            simp [steps, Move.isStep]
          rw [hsteps, hnext]
          exact .inl ⟨(requestCancel_outline run).trans houtline, hpolls⟩
      · have hplain : (plain (moment + steps after)).polls = false :=
          (polls_eq_of_outline houtline).symm.trans (eq_false_of_ne_true hpoll)
        refine .inl ⟨?_, ?_⟩
        · have h := outline_move hfresh hanswers instants houtline (fun h => absurd h hpoll) m'
          simpa [next, steps_append, Nat.add_assoc] using h
        · intro i hle hlt
          have hone : steps [m'] ≤ 1 := List.countP_le_length
          rw [steps_append] at hlt
          by_cases hi : i = moment + steps after
          · rw [hi]
            exact hplain
          · exact hpolls i hle (by omega)
    · refine .inr ⟨n, hn, ?_⟩
      rw [hnext]
      exact h.move m'

theorem cut_off_at_firstPoll {before after : List Move} {m : Move}
    (hbefore : (fresh.follow backend before).cancelRequested = false)
    (hrequest : (fresh.follow backend (before ++ [m])).cancelRequested = true)
    (hover : (fresh.follow backend (before ++ m :: after)).isOver = true) {n : Nat}
    (hn : FirstPoll (fresh.nth backend.passive instants) (steps (before ++ [m])) n) :
    let run := fresh.follow backend (before ++ m :: after)
    let cut := fresh.nth backend.passive instants n
    run.stage = .ended .cancelled ∧
      ∃ drained, run.log = cut.log ++ drained ∧ (∀ a ∈ drained, a.purpose = .drain) ∧
        drained.map (·.call) = cut.state.releases := by
  rcases follow_after_request hfresh hanswers instants hbefore hrequest after with
    ⟨houtline, hpolls⟩ | ⟨k, hk, h⟩
  · -- a run that is over waits for nothing, so no wait can be left
    rw [isOver_eq_of_outline houtline] at hover
    have hnot := hpolls n hn.1 (lt_of_polls_nth hover hn.2.1)
    rw [hn.2.1] at hnot
    cases hnot
  · obtain rfl := hk.unique hn
    obtain ⟨hstage, -, hback⟩ := h.of_over hover
    exact ⟨hstage, hback⟩

theorem unaffected_without_poll {before after : List Move} {m : Move}
    (hbefore : (fresh.follow backend before).cancelRequested = false)
    (hrequest : (fresh.follow backend (before ++ [m])).cancelRequested = true)
    (hover : (fresh.follow backend (before ++ m :: after)).isOver = true) {last : Nat}
    (hlast : (fresh.nth backend.passive instants last).isOver = true)
    (hno : ¬∃ n, FirstPoll (fresh.nth backend.passive instants) (steps (before ++ [m])) n) :
    let run := fresh.follow backend (before ++ m :: after)
    let whole := fresh.nth backend.passive instants last
    run.log = whole.log ∧
      ∃ outcome, outcome ≠ .cancelled ∧ run.stage = .ended outcome ∧
        whole.stage = .ended outcome := by
  intro run whole
  rcases follow_after_request hfresh hanswers instants hbefore hrequest after with
    ⟨houtline, -⟩ | ⟨n, hn, -⟩
  · rw [isOver_eq_of_outline houtline] at hover
    have hend : run.outline = whole.outline := by
      rw [houtline, nth_eq_of_isOver hover hlast]
    obtain ⟨outcome, hstage⟩ := exists_of_isOver hlast
    have hunasked := (unasked_nth backend hfresh instants last).2
    refine ⟨?_, outcome, ?_, ?_, hstage⟩
    · exact log_eq_of_outline hend
    · rintro rfl
      simp [outcome?, hstage] at hunasked
    · exact (stage_ended_of_outline hend).mpr hstage
  · exact absurd ⟨n, hn⟩ hno

end Twins

/-- A run is asked to cancel by the move `m`, while it plays on a backend whose answers depend on
the calls made so far. It is compared with the run that nothing disturbs. The request is noticed at
the first wait from then on, if the undisturbed run comes to one. The calls for events are then
those that the undisturbed run has made up to there, and what follows lets go of the keys and then
of the buttons that are held there, in ascending order. If there is no such wait, both runs make
the same calls and end in the same way. -/
theorem cancellation_law {backend : Backend σ} (settings : Settings) (timeline : Timeline)
    {device : σ} (begun : Nat) (hanswers : backend.AnswersByCalls device) (instants : Nat → Nat)
    {before : List Move} {m : Move}
    (hbefore : ((ofTimeline settings timeline device begun).follow backend
      before).cancelRequested = false)
    (hrequest : ((ofTimeline settings timeline device begun).follow backend
      (before ++ [m])).cancelRequested = true) :
    let fresh := ofTimeline settings timeline device begun
    let plain := fresh.nth backend.passive instants
    let moment := steps (before ++ [m])
    (fresh.follow backend (before ++ [m])).log = (plain moment).log ∧
    (∃ last, (plain last).isOver = true) ∧
    (∃ after, (fresh.follow backend (before ++ m :: after)).isOver = true) ∧
    ∀ last after,
      let run := fresh.follow backend (before ++ m :: after)
      (plain last).isOver = true → run.isOver = true →
      (run.stage = .ended .cancelled ↔ ∃ n, FirstPoll plain moment n) ∧
      (∀ n, FirstPoll plain moment n →
        n < last ∧ dispatched run.log = (plain n).log ∧
        (plain n).log <+: dispatched (plain last).log ∧
        ∃ drained, run.log = (plain n).log ++ drained ∧ (∀ a ∈ drained, a.purpose = .drain) ∧
          drained.map (·.call) =
            (plain n).state.keys.map .keyUp ++ (plain n).state.buttons.map .buttonUp ∧
          (plain n).state.keys.Pairwise (· < ·) ∧ (plain n).state.buttons.Pairwise (· < ·) ∧
          ∀ sw : Switch, sw.Held (plain n).state ↔
            (presses sw (plain n).log).getLast? = some .down) ∧
      ((¬∃ n, FirstPoll plain moment n) →
        run.log = (plain last).log ∧ ∃ outcome, outcome ≠ .cancelled ∧
          run.stage = .ended outcome ∧ (plain last).stage = .ended outcome) := by
  intro fresh plain moment
  have hfresh : fresh = ofTimeline settings timeline device begun := rfl
  refine ⟨?_, exists_nth_isOver .., ?_, ?_⟩
  · exact log_eq_of_outline (outline_at_request hfresh hanswers instants hbefore)
  · obtain ⟨n, hn⟩ := exists_nth_isOver backend instants (fresh.follow backend (before ++ [m]))
    rw [nth_eq_follow, ← follow_append, ← List.append_cons] at hn
    exact ⟨_, hn⟩
  intro last after run hlast hover
  have hcut : ∀ n, FirstPoll plain moment n → _ := fun n hn =>
    cut_off_at_firstPoll hfresh hanswers instants hbefore hrequest hover hn
  have hlate := unaffected_without_poll hfresh hanswers instants hbefore hrequest hover hlast
  refine ⟨⟨?_, fun ⟨n, hn⟩ => (hcut n hn).1⟩, ?_, hlate⟩
  · intro hstage
    by_contra hno
    obtain ⟨-, outcome, hne, hended, -⟩ := hlate hno
    rw [hended] at hstage
    cases hstage
    exact hne rfl
  · intro n hn
    have hfirst := InputState.ordered_empty (backend.pointer device)
    have hplayed := (phase_nth backend hfresh instants n).of_polls hn.2.1
    have hlt : n < last := lt_of_polls_nth hlast hn.2.1
    have hdispatch : ∀ a ∈ (plain n).log, a.purpose = .dispatch :=
      fun a ha => (hplayed.dispatched a ha).1
    have hprefix : (plain n).log <+: dispatched (plain last).log := by
      have hwhole := log_prefix_nth backend.passive instants fresh hlt.le
      have h := hwhole.filter (·.purpose = .dispatch)
      rwa [← dispatched, dispatched_eq_self hdispatch] at h
    obtain ⟨-, drained, hlog, hdrained, hcalls⟩ := hcut n hn
    have hordered : (plain n).state.Ordered := by
      rw [hplayed.state_eq]
      exact hfirst.replay _
    refine ⟨hlt, ?_, hprefix, drained, hlog, hdrained, hcalls, hordered.1, hordered.2, ?_⟩
    · rw [hlog]
      exact dispatched_append_drained hdispatch hdrained
    · intro sw
      rw [hplayed.state_eq]
      exact InputState.held_replay_iff hfirst (sw.position_empty _) _

theorem cancellation_law_within_call :
    let fresh := ofTimeline .standard
      [⟨0, .key .down ⟨65⟩, 0⟩, ⟨10, .key .down ⟨66⟩, 1⟩] Rehearsal.smooth 0
    let before : List Move := [.step 0, .step 0, .step 0]
    let run := fresh.follow Rehearsal.backend (before ++ .cancel :: List.replicate 6 (.step 0))
    (fresh.follow Rehearsal.backend before).cancelRequested = false ∧
      (fresh.follow Rehearsal.backend (before ++ [.cancel])).cancelRequested = true ∧
      run.isOver = true ∧ run.stage = .ended .cancelled ∧
      dispatched run.log = [⟨.dispatch, .keyDown ⟨65⟩, true⟩] := by
  intro fresh before run
  have hbefore : (fresh.follow Rehearsal.backend before).cancelRequested = false := rfl
  have hrequest : (fresh.follow Rehearsal.backend (before ++ [.cancel])).cancelRequested = true :=
    rfl
  have hover : run.isOver = true := rfl
  have hlaw := cancellation_law .standard _ 0 (Rehearsal.answersByCalls .smooth) (fun _ => 0)
    hbefore hrequest
  obtain ⟨hended, hcut, -⟩ := hlaw.2.2.2 15 _ rfl hover
  have hpoll : FirstPoll (fresh.nth Rehearsal.backend.passive fun _ => 0) 3 5 := by
    refine ⟨by omega, rfl, ?_⟩
    intro i hle hlt
    obtain rfl | rfl : i = 3 ∨ i = 4 := by omega
    · rfl
    · rfl
  exact ⟨hbefore, hrequest, hover, hended.mpr ⟨5, hpoll⟩, (hcut 5 hpoll).2.1⟩

end Run

end TimedInput
