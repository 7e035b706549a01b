import TimedInput.Proofs.Playback.Course

/-!
# Progress

A run between two of its events makes the calls of the next one, in their order, until it has
made them all, or a call fails, or a request to cancel is noticed at a wait. So what a run has
done of an event is always a part of its calls from the first one on.
-/

namespace TimedInput

theorem Call.of_drop_eq_cons {calls rest : List Call} {call : Call} {k : Nat}
    (h : calls.drop k = call :: rest) :
    k < calls.length ∧ calls[k]? = some call ∧ calls.drop (k + 1) = rest ∧
      calls.take (k + 1) = calls.take k ++ [call] := by
  have hget : calls[k]? = some call := by
    rw [← List.head?_drop, h]
    rfl
  refine ⟨(List.getElem?_eq_some_iff.mp hget).1, hget, ?_, ?_⟩
  · rw [← List.tail_drop, h]
    rfl
  · rw [List.take_add_one, hget]
    rfl

namespace Run

variable {σ : Type} {backend : Backend σ}

/-- The run is what `first` becomes when so many of the calls have come back. -/
def Past (run first : Run σ) (calls : List Call) (k : Nat) : Prop :=
  run.log = first.log ++ (calls.take k).map .success ∧
    run.state = first.state.replay ((calls.take k).map .success)

/-- The run makes the calls, of which `k` have come back, and no other event has begun. -/
def Carrying (run first : Run σ) (calls : List Call) (rest : Timeline) (k : Nat) : Prop :=
  match run.stage with
  | .await todo =>
    todo.rest = rest ∧ Glide.callsOf todo.glide = calls.drop k ∧ run.Past first calls k
  | .issue pending (.proceed todo) =>
    todo.rest = rest ∧ pending ++ Glide.callsOf todo.glide = calls.drop k ∧
      run.Past first calls k
  | .answer call ok pending (.proceed todo) =>
    todo.rest = rest ∧ call :: (pending ++ Glide.callsOf todo.glide) = calls.drop k ∧
      run.log = first.log ++ (calls.take k).map .success ++ [⟨.dispatch, call, ok⟩] ∧
      run.state = first.state.replay ((calls.take k).map .success)
  | _ => False

/-- The run was stopped with `k` of the calls made, by a request to cancel or by the next call. -/
structure Stopped (run first : Run σ) (calls : List Call) (k : Nat) : Prop where
  lt : k < calls.length
  pointer_eq : run.state.pointer = (first.state.replay ((calls.take k).map .success)).pointer
  releasing : ∃ held,
    run.Releasing (first.log ++ (calls.take k).map .success) held .cancelled ∨
    ∃ call, calls[k]? = some call ∧
      run.Releasing (first.log ++ (calls.take k).map .success ++ [⟨.dispatch, call, false⟩]) held
        .failed

variable {first run : Run σ} {calls : List Call} {rest : Timeline} {k : Nat}

theorem Stopped.move (h : run.Stopped first calls k) (m : Move) :
    (run.move backend m).Stopped first calls k := by
  obtain ⟨hlt, hpointer, held, hreleasing⟩ := h
  refine ⟨hlt, ?_, held, ?_⟩
  · cases m with
    | step now =>
      rcases hreleasing with h | ⟨call, -, h⟩
      · exact (h.pointer_step now).trans hpointer
      · exact (h.pointer_step now).trans hpointer
    | cancel =>
      change run.requestCancel.state.pointer = _
      rw [requestCancel_state]
      exact hpointer
  · rcases hreleasing with h | ⟨call, hcall, h⟩
    · exact .inl (h.move m)
    · exact .inr ⟨call, hcall, h.move m⟩

theorem Carrying.step (h : run.Carrying first calls rest k)
    (hopen : run.stage ≠ .await ⟨none, rest⟩) (now : Nat) :
    (∃ k, (run.step backend now).Carrying first calls rest k) ∨
      (run.step backend now).Stopped first calls k := by
  have ht := run.step_transition backend now
  generalize run.step backend now = next at ht
  unfold Carrying at h
  cases ht with
  | opened hs => simp only [hs] at h
  | cancelled hpolls hcancel =>
    obtain ⟨⟨glide, later⟩, hs, -⟩ := exists_of_polls hpolls
    simp only [hs] at h
    obtain ⟨rfl, hcalls, hlog, hstate⟩ := h
    cases glide with
    | none => exact absurd hs hopen
    | some glide =>
      rw [Glide.callsOf, Option.elim_some, glide.calls_eq] at hcalls
      obtain ⟨hlt, -⟩ := Call.of_drop_eq_cons hcalls.symm
      refine .inr ⟨hlt, congrArg InputState.pointer hstate, run.state, .inl ?_⟩
      rw [← hlog]
      exact run.releasing_drain .cancelled
  | began hs =>
    simp only [hs] at h
    obtain ⟨rfl, -, -⟩ := h
    exact absurd hs hopen
  | @glided glide later hs =>
    simp only [hs] at h
    obtain ⟨hrest, hcalls, hlog, hstate⟩ := h
    rw [Glide.callsOf, Option.elim_some, glide.calls_eq] at hcalls
    exact .inl ⟨k, hrest, hcalls, hlog, hstate⟩
  | exhausted hs =>
    simp only [hs] at h
    obtain ⟨rfl, -, -⟩ := h
    exact absurd hs hopen
  | @called call pending next hs =>
    cases next with
    | finish outcome => simp only [hs] at h
    | proceed todo =>
      simp only [hs] at h
      obtain ⟨hrest, hcalls, hlog, hstate⟩ := h
      refine .inl ⟨k, hrest, hcalls, ?_, hstate⟩
      rw [log_beginCall, hlog]
      rfl
  | @returned call pending todo hs =>
    simp only [hs] at h
    obtain ⟨hrest, hcalls, hlog, hstate⟩ := h
    obtain ⟨-, -, hdrop, htake⟩ := Call.of_drop_eq_cons hcalls.symm
    refine .inl ⟨k + 1, hrest, hdrop.symm, ?_, ?_⟩
    · change run.log = _
      rw [hlog, htake, List.map_append, List.append_assoc]
      rfl
    · change run.state.after call = _
      rw [hstate, htake, List.map_append, InputState.replay_append]
      rfl
  | @failed call pending todo hs =>
    simp only [hs] at h
    obtain ⟨hrest, hcalls, hlog, hstate⟩ := h
    obtain ⟨hlt, hget, -, -⟩ := Call.of_drop_eq_cons hcalls.symm
    refine .inr ⟨hlt, congrArg InputState.pointer hstate, run.state, .inr ⟨call, hget, ?_⟩⟩
    rw [← hlog]
    exact releasing_drain { run with fault := some call } .failed
  | released hs => simp only [hs] at h
  | proceeded hs =>
    simp only [hs] at h
    obtain ⟨hrest, hcalls, hlog, hstate⟩ := h
    exact .inl ⟨k, hrest, hcalls, hlog, hstate⟩
  | published hs => simp only [hs] at h
  | settled hs => simp only [hs] at h

theorem Carrying.move (h : run.Carrying first calls rest k)
    (hopen : run.stage ≠ .await ⟨none, rest⟩) (m : Move) :
    (∃ k, (run.move backend m).Carrying first calls rest k) ∨
      (run.move backend m).Stopped first calls k := by
  cases m with
  | step now => exact h.step hopen now
  | cancel =>
    refine .inl ⟨k, ?_⟩
    change run.requestCancel.Carrying first calls rest k
    simpa [Carrying, Past] using h

section Event

variable (backend : Backend σ) {event : Event}
variable (hstage : first.stage = .await ⟨none, event :: rest⟩)
variable (hcalls : event.calls first.settings first.state ≠ [])
include hstage hcalls

theorem move_waiting (asked : Bool) (m : Move) :
    let next := Run.move backend { first with cancelRequested := asked } m
    (∃ asked, next = { first with cancelRequested := asked }) ∨
      next.Carrying first (event.calls first.settings first.state) rest 0 ∨
      next.Stopped first (event.calls first.settings first.state) 0 := by
  intro next
  let run : Run σ := { first with cancelRequested := asked }
  have hnext : next = run.move backend m := rfl
  cases m with
  | cancel =>
    left
    have hopen : run.isOver = false := by simp [isOver, Stage.isOver, run, hstage]
    refine ⟨true, ?_⟩
    rw [hnext, move, requestCancel, if_neg (by simp [hopen])]
  | step now =>
    right
    rw [hnext, move]
    have ht := run.step_transition backend now
    generalize run.step backend now = next at ht
    cases ht with
    | cancelled =>
      refine .inr ⟨List.length_pos_iff.mpr hcalls, rfl, first.state, .inl ?_⟩
      have hlog : run.log = first.log ++ [] := (List.append_nil _).symm
      exact hlog ▸ run.releasing_drain .cancelled
    | began hs =>
      cases hstage.symm.trans hs
      refine .inl ⟨rfl, run.calls_dispatch event, ?_, rfl⟩
      rw [log_began, List.take_zero, List.map_nil, List.append_nil]
      rfl
    | _ hs => cases hstage.symm.trans hs

theorem follow_event (moves : List Move) :
    let calls := event.calls first.settings first.state
    let run := first.follow backend moves
    (∃ asked, run = { first with cancelRequested := asked }) ∨
    (∃ k, run.Carrying first calls rest k) ∨
    (∃ earlier, earlier <+: moves ∧ (first.follow backend earlier).stage = .await ⟨none, rest⟩ ∧
      (first.follow backend earlier).Past first calls calls.length) ∨
    ∃ k, run.Stopped first calls k := by
  intro calls
  induction moves using List.reverseRecOn with
  | nil => exact .inl ⟨first.cancelRequested, rfl⟩
  | append_singleton moves m ih =>
    intro run
    have hrun : run = (first.follow backend moves).move backend m := follow_append ..
    rcases ih with ⟨asked, hsame⟩ | ⟨k, hcarrying⟩ | ⟨earlier, hprefix, hpast⟩ | ⟨k, hstopped⟩
    · rw [hrun, hsame]
      rcases move_waiting backend hstage hcalls asked m with hwaiting | hcarrying | hstopped
      · exact .inl hwaiting
      · exact .inr (.inl ⟨0, hcarrying⟩)
      · exact .inr (.inr (.inr ⟨0, hstopped⟩))
    · by_cases hopen : (first.follow backend moves).stage = .await ⟨none, rest⟩
      · -- nothing is left to call
        unfold Carrying at hcarrying
        simp only [hopen] at hcarrying
        obtain ⟨-, hdone, hpast⟩ := hcarrying
        refine .inr (.inr (.inl ⟨moves, List.prefix_append _ _, hopen, ?_⟩))
        have hall : calls.length ≤ k := List.drop_eq_nil_iff.mp hdone.symm
        unfold Past at *
        rw [List.take_of_length_le hall] at hpast
        rwa [List.take_length]
      · rw [hrun]
        rcases hcarrying.move hopen m with hcarrying | hstopped
        · exact .inr (.inl hcarrying)
        · exact .inr (.inr (.inr ⟨k, hstopped⟩))
    · exact .inr (.inr (.inl ⟨earlier, hprefix.trans (List.prefix_append _ _), hpast⟩))
    · rw [hrun]
      exact .inr (.inr (.inr ⟨k, hstopped.move m⟩))

/-- A run whose end is settled has made all the calls of the event and gone on to the next one, or
it has made the first of them, and then it was cancelled or the next one has failed. -/
theorem event_of_settled {moves : List Move} {outcome : Outcome}
    (hsettled : (first.follow backend moves).outcome? = some outcome) :
    let calls := event.calls first.settings first.state
    let run := first.follow backend moves
    (∃ earlier, earlier <+: moves ∧ (first.follow backend earlier).stage = .await ⟨none, rest⟩ ∧
      (first.follow backend earlier).Past first calls calls.length) ∨
    ∃ k < calls.length,
      run.state.pointer = (first.state.replay ((calls.take k).map .success)).pointer ∧
      ∃ back, (∀ a ∈ back, a.purpose = .drain) ∧
        (outcome = .cancelled ∧
            run.log = first.log ++ (calls.take k).map .success ++ back ∨
          outcome = .failed ∧ ∃ call, calls[k]? = some call ∧
            run.log =
              first.log ++ (calls.take k).map .success ++ ⟨.dispatch, call, false⟩ :: back) := by
  intro calls run
  change run.outcome? = some outcome at hsettled
  rcases follow_event backend hstage hcalls moves with
    ⟨asked, hsame⟩ | ⟨k, hcarrying⟩ | hpassed | ⟨k, hlt, hpointer, held, hreleasing⟩
  · have hopen : run.outcome? = none := by simp [run, hsame, outcome?, hstage]
    rw [hopen] at hsettled
    cases hsettled
  · change run.Carrying first calls rest k at hcarrying
    unfold outcome? at hsettled
    unfold Carrying at hcarrying
    split at hsettled <;> simp_all
  · exact .inl hpassed
  · refine .inr ⟨k, hlt, hpointer, ?_⟩
    rcases hreleasing with h | ⟨call, hcall, h⟩
    · obtain ⟨back, -, hlog, hdrain, -⟩ := h.exists_back
      have houtcome := Option.some.inj (hsettled.symm.trans h.outcome?)
      exact ⟨back, hdrain, .inl ⟨houtcome, hlog⟩⟩
    · obtain ⟨back, -, hlog, hdrain, -⟩ := h.exists_back
      have houtcome := Option.some.inj (hsettled.symm.trans h.outcome?)
      refine ⟨back, hdrain, .inr ⟨houtcome, call, hcall, ?_⟩⟩
      rw [hlog, List.append_assoc, List.singleton_append]

end Event

theorem Carrying.exists_calls (h : run.Carrying first calls rest k) :
    ∃ j, run.log.map (·.call) = first.log.map (·.call) ++ calls.take j := by
  unfold Carrying at h
  split at h
  · obtain ⟨-, -, hlog, -⟩ := h
    exact ⟨k, by rw [hlog, List.map_append, Attempt.map_call_success]⟩
  · obtain ⟨-, -, hlog, -⟩ := h
    exact ⟨k, by rw [hlog, List.map_append, Attempt.map_call_success]⟩
  · obtain ⟨-, hdrop, hlog, -⟩ := h
    obtain ⟨-, -, -, htake⟩ := Call.of_drop_eq_cons hdrop.symm
    refine ⟨k + 1, ?_⟩
    rw [hlog, htake, List.map_append, List.map_append, Attempt.map_call_success, List.append_assoc]
    rfl
  · exact h.elim

theorem Stopped.exists_calls (h : run.Stopped first calls k) :
    ∃ j, ∃ back : List Attempt, run.log.map (·.call) =
        first.log.map (·.call) ++ calls.take j ++ back.map (·.call) ∧
      ∀ a ∈ back, a.purpose = .drain := by
  obtain ⟨-, -, held, h | ⟨call, hcall, h⟩⟩ := h
  · obtain ⟨back, -, hlog, hdrain, -⟩ := h.exists_back
    refine ⟨k, back, ?_, hdrain⟩
    rw [hlog, List.map_append, List.map_append, Attempt.map_call_success]
  · -- the call that failed was made
    obtain ⟨back, -, hlog, hdrain, -⟩ := h.exists_back
    refine ⟨k + 1, back, ?_, hdrain⟩
    rw [hlog, List.take_add_one, hcall, List.map_append, List.map_append, List.map_append,
      Attempt.map_call_success, List.append_assoc (first.log.map (·.call))]
    rfl

/-- What a run calls after it has waited for an event: calls of the event, from the first one on,
and nothing but releases after them unless they are all made. -/
theorem exists_calls_since (backend : Backend σ) {event : Event}
    (hstage : first.stage = .await ⟨none, event :: rest⟩) (moves : List Move) :
    let calls := event.calls first.settings first.state
    let run := first.follow backend moves
    ∃ k, ∃ back : List Attempt, run.log.map (·.call) =
        first.log.map (·.call) ++ calls.take k ++ back.map (·.call) ∧
      (k < calls.length → ∀ a ∈ back, a.purpose = .drain) := by
  intro calls run
  by_cases hcalls : calls = []
  · obtain ⟨back, hback⟩ := first.log_prefix_follow backend moves
    refine ⟨0, back, ?_, ?_⟩
    · rw [← hback, List.map_append, List.take_zero, List.append_nil]
    · rw [hcalls]
      exact fun hlt => absurd hlt (Nat.lt_irrefl 0)
  have hfollow : run = first.follow backend moves := rfl
  rcases follow_event backend hstage hcalls moves with
    ⟨asked, hsame⟩ | ⟨k, hcarrying⟩ | ⟨earlier, ⟨more, hmore⟩, -, hlog, -⟩ | ⟨k, hstopped⟩
  · refine ⟨0, [], ?_, fun _ => nofun⟩
    rw [hfollow, hsame, List.take_zero, List.append_nil, List.map_nil, List.append_nil]
    rfl
  · obtain ⟨j, hlog⟩ := hcarrying.exists_calls
    refine ⟨j, [], ?_, fun _ => nofun⟩
    rw [List.map_nil, List.append_nil]
    exact hlog
  · obtain ⟨back, hback⟩ := (first.follow backend earlier).log_prefix_follow backend more
    refine ⟨calls.length, back, ?_, fun hlt => absurd hlt (Nat.lt_irrefl _)⟩
    rw [← follow_append, hmore, ← hfollow, hlog] at hback
    rw [← hback, List.map_append, List.map_append, Attempt.map_call_success]
  · obtain ⟨j, back, hlog, hdrain⟩ := hstopped.exists_calls
    exact ⟨j, back, hlog, fun _ => hdrain⟩

end Run

end TimedInput
