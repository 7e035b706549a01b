import TimedInput.Proofs.Playback.Schedule

/-!
# The phases of a run

A run first dispatches and then releases. While it dispatches, its input state is what its
log makes of the state at the start. From then on it makes the calls that let go of what is
held at that moment, and nothing else, until nothing is held.
-/

namespace TimedInput

namespace Run

variable {σ : Type}

/-- All that a request to cancel changes is whether there is one. -/
theorem exists_requestCancel_eq (run : Run σ) :
    ∃ asked, run.requestCancel = { run with cancelRequested := asked } := by
  unfold requestCancel
  split
  · exact ⟨run.cancelRequested, rfl⟩
  · exact ⟨true, rfl⟩

/-- What every step keeps, and a request to cancel has no bearing on, is kept by every move. -/
theorem move_keeps {backend : Backend σ} {P : Run σ → Prop} {run : Run σ}
    (hstep : ∀ now, P (run.step backend now))
    (hcancel : ∀ asked, P { run with cancelRequested := asked }) (m : Move) :
    P (run.move backend m) := by
  cases m with
  | step now => exact hstep now
  | cancel =>
    change P run.requestCancel
    obtain ⟨asked, hasked⟩ := run.exists_requestCancel_eq
    rw [hasked]
    exact hcancel asked

@[simp] theorem requestCancel_stage (run : Run σ) : run.requestCancel.stage = run.stage := by
  unfold requestCancel
  split <;> rfl

@[simp] theorem requestCancel_state (run : Run σ) : run.requestCancel.state = run.state := by
  unfold requestCancel
  split <;> rfl

@[simp] theorem requestCancel_device (run : Run σ) : run.requestCancel.device = run.device := by
  unfold requestCancel
  split <;> rfl

@[simp] theorem requestCancel_log (run : Run σ) : run.requestCancel.log = run.log := by
  unfold requestCancel
  split <;> rfl

theorem log_beginCall (backend : Backend σ) (run : Run σ) (now : Nat) (call : Call)
    (calls : List Call) (next : Next) :
    (run.beginCall backend now call calls next).log =
      run.log ++ [⟨next.purpose, call, (backend.perform now call run.device).1.ok⟩] :=
  attempts_cons _ _

theorem log_began (run : Run σ) (stage : Stage) (now : Nat) (event : Event) :
    { run with stage, history := .began now event :: run.history }.log = run.log := by
  simp [log, attempts_cons, Entry.attempt?]

theorem log_released (run : Run σ) (state : InputState) (stage : Stage) (now : Nat) (call : Call)
    (ok : Bool) :
    { run with
      state, stage
      history := if ok then run.history else .stuck now call :: run.history }.log = run.log := by
  cases ok <;> simp [log, attempts_cons, Entry.attempt?]

theorem call_ne_of_glide (glide : Glide) (sw : Switch) (press : Press) :
    glide.call ≠ sw.call press := by
  unfold Glide.call
  cases glide.mode <;> cases sw <;> cases press <;> simp [Switch.call]

/-- Only what is held is let go of, and only what is not held is pressed. -/
theorem orderly_dispatch (run : Run σ) (hs : run.state.Ordered) (event : Event) :
    run.state.Orderly ((run.dispatch event).1.map .success) := by
  unfold dispatch
  cases event.action with
  | unknown => trivial
  | move mode x y duration =>
    apply InputState.orderly_of_idle
    intro a ha sw press
    by_cases hd : duration = 0
    · cases mode <;> cases sw <;> cases press <;> simp_all [Attempt.success, Switch.call]
    · simp [hd] at ha
  | button press n =>
    apply InputState.orderly_optional (.button n) press
    by_cases hheld : n ∈ run.state.buttons <;> cases press <;>
      simp [hheld, Switch.Held, Switch.call]
  | key press code =>
    apply InputState.orderly_optional (.key code) press
    by_cases hheld : code ∈ run.state.keys <;> cases press <;>
      simp [hheld, Switch.Held, Switch.call]
  | release target =>
    let chosen : List Switch :=
      (if target.includesKeys then run.state.keys.map .key else []) ++
        (if target.includesMouse then run.state.buttons.map .button else [])
    have hsub : chosen.Sublist run.state.switches := by
      apply List.Sublist.append <;> split <;> simp
    apply InputState.orderly_releases hs chosen
    · rw [Attempt.map_call_success, InputState.keyReleases_eq, InputState.buttonReleases_eq]
      simp only [chosen]
      split <;> split <;> simp
    · exact hs.nodup_switches.sublist hsub
    · exact fun sw hsw => InputState.mem_switches.mp (hsub.subset hsw)
  | text payload =>
    apply InputState.orderly_of_idle
    intro a ha sw press
    obtain ⟨call, hcall, rfl⟩ := List.mem_map.mp ha
    obtain ⟨c, -, rfl⟩ := List.mem_map.mp hcall
    cases sw <;> cases press <;> simp [Attempt.success, Switch.call]

/-- The log has led from the first state to this one by calls for events that all succeeded. -/
structure Played (first : InputState) (log : List Attempt) (state : InputState) : Prop where
  orderly : first.Orderly log
  dispatched : ∀ a ∈ log, a.purpose = .dispatch ∧ a.ok = true
  state_eq : state = first.replay log

/-- The run has not begun to release what it holds. -/
def Dispatching (backend : Backend σ) (first : InputState) (run : Run σ) : Prop :=
  match run.stage with
  | .opening _ =>
    run.log = [] ∧ run.state = .empty ∧ first = ⟨[], [], backend.pointer run.device⟩
  | .await _ => Played first run.log run.state
  | .issue calls (.proceed _) =>
    Played first run.log run.state ∧ run.state.Orderly (calls.map .success)
  | .answer call ok calls (.proceed _) =>
    ∃ done, run.log = done ++ [⟨.dispatch, call, ok⟩] ∧ Played first done run.state ∧
      run.state.Orderly ((call :: calls).map .success)
  | _ => False

/-- The run has made the calls of `front` and releases what is held after them. -/
def Releasing (front : List Attempt) (held : InputState) (outcome : Outcome) (run : Run σ) :
    Prop :=
  ∃ back, run.log = front ++ back ∧ (∀ a ∈ back, a.purpose = .drain) ∧
    match run.stage with
    | .issue calls (.finish o) =>
      o = outcome ∧ back.map (·.call) ++ calls = held.releases ∧ run.state.releases = calls
    | .answer call _ calls (.finish o) =>
      o = outcome ∧ back.map (·.call) ++ calls = held.releases ∧
        run.state.releases = call :: calls
    | .ended o => o = outcome ∧ back.map (·.call) = held.releases ∧ run.state.releases = []
    | _ => False

theorem releasing_drain (run : Run σ) (outcome : Outcome) :
    Releasing run.log run.state outcome (run.drain outcome) :=
  ⟨[], (List.append_nil _).symm, nofun, rfl, rfl, rfl⟩

theorem Releasing.step {backend : Backend σ} {front : List Attempt} {held : InputState}
    {outcome : Outcome} {run : Run σ} (h : run.Releasing front held outcome) (now : Nat) :
    (run.step backend now).Releasing front held outcome := by
  obtain ⟨back, hlog, hdrain, hstage⟩ := h
  have ht := run.step_transition backend now
  generalize run.step backend now = next at ht
  cases ht with
  | opened h => simp [h] at hstage
  | cancelled h =>
    obtain ⟨todo, hs, -⟩ := exists_of_polls h
    simp [hs] at hstage
  | began h => simp [h] at hstage
  | glided h => simp [h] at hstage
  | exhausted h => simp [h] at hstage
  | @called call calls next h =>
    cases next with
    | proceed todo => simp [h] at hstage
    | finish o =>
      simp only [h] at hstage
      obtain ⟨rfl, hback, hreleases⟩ := hstage
      refine ⟨back ++ [⟨.drain, call, (backend.perform now call run.device).1.ok⟩], ?_, ?_, ?_⟩
      · rw [log_beginCall, hlog, List.append_assoc]
        rfl
      · intro a ha
        rcases List.mem_append.mp ha with ha | ha
        · exact hdrain a ha
        · rw [List.mem_singleton.mp ha]
      · exact ⟨rfl, by simpa using hback, hreleases⟩
  | returned h => simp [h] at hstage
  | failed h => simp [h] at hstage
  | released h =>
    simp only [h] at hstage
    obtain ⟨rfl, hback, hreleases⟩ := hstage
    refine ⟨back, ?_, hdrain, rfl, hback, InputState.releases_after hreleases⟩
    rw [log_released, hlog]
  | proceeded h => simp [h] at hstage
  | published h =>
    simp only [h] at hstage
    obtain ⟨rfl, hback, hreleases⟩ := hstage
    exact ⟨back, hlog, hdrain, rfl, by simpa using hback, hreleases⟩
  | settled h => exact ⟨back, hlog, hdrain, hstage⟩

theorem Releasing.move {backend : Backend σ} {front : List Attempt} {held : InputState}
    {outcome : Outcome} {run : Run σ} (h : run.Releasing front held outcome) (m : Move) :
    (run.move backend m).Releasing front held outcome := by
  cases m with
  | step now => exact h.step now
  | cancel =>
    change run.requestCancel.Releasing front held outcome
    simpa [Releasing] using h

theorem Played.attempt {first : InputState} {log : List Attempt} {state : InputState}
    (h : Played first log state) {call : Call} (hadmits : state.Admits call) :
    Played first (log ++ [.success call]) (state.after call) := by
  refine ⟨h.orderly.snoc (h.state_eq ▸ hadmits), ?_, ?_⟩
  · intro a ha
    rcases List.mem_append.mp ha with ha | ha
    · exact h.dispatched a ha
    · rw [List.mem_singleton.mp ha]
      exact ⟨rfl, rfl⟩
  · rw [h.state_eq]
    simp

/-- Where a run stands: it dispatches, or it releases what its log has left held. -/
def Phase (backend : Backend σ) (first : InputState) (run : Run σ) : Prop :=
  run.Dispatching backend first ∨
    ∃ front outcome, first.Orderly front ∧ (∀ a ∈ front, a.purpose = .dispatch) ∧
      run.Releasing front (first.replay front) outcome

theorem Played.drain {backend : Backend σ} {first : InputState} {run : Run σ}
    (h : Played first run.log run.state) (outcome : Outcome) :
    (run.drain outcome).Phase backend first := by
  refine .inr ⟨run.log, outcome, h.orderly, fun a ha => (h.dispatched a ha).1, ?_⟩
  rw [← h.state_eq]
  exact run.releasing_drain outcome

theorem Dispatching.step {backend : Backend σ} {first : InputState} (hfirst : first.Ordered)
    {run : Run σ} (h : run.Dispatching backend first) (now : Nat) :
    (run.step backend now).Phase backend first := by
  have ht := run.step_transition backend now
  generalize run.step backend now = next at ht
  unfold Dispatching at h
  cases ht with
  | opened hs =>
    simp only [hs] at h
    obtain ⟨hlog, hstate, hpointer⟩ := h
    have hopened : Played first [] { run.state with pointer := backend.pointer run.device } := by
      refine ⟨trivial, nofun, ?_⟩
      rw [hstate, hpointer]
      rfl
    refine .inl ?_
    change Played first run.log _
    rw [hlog]
    exact hopened
  | cancelled hpolls =>
    obtain ⟨todo, hs, -⟩ := exists_of_polls hpolls
    simp only [hs] at h
    exact h.drain .cancelled
  | began hs =>
    simp only [hs] at h
    refine .inl ⟨?_, ?_⟩
    · rw [log_began]
      exact h
    · exact run.orderly_dispatch (h.state_eq ▸ hfirst.replay run.log) _
  | glided hs =>
    simp only [hs] at h
    refine .inl ⟨h, InputState.orderly_of_idle ?_⟩
    intro a ha sw press
    rw [List.mem_singleton.mp ha]
    exact call_ne_of_glide _ sw press
  | exhausted hs =>
    simp only [hs] at h
    exact h.drain .completed
  | @called call calls next hs =>
    cases next with
    | proceed todo =>
      simp only [hs] at h
      exact .inl ⟨run.log, log_beginCall .., h.1, h.2⟩
    | finish o => simp [hs] at h
  | returned hs =>
    simp only [hs] at h
    obtain ⟨done, hlog, hplayed, hadmits, hrest⟩ := h
    refine .inl ⟨?_, hrest⟩
    exact hlog ▸ hplayed.attempt hadmits
  | @failed call calls todo hs =>
    -- the failed call is part of the log but has not changed the state
    simp only [hs] at h
    obtain ⟨done, hlog, hplayed, hadmits, -⟩ := h
    refine .inr ⟨run.log, .failed, ?_, ?_, ?_⟩
    · rw [hlog]
      exact hplayed.orderly.snoc (hplayed.state_eq ▸ hadmits)
    · intro a ha
      rcases List.mem_append.mp (hlog ▸ ha) with ha | ha
      · exact (hplayed.dispatched a ha).1
      · rw [List.mem_singleton.mp ha]
    · have hstate : first.replay run.log = run.state := by
        rw [hlog, hplayed.state_eq]
        simp [InputState.attempt]
      rw [hstate]
      exact releasing_drain { run with fault := some call } .failed
  | released hs => simp [hs] at h
  | proceeded hs =>
    simp only [hs] at h
    exact .inl h.1
  | published hs => simp [hs] at h
  | settled hs => simp [hs] at h

theorem Phase.move {backend : Backend σ} {first : InputState} (hfirst : first.Ordered)
    {run : Run σ} (h : run.Phase backend first) (m : Move) :
    (run.move backend m).Phase backend first := by
  rcases h with h | ⟨front, outcome, horderly, hfront, h⟩
  · cases m with
    | step now => exact h.step hfirst now
    | cancel =>
      refine .inl ?_
      change run.requestCancel.Dispatching backend first
      simpa [Dispatching] using h
  · exact .inr ⟨front, outcome, horderly, hfront, h.move m⟩

theorem phase_follow (backend : Backend σ) (settings : Settings) (timeline : Timeline)
    (device : σ) (begun : Nat) (moves : List Move) :
    ((ofTimeline settings timeline device begun).follow backend moves).Phase backend
      ⟨[], [], backend.pointer device⟩ := by
  apply follow_induction (fun run m h => h.move (InputState.ordered_empty _) m)
  exact .inl ⟨rfl, rfl, rfl⟩

/-- Before a run has opened, no call was made. -/
theorem log_of_opening {backend : Backend σ} {first : InputState} {run : Run σ}
    (h : run.Phase backend first) {timeline : Timeline} (hstage : run.stage = .opening timeline) :
    run.log = [] := by
  rcases h with h | ⟨front, outcome, -, -, back, -, -, h⟩
  · simp only [Dispatching, hstage] at h
    exact h.1
  · simp [hstage] at h

theorem Releasing.exists_back {front : List Attempt} {held : InputState} {outcome : Outcome}
    {run : Run σ} (h : run.Releasing front held outcome) :
    ∃ back calls, run.log = front ++ back ∧ (∀ a ∈ back, a.purpose = .drain) ∧
      back.map (·.call) ++ calls = held.releases := by
  obtain ⟨back, hlog, hdrain, hstage⟩ := h
  refine ⟨back, ?_⟩
  split at hstage
  · exact ⟨_, hlog, hdrain, hstage.2.1⟩
  · exact ⟨_, hlog, hdrain, hstage.2.1⟩
  · exact ⟨[], hlog, hdrain, by simpa using hstage.2.1⟩
  · exact hstage.elim

/-- A run that waits for something has only dispatched so far. -/
theorem Phase.of_polls {backend : Backend σ} {first : InputState} {run : Run σ}
    (h : run.Phase backend first) (hpolls : run.polls = true) : Played first run.log run.state := by
  obtain ⟨todo, hs, -⟩ := exists_of_polls hpolls
  rcases h with h | ⟨front, outcome, -, -, back, -, -, h⟩
  · simpa only [Dispatching, hs] using h
  · simp [hs] at h

theorem Releasing.of_over {front : List Attempt} {held : InputState} {outcome : Outcome}
    {run : Run σ} (h : run.Releasing front held outcome) (hover : run.isOver = true) :
    run.stage = .ended outcome ∧ run.state.releases = [] ∧
      ∃ back, run.log = front ++ back ∧ (∀ a ∈ back, a.purpose = .drain) ∧
        back.map (·.call) = held.releases := by
  obtain ⟨o, hs⟩ := exists_of_isOver hover
  obtain ⟨back, hlog, hdrain, h⟩ := h
  simp only [hs] at h
  obtain ⟨rfl, hback, hreleases⟩ := h
  exact ⟨hs, hreleases, back, hlog, hdrain, hback⟩

/-- A run that is over has released all that its calls for events have left held. -/
theorem Phase.of_over {backend : Backend σ} {first : InputState} {run : Run σ}
    (h : run.Phase backend first) (hover : run.isOver = true) :
    run.state.releases = [] ∧
      ∃ front back, run.log = front ++ back ∧ (∀ a ∈ front, a.purpose = .dispatch) ∧
        (∀ a ∈ back, a.purpose = .drain) ∧ back.map (·.call) = (first.replay front).releases := by
  rcases h with h | ⟨front, o, -, hfront, h⟩
  · obtain ⟨outcome, hs⟩ := exists_of_isOver hover
    simp [Dispatching, hs] at h
  · obtain ⟨-, hreleases, back, hlog, hdrain, hback⟩ := h.of_over hover
    exact ⟨hreleases, front, back, hlog, hfront, hdrain, hback⟩

end Run

end TimedInput
