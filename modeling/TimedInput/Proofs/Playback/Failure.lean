import TimedInput.Backend.Rehearsal
import TimedInput.Proofs.Playback.Reasons
import TimedInput.Proofs.Playback.Undisturbed

/-!
# Failing calls

A run that nobody cancels ends when its events are exhausted, or at the first call for an event
that fails. In both cases it is settled at that moment how the run will end: the calls that
let go of what is held may fail as they like.
-/

namespace TimedInput

variable {σ : Type}

def Entry.event? : Entry → Option Event
  | .began _ event => some event
  | _ => none

namespace Run

/-- The events that were dispatched, the earliest first. -/
def events (run : Run σ) : List Event :=
  run.history.reverse.filterMap Entry.event?

theorem events_released (run : Run σ) (state : InputState) (stage : Stage) (now : Nat) (call : Call)
    (ok : Bool) :
    { run with
      state, stage
      history := if ok then run.history else .stuck now call :: run.history }.events =
        run.events := by
  cases ok <;> simp [events, Entry.event?]

theorem Releasing.outcome? {front : List Attempt} {held : InputState} {outcome : Outcome}
    {run : Run σ} (h : run.Releasing front held outcome) : run.outcome? = some outcome := by
  obtain ⟨back, -, -, h⟩ := h
  unfold Run.outcome?
  split at h
  · simp_all
  · simp_all
  · simp_all
  · exact h.elim

/-- Once it is settled how the run ends, no call is blamed and no event begins any more. -/
theorem step_of_settled (backend : Backend σ) {run : Run σ} (h : run.outcome? ≠ none) (now : Nat) :
    (run.step backend now).fault = run.fault ∧ (run.step backend now).events = run.events := by
  have ht := run.step_transition backend now
  generalize run.step backend now = next at ht
  unfold outcome? at h
  cases ht with
  | began hs => simp [hs] at h
  | failed hs => simp [hs] at h
  | called hs => exact ⟨rfl, by simp [events, beginCall, Entry.event?]⟩
  | released hs => exact ⟨rfl, events_released ..⟩
  | _ => exact ⟨rfl, rfl⟩

theorem begun_of_answer {backend : Backend σ} {run : Run σ} {now : Nat} {call : Call} {ok : Bool}
    {calls : List Call} {next : Next}
    (h : (run.step backend now).stage = .answer call ok calls next) :
    run.stage = .issue (call :: calls) next ∧
      run.step backend now = run.beginCall backend now call calls next ∧
      (backend.perform now call run.device).1.ok = ok := by
  have ht := run.step_transition backend now
  generalize run.step backend now = after at ht h
  cases ht with
  | called hs =>
    simp only [beginCall, Stage.answer.injEq] at h
    obtain ⟨rfl, rfl, rfl, rfl⟩ := h
    exact ⟨hs, rfl, rfl⟩
  | settled hs => simp [hs] at h
  | _ => simp [drain] at h

theorem Phase.played_of_await {backend : Backend σ} {first : InputState} {run : Run σ}
    (h : run.Phase backend first) {todo : Todo} (hs : run.stage = .await todo) :
    Played first run.log run.state := by
  rcases h with h | ⟨front, outcome, -, -, back, -, -, h⟩
  · simpa only [Dispatching, hs] using h
  · simp [hs] at h

theorem Phase.played_of_issue {backend : Backend σ} {first : InputState} {run : Run σ}
    (h : run.Phase backend first) {call : Call} {calls : List Call} {todo : Todo}
    (hs : run.stage = .issue (call :: calls) (.proceed todo)) :
    Played first run.log run.state ∧ run.state.Admits call := by
  rcases h with h | ⟨front, outcome, -, -, back, -, -, h⟩
  · simp only [Dispatching, hs] at h
    exact ⟨h.1, h.2.1⟩
  · simp [hs] at h

/-- How a run has come to the point from which on it only lets go. -/
inductive Turned (plain : Nat → Run σ) (n : Nat) : Prop where
  | exhausted (k : Nat) (hstage : (plain k).stage = .await ⟨none, []⟩)
    (hfault : (plain n).fault = none)
    (hreleasing : (plain n).Releasing (plain k).log (plain k).state .completed)
  | failed (k : Nat) {call : Call} {calls : List Call} {todo : Todo}
    (hstage : (plain k).stage = .issue (call :: calls) (.proceed todo))
    (hlog : (plain (k + 2)).log = (plain k).log ++ [⟨.dispatch, call, false⟩])
    (hstate : (plain (k + 2)).state = (plain k).state)
    (hevents : (plain n).events = (plain k).events) (hfault : (plain n).fault = some call)
    (hreleasing : (plain n).Releasing (plain (k + 2)).log (plain (k + 2)).state .failed)

theorem Turned.succ {backend : Backend σ} {instants : Nat → Nat} {run : Run σ} {n : Nat}
    (h : Turned (run.nth backend instants) n) : Turned (run.nth backend instants) (n + 1) := by
  cases h with
  | exhausted k hstage hfault hreleasing =>
    have hsettled : (run.nth backend instants n).outcome? ≠ none := by
      simp [hreleasing.outcome?]
    have hfault' := (step_of_settled backend hsettled (instants n)).1
    exact .exhausted k hstage (hfault'.trans hfault) (hreleasing.step (instants n))
  | failed k hstage hlog hstate hevents hfault hreleasing =>
    have hsettled : (run.nth backend instants n).outcome? ≠ none := by
      simp [hreleasing.outcome?]
    obtain ⟨hfault', hevents'⟩ := step_of_settled backend hsettled (instants n)
    exact .failed k hstage hlog hstate (hevents'.trans hevents) (hfault'.trans hfault)
      (hreleasing.step (instants n))

section Fresh

variable (backend : Backend σ) {settings : Settings} {timeline : Timeline} {device : σ}
variable {begun : Nat} {fresh : Run σ}
variable (hfresh : fresh = ofTimeline settings timeline device begun) (instants : Nat → Nat)
include hfresh

/-- A failed call was begun one step before it came back, and nothing has changed since. -/
theorem turned_of_failed {n : Nat} {call : Call} {calls : List Call} {todo : Todo}
    (hs : (fresh.nth backend.passive instants n).stage = .answer call false calls (.proceed todo))
    (hfault : (fresh.nth backend.passive instants n).fault = none) :
    Turned (fresh.nth backend.passive instants) (n + 1) := by
  let plain := fresh.nth backend.passive instants
  cases n with
  | zero =>
    subst hfresh
    cases hs
  | succ k =>
    obtain ⟨hstage, hbegun, hok⟩ := begun_of_answer hs
    have hfirst : plain (k + 1) =
        (plain k).beginCall backend.passive (instants k) call calls (.proceed todo) := hbegun
    have hsecond : plain (k + 2) = { plain (k + 1) with fault := some call }.drain .failed := by
      change (plain (k + 1)).step backend.passive (instants (k + 1)) = _
      simp only [step, plain, hs]
      rfl
    have hlog : (plain (k + 2)).log = (plain k).log ++ [⟨.dispatch, call, false⟩] := by
      rw [hsecond]
      change (plain (k + 1)).log = _
      rw [hfirst, log_beginCall, hok]
      rfl
    have hstate : (plain (k + 2)).state = (plain k).state := by
      rw [hsecond]
      change (plain (k + 1)).state = _
      rw [hfirst]
      rfl
    have hevents : (plain (k + 2)).events = (plain k).events := by
      rw [hsecond]
      change (plain (k + 1)).events = _
      rw [hfirst]
      simp [events, beginCall, Entry.event?]
    refine .failed k hstage hlog hstate hevents ?_ ?_
    · change (plain (k + 2)).fault = _
      rw [hsecond]
      rfl
    · change (plain (k + 2)).Releasing (plain (k + 2)).log (plain (k + 2)).state .failed
      rw [hsecond]
      exact releasing_drain { plain (k + 1) with fault := some call } .failed

theorem turned_nth (n : Nat) :
    ((fresh.nth backend.passive instants n).outcome? = none ∧
        (fresh.nth backend.passive instants n).fault = none) ∨
      Turned (fresh.nth backend.passive instants) n := by
  induction n with
  | zero =>
    subst hfresh
    exact .inl ⟨rfl, rfl⟩
  | succ n ih =>
    rcases ih with ⟨houtcome, hfault⟩ | hturned
    · let run := fresh.nth backend.passive instants n
      have hunasked := (unasked_nth backend hfresh instants n).1
      have ht := run.step_transition backend.passive (instants n)
      have hnext : fresh.nth backend.passive instants (n + 1) =
          run.step backend.passive (instants n) := rfl
      have hopen : run.outcome? = none := houtcome
      unfold outcome? at hopen
      generalize run.step backend.passive (instants n) = next at ht hnext
      cases ht with
      | cancelled hpolls hcancel =>
        rw [hunasked] at hcancel
        cases hcancel
      | exhausted hs =>
        right
        refine .exhausted n hs ?_ ?_
        · rw [hnext]
          exact hfault
        · rw [hnext]
          exact run.releasing_drain .completed
      | failed hs => exact .inr (turned_of_failed backend hfresh instants hs hfault)
      | @called call calls next hs =>
        left
        rw [hnext]
        cases next with
        | proceed todo => exact ⟨rfl, hfault⟩
        | finish outcome => simp [hs] at hopen
      | released hs => simp [hs] at hopen
      | published hs => simp [hs] at hopen
      | settled hs => simp [hs] at hopen
      | _ =>
        left
        rw [hnext]
        exact ⟨rfl, hfault⟩
    · exact .inr hturned.succ

theorem completed_of_exhausted {k last : Nat}
    (hstage : (fresh.nth backend.passive instants k).stage = .await ⟨none, []⟩)
    (hfault : (fresh.nth backend.passive instants last).fault = none)
    (hreleasing : (fresh.nth backend.passive instants last).Releasing
      (fresh.nth backend.passive instants k).log (fresh.nth backend.passive instants k).state
      .completed)
    (hover : (fresh.nth backend.passive instants last).isOver = true) :
    let run := fresh.nth backend.passive instants last
    run.stage = .ended .completed ∧ (Player.started run).error = [] ∧
      ∀ a ∈ run.log, a.purpose = .dispatch → a.ok = true := by
  intro run
  have hplayed := (phase_nth backend hfresh instants k).played_of_await hstage
  obtain ⟨hended, -, back, hlog, hdrain, -⟩ := hreleasing.of_over hover
  refine ⟨hended, ?_, ?_⟩
  · simp [Player.error, run, hfault]
  · intro a ha hpurpose
    rw [hlog] at ha
    rcases List.mem_append.mp ha with ha | ha
    · exact (hplayed.dispatched a ha).2
    · rw [hdrain a ha] at hpurpose
      cases hpurpose

theorem completed_of_ok {last : Nat}
    (hover : (fresh.nth backend.passive instants last).isOver = true)
    (hok : ∀ a ∈ (fresh.nth backend.passive instants last).log,
      a.purpose = .dispatch → a.ok = true) :
    (fresh.nth backend.passive instants last).stage = .ended .completed ∧
      (Player.started (fresh.nth backend.passive instants last)).error = [] := by
  rcases turned_nth backend hfresh instants last with ⟨hopen, -⟩ | hturned
  · obtain ⟨outcome, hs⟩ := exists_of_isOver hover
    rw [outcome?, hs] at hopen
    cases hopen
  · cases hturned with
    | exhausted k hstage hfault hreleasing =>
      obtain ⟨hended, herror, -⟩ :=
        completed_of_exhausted backend hfresh instants hstage hfault hreleasing hover
      exact ⟨hended, herror⟩
    | @failed k call calls todo hstage hfront hstate hevents hfault hreleasing =>
      obtain ⟨-, -, back, hlog, -, -⟩ := hreleasing.of_over hover
      have hfailed : ⟨.dispatch, call, false⟩ ∈ (fresh.nth backend.passive instants last).log := by
        rw [hlog, hfront]
        simp
      cases hok _ hfailed rfl

end Fresh

/-- The run of a timeline that nobody cancels comes to its end, whatever the calls answer and
whenever the steps are made. It ends as a failure exactly if a call for an event has failed, and
else it is complete and there is no reason of a failure. The call that has failed is the first
failure and the last call for an event. The reason names it, with what it was called with, and is
the reason for no other call. Nothing changes in the state by it, and no event begins after it. It
is followed by the calls that let go of the keys and then of the buttons that were held before it,
in ascending order, one call for each; so if it should have let go of something, that is tried once
more. -/
theorem failure_law (backend : Backend σ) (settings : Settings) (timeline : Timeline) (device : σ)
    (begun : Nat) (instants : Nat → Nat) :
    let plain := (ofTimeline settings timeline device begun).nth backend.passive instants
    (∃ last, (plain last).isOver = true) ∧
    ∀ last, (plain last).isOver = true →
      let run := plain last
      (run.stage = .ended .failed ↔ ∃ a ∈ run.log, a.purpose = .dispatch ∧ a.ok = false) ∧
      ((∀ a ∈ run.log, a.purpose = .dispatch → a.ok = true) →
        run.stage = .ended .completed ∧ (Player.started run).error = []) ∧
      ∀ front call rest, run.log = front ++ ⟨.dispatch, call, false⟩ :: rest →
        (∀ a ∈ front, a.purpose = .dispatch ∧ a.ok = true) ∧
        (∀ a ∈ rest, a.purpose = .drain) ∧
        (Player.started run).error = call.failure ∧
        call.failure = call.kind.word ++ ascii "(" ++ call.details ++ ascii ") failed" ∧
        (∀ other : Call, other.failure = call.failure → other = call) ∧
        ∃ k calls todo,
          (plain k).stage = .issue (call :: calls) (.proceed todo) ∧ (plain k).log = front ∧
          (plain (k + 2)).log = front ++ [⟨.dispatch, call, false⟩] ∧
          (plain (k + 2)).state = (plain k).state ∧ run.events = (plain k).events ∧
          rest.map (·.call) =
            (plain k).state.keys.map .keyUp ++ (plain k).state.buttons.map .buttonUp ∧
          (plain k).state.keys.Pairwise (· < ·) ∧ (plain k).state.buttons.Pairwise (· < ·) ∧
          (∀ sw : Switch, sw.Held (plain k).state ↔ (presses sw front).getLast? = some .down) ∧
          ∀ sw : Switch, call = sw.call .up → call ∈ rest.map (·.call) := by
  intro plain
  refine ⟨exists_nth_isOver .., ?_⟩
  intro last hover run
  have hcompleted := completed_of_ok backend rfl instants hover
  rcases turned_nth backend rfl instants last with ⟨hopen, -⟩ | hturned
  · obtain ⟨outcome, hs⟩ := exists_of_isOver hover
    rw [outcome?, hs] at hopen
    cases hopen
  · cases hturned with
    | exhausted k hstage hfault hreleasing =>
      obtain ⟨hended, -, hok⟩ :=
        completed_of_exhausted backend rfl instants hstage hfault hreleasing hover
      refine ⟨⟨?_, ?_⟩, hcompleted, ?_⟩
      · intro hfailed
        cases hended.symm.trans hfailed
      · rintro ⟨a, ha, hpurpose, hfalse⟩
        cases (hok a ha hpurpose).symm.trans hfalse
      · intro front call rest hlog
        have hmem : ⟨.dispatch, call, false⟩ ∈ run.log := by simp [hlog]
        cases hok _ hmem rfl
    | @failed k call calls todo hstage hfront hstate hevents hfault hreleasing =>
      obtain ⟨hplayed, hadmits⟩ := (phase_nth backend rfl instants k).played_of_issue hstage
      obtain ⟨hended, -, back, hlog, hdrain, hcalls⟩ := hreleasing.of_over hover
      rw [hfront, List.append_assoc, List.singleton_append] at hlog
      rw [hstate] at hcalls
      have hfirst := InputState.ordered_empty (backend.pointer device)
      have hordered : (plain k).state.Ordered := hplayed.state_eq ▸ hfirst.replay _
      have hfailed : ⟨.dispatch, call, false⟩ ∈ run.log := by simp [run, plain, hlog]
      refine ⟨iff_of_true hended ⟨_, hfailed, rfl, rfl⟩, hcompleted, ?_⟩
      · intro front other rest hother
        have hnotfront : ⟨.dispatch, other, false⟩ ∉ (plain k).log := by
          intro hmem
          cases (hplayed.dispatched _ hmem).2
        have hnotback : ⟨.dispatch, other, false⟩ ∉ back := by
          intro hmem
          cases hdrain _ hmem
        obtain ⟨rfl, hsame, rfl⟩ :=
          (List.append_cons_inj_of_notMem hnotfront hnotback).mp (hlog.symm.trans hother)
        obtain rfl : call = other := congrArg Attempt.call hsame
        refine ⟨hplayed.dispatched, hdrain, ?_, call.failure_eq, fun _ => Call.failure_inj, k, calls,
          todo, hstage, rfl, hfront, hstate, hevents, hcalls, hordered.keys, hordered.buttons, ?_,
          ?_⟩
        · rw [Player.error, if_pos hover, hfault]
          rfl
        · intro sw
          rw [hplayed.state_eq]
          exact InputState.held_replay_iff hfirst (sw.position_empty _) _
        · rintro sw rfl
          rw [hcalls, InputState.call_up_mem_releases]
          exact (hadmits sw .up rfl).mpr rfl

theorem failure_law_second_release :
    let timeline : Timeline := [⟨0, .key .down ⟨97⟩, 0⟩, ⟨0, .key .down ⟨98⟩, 1⟩,
      ⟨0, .release .both, 2⟩, ⟨0, .text (ascii "c"), 3⟩]
    let device : Rehearsal := { Rehearsal.smooth with failingAt := [3] }
    let run := (ofTimeline .standard timeline device 0).nth Rehearsal.backend.passive id 40
    run.isOver = true ∧ run.stage = .ended .failed ∧
      (Player.started run).error = ascii "keyUp(b) failed" ∧
      run.log = [.success (.keyDown ⟨97⟩), .success (.keyDown ⟨98⟩), .success (.keyUp ⟨97⟩),
        ⟨.dispatch, .keyUp ⟨98⟩, false⟩, ⟨.drain, .keyUp ⟨98⟩, true⟩] := by
  intro timeline device run
  have hover : run.isOver = true := by decide +kernel
  have hlog : run.log = [.success (.keyDown ⟨97⟩), .success (.keyDown ⟨98⟩),
      .success (.keyUp ⟨97⟩)] ++ ⟨.dispatch, .keyUp ⟨98⟩, false⟩ ::
        [⟨.drain, .keyUp ⟨98⟩, true⟩] := by
    decide +kernel
  obtain ⟨-, hlaw⟩ := failure_law Rehearsal.backend .standard timeline device 0 id
  obtain ⟨hfailed, -, hblame⟩ := hlaw 40 hover
  obtain ⟨-, -, herror, -⟩ := hblame _ _ _ hlog
  refine ⟨hover, hfailed.mpr ?_, herror.trans ?_, hlog⟩
  · exact ⟨⟨.dispatch, .keyUp ⟨98⟩, false⟩, by simp [run, hlog], rfl, rfl⟩
  · decide +kernel

end Run

end TimedInput
