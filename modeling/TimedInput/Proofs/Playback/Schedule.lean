import TimedInput.Playback.Session
import TimedInput.Proofs.Playback.Log

/-!
# Schedules

A schedule says in which order a run is stepped and asked to cancel, and at which instants
the steps are made. Nothing is assumed about these instants, so every order in which a
player and its owner can meet is the order of some schedule.

`Transition` lists what one step can do. All that is proved of runs goes through it.
-/

namespace TimedInput

/-- One thing that happens to a run. The end of its player is a request to cancel, too. -/
inductive Move where
  | step (now : Nat)
  | cancel
  deriving DecidableEq, Repr

def Move.isStep : Move → Bool
  | .step _ => true
  | .cancel => false

/-- The number of steps in a schedule. -/
def steps (moves : List Move) : Nat :=
  moves.countP Move.isStep

@[simp] theorem steps_append (moves more : List Move) :
    steps (moves ++ more) = steps moves + steps more :=
  List.countP_append

namespace Run

variable {σ : Type}

def requestCancel (run : Run σ) : Run σ :=
  if run.isOver then run else { run with cancelRequested := true }

def move (backend : Backend σ) (run : Run σ) : Move → Run σ
  | .step now => run.step backend now
  | .cancel => run.requestCancel

def follow (backend : Backend σ) (run : Run σ) (moves : List Move) : Run σ :=
  moves.foldl (move backend) run

@[simp] theorem follow_nil (backend : Backend σ) (run : Run σ) : run.follow backend [] = run := rfl

@[simp] theorem follow_cons (backend : Backend σ) (run : Run σ) (m : Move) (moves : List Move) :
    run.follow backend (m :: moves) = (run.move backend m).follow backend moves := rfl

@[simp] theorem follow_append (backend : Backend σ) (run : Run σ) (moves more : List Move) :
    run.follow backend (moves ++ more) = (run.follow backend moves).follow backend more :=
  List.foldl_append

/-- What every move keeps holds after every schedule. -/
theorem follow_induction {backend : Backend σ} {P : Run σ → Prop}
    (keeps : ∀ run m, P run → P (run.move backend m)) {run : Run σ} (h : P run)
    (moves : List Move) : P (run.follow backend moves) := by
  induction moves generalizing run with
  | nil => exact h
  | cons m moves ih => exact ih (keeps run m h)

end Run

theorem Player.cancel_started {σ : Type} (run : Run σ) :
    (Player.started run).cancel = .started run.requestCancel := by
  simp only [Player.cancel, Run.requestCancel]
  split <;> rfl

/-- Is there something to wait for? At the end of such a wait a request to cancel is noticed. -/
def Todo.polls (todo : Todo) : Bool :=
  match todo with
  | ⟨none, []⟩ => false
  | _ => true

namespace Run

variable {σ : Type}

def polls (run : Run σ) : Bool :=
  match run.stage with
  | .await todo => todo.polls
  | _ => false

theorem exists_of_polls {run : Run σ} (h : run.polls = true) :
    ∃ todo, run.stage = .await todo ∧ todo.polls = true := by
  unfold polls at h
  split at h
  · rename_i todo hs
    exact ⟨todo, hs, h⟩
  · cases h

theorem exists_of_isOver {run : Run σ} (h : run.isOver = true) :
    ∃ outcome, run.stage = .ended outcome := by
  unfold isOver Stage.isOver at h
  split at h
  · rename_i outcome hs
    exact ⟨outcome, hs⟩
  · cases h

theorem not_polls_of_isOver {run : Run σ} (h : run.isOver = true) : run.polls = false := by
  obtain ⟨outcome, hs⟩ := exists_of_isOver h
  simp [polls, hs]

theorem isOver_of_polls {run : Run σ} (h : run.polls = true) : run.isOver = false := by
  obtain ⟨todo, hs, -⟩ := exists_of_polls h
  simp [isOver, Stage.isOver, hs]

theorem step_of_isOver {backend : Backend σ} {run : Run σ} (h : run.isOver = true) (now : Nat) :
    run.step backend now = run := by
  obtain ⟨outcome, hs⟩ := exists_of_isOver h
  rw [step, hs]

/-- The way in which the run ends, once that is settled. -/
def outcome? (run : Run σ) : Option Outcome :=
  match run.stage with
  | .issue _ (.finish outcome) => some outcome
  | .answer _ _ _ (.finish outcome) => some outcome
  | .ended outcome => some outcome
  | _ => none

/-- The steps that a run can make. -/
inductive Transition (backend : Backend σ) (run : Run σ) (now : Nat) : Run σ → Prop where
  | opened {timeline : Timeline} (h : run.stage = .opening timeline) :
    Transition backend run now
      { run with
        state := { run.state with pointer := backend.pointer run.device }
        start := now
        stage := .await ⟨none, timeline⟩ }
  | cancelled (h : run.polls = true) (hcancel : run.cancelRequested = true) :
    Transition backend run now (run.drain .cancelled)
  | began {event : Event} {rest : Timeline} (h : run.stage = .await ⟨none, event :: rest⟩)
    (hcancel : run.cancelRequested = false) :
    Transition backend run now
      { run with
        stage := .issue (run.dispatch event).1 (.proceed ⟨(run.dispatch event).2, rest⟩)
        history := .began now event :: run.history }
  | glided {glide : Glide} {rest : Timeline} (h : run.stage = .await ⟨some glide, rest⟩)
    (hcancel : run.cancelRequested = false) :
    Transition backend run now
      { run with stage := .issue [glide.call] (.proceed ⟨glide.next?, rest⟩) }
  | exhausted (h : run.stage = .await ⟨none, []⟩) :
    Transition backend run now (run.drain .completed)
  | called {call : Call} {calls : List Call} {next : Next}
    (h : run.stage = .issue (call :: calls) next) :
    Transition backend run now (run.beginCall backend now call calls next)
  | returned {call : Call} {calls : List Call} {todo : Todo}
    (h : run.stage = .answer call true calls (.proceed todo)) :
    Transition backend run now
      { run with state := run.state.after call, stage := .issue calls (.proceed todo) }
  | failed {call : Call} {calls : List Call} {todo : Todo}
    (h : run.stage = .answer call false calls (.proceed todo)) :
    Transition backend run now ({ run with fault := some call }.drain .failed)
  | released {call : Call} {ok : Bool} {calls : List Call} {outcome : Outcome}
    (h : run.stage = .answer call ok calls (.finish outcome)) :
    Transition backend run now
      { run with
        state := run.state.after call
        stage := .issue calls (.finish outcome)
        history := if ok then run.history else .stuck now call :: run.history }
  | proceeded {todo : Todo} (h : run.stage = .issue [] (.proceed todo)) :
    Transition backend run now { run with stage := .await todo }
  | published {outcome : Outcome} (h : run.stage = .issue [] (.finish outcome)) :
    Transition backend run now { run with stage := .ended outcome }
  | settled {outcome : Outcome} (h : run.stage = .ended outcome) : Transition backend run now run

theorem step_transition (backend : Backend σ) (run : Run σ) (now : Nat) :
    Transition backend run now (run.step backend now) := by
  unfold step
  cases hs : run.stage with
  | opening timeline => exact .opened hs
  | await todo =>
    obtain ⟨glide, rest⟩ := todo
    cases glide with
    | some glide =>
      cases hc : run.cancelRequested with
      | true =>
        have hpolls : run.polls = true := by simp [polls, hs, Todo.polls]
        have h : Transition backend run now (run.drain .cancelled) := .cancelled hpolls hc
        simpa [wake, hc] using h
      | false =>
        have h : Transition backend run now _ := .glided hs hc
        simpa [wake, hc] using h
    | none =>
      cases rest with
      | nil => exact .exhausted hs
      | cons event rest =>
        cases hc : run.cancelRequested with
        | true =>
          have hpolls : run.polls = true := by simp [polls, hs, Todo.polls]
          have h : Transition backend run now (run.drain .cancelled) := .cancelled hpolls hc
          simpa [wake, hc] using h
        | false =>
          have h : Transition backend run now _ := .began hs hc
          simpa [wake, hc] using h
  | issue calls next =>
    cases calls with
    | cons call calls => exact .called hs
    | nil =>
      cases next with
      | proceed todo => exact .proceeded hs
      | finish outcome => exact .published hs
  | answer call ok calls next =>
    cases next with
    | proceed todo =>
      cases ok with
      | true => exact .returned hs
      | false => exact .failed hs
    | finish outcome => exact .released hs
  | ended outcome => exact .settled hs

theorem cancelRequested_step {backend : Backend σ} {run : Run σ}
    (h : run.cancelRequested = true) (now : Nat) :
    (run.step backend now).cancelRequested = true := by
  have ht := run.step_transition backend now
  generalize run.step backend now = next at ht
  cases ht with
  | called hs => simp [beginCall, h]
  | _ => exact h

/-- A request to cancel is never taken back. -/
theorem cancelRequested_follow {backend : Backend σ} {run : Run σ}
    (h : run.cancelRequested = true) (moves : List Move) :
    (run.follow backend moves).cancelRequested = true := by
  apply follow_induction (P := fun run => run.cancelRequested = true) _ h
  intro run m h
  cases m with
  | step now => exact cancelRequested_step h now
  | cancel =>
    change run.requestCancel.cancelRequested = true
    unfold requestCancel
    split
    · exact h
    · rfl

/-- A move that asks a run to end early, before its end is settled: the request of its owner, or a
call that is answered with one. -/
inductive Asks (backend : Backend σ) (run : Run σ) : Move → Prop where
  | request (hopen : run.outcome? = none) : Asks backend run .cancel
  | reply {now : Nat} {call : Call} {calls : List Call} {todo : Todo}
    (h : run.stage = .issue (call :: calls) (.proceed todo))
    (hcancels : (backend.perform now call run.device).1.cancels = true) :
    Asks backend run (.step now)

/-- The run is asked to end early before the schedule, or by some move of it. -/
def Asked (backend : Backend σ) (run : Run σ) (moves : List Move) : Prop :=
  run.cancelRequested = true ∨
    ∃ before m, before ++ [m] <+: moves ∧ (run.follow backend before).Asks backend m

/-- The run ends early, or it will do so at its next wait. -/
def Heeding (run : Run σ) : Prop :=
  run.outcome? = some .cancelled ∨ run.outcome? = none ∧ run.cancelRequested = true

section Heeding

variable {backend : Backend σ} {run : Run σ}

theorem heeding_of_step {now : Nat} (h : (run.step backend now).Heeding) :
    run.Heeding ∨ run.Asks backend (.step now) := by
  have ht := run.step_transition backend now
  generalize run.step backend now = next at h ht
  cases ht with
  | opened hs => exact .inl (.inr ⟨by simp [outcome?, hs], by simpa [Heeding, outcome?] using h⟩)
  | cancelled hpolls hcancel =>
    obtain ⟨todo, hs, -⟩ := exists_of_polls hpolls
    exact .inl (.inr ⟨by simp [outcome?, hs], hcancel⟩)
  | began hs hcancel => simp [Heeding, outcome?, hcancel] at h
  | glided hs hcancel => simp [Heeding, outcome?, hcancel] at h
  | exhausted hs => simp [Heeding, outcome?, drain] at h
  | @called call calls next hs =>
    cases next with
    | proceed todo =>
      have hopen : run.outcome? = none := by simp [outcome?, hs]
      have hrequest : run.cancelRequested = true ∨
          (backend.perform now call run.device).1.cancels = true := by
        simpa [Heeding, outcome?, beginCall] using h
      rcases hrequest with hbefore | hcancels
      · exact .inl (.inr ⟨hopen, hbefore⟩)
      · exact .inr (.reply hs hcancels)
    | finish outcome =>
      exact .inl (.inl (by simpa [Heeding, outcome?, beginCall, hs] using h))
  | returned hs => exact .inl (.inr ⟨by simp [outcome?, hs], by simpa [Heeding, outcome?] using h⟩)
  | failed hs => simp [Heeding, outcome?, drain] at h
  | released hs => exact .inl (.inl (by simpa [Heeding, outcome?, hs] using h))
  | proceeded hs => exact .inl (.inr ⟨by simp [outcome?, hs], by simpa [Heeding, outcome?] using h⟩)
  | published hs => exact .inl (.inl (by simpa [Heeding, outcome?, hs] using h))
  | settled => exact .inl h

theorem heeding_of_move {m : Move} (h : (run.move backend m).Heeding) :
    run.Heeding ∨ run.Asks backend m := by
  cases m with
  | step now => exact heeding_of_step h
  | cancel =>
    by_cases hopen : run.outcome? = none
    · exact .inr (.request hopen)
    · have hsame : run.requestCancel.outcome? = run.outcome? := by
        unfold requestCancel
        split <;> rfl
      rcases h with hcancelled | ⟨hnone, -⟩
      · exact .inl (.inl (hsame ▸ hcancelled))
      · exact absurd (hsame ▸ hnone) hopen

/-- A run ends early only if it is asked to. -/
theorem asked_of_heeding {moves : List Move} (h : (run.follow backend moves).Heeding) :
    run.Heeding ∨
      ∃ before m, before ++ [m] <+: moves ∧ (run.follow backend before).Asks backend m := by
  induction moves using List.reverseRecOn with
  | nil => exact .inl h
  | append_singleton moves m ih =>
    rw [follow_append] at h
    rcases heeding_of_move h with hbefore | hasks
    · rcases ih hbefore with hfirst | ⟨before, m', hprefix, hasks⟩
      · exact .inl hfirst
      · exact .inr ⟨before, m', hprefix.trans (List.prefix_append _ _), hasks⟩
    · exact .inr ⟨moves, m, List.prefix_refl _, hasks⟩

theorem asked_of_cancelled (hopen : run.outcome? = none) {moves : List Move}
    (h : (run.follow backend moves).outcome? = some .cancelled) : run.Asked backend moves := by
  rcases asked_of_heeding (.inl h) with (hcancelled | ⟨-, hrequest⟩) | hasks
  · cases hopen.symm.trans hcancelled
  · exact .inl hrequest
  · exact .inr hasks

end Heeding

theorem step_of_polls {backend : Backend σ} {run : Run σ} (hpolls : run.polls = true)
    (hcancel : run.cancelRequested = true) (now : Nat) :
    run.step backend now = run.drain .cancelled := by
  obtain ⟨todo, hs, htodo⟩ := exists_of_polls hpolls
  obtain ⟨glide, rest⟩ := todo
  cases glide with
  | some glide => simp [step, hs, wake, hcancel]
  | none =>
    cases rest with
    | nil => cases htodo
    | cons event rest => simp [step, hs, wake, hcancel]

end Run

end TimedInput
