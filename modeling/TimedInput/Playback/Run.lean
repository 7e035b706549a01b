import TimedInput.Playback.Backend
import TimedInput.Playback.Glide
import TimedInput.Script.Timeline
import TimedInput.Text.Console
import TimedInput.Text.Utf8

/-!
# Runs

A run plays a timeline on a backend. It is a machine of small steps: reading the
pointer, waiting for an event or for a step of a glide, beginning a call, ending a call,
and publishing the outcome. Between two of them anything else may happen, a request to
cancel in particular, which the next wait notices. Whatever way a run ends, it first
lets go of all that it still holds.

Every step brings the end nearer: see `Run.step_lt`. Who steps a run, and when, is not
decided here.
-/

namespace TimedInput

structure Settings where
  /-- The time between the steps of a glide, in milliseconds. -/
  tick : UInt64
  /-- Print every event that is dispatched. -/
  verbose : Bool
  deriving DecidableEq, Repr

namespace Settings

def standard : Settings :=
  ⟨16, false⟩

/-- A tick of zero counts as one. -/
def effectiveTick (s : Settings) : UInt64 :=
  if s.tick = 0 then 1 else s.tick

end Settings

inductive Outcome where
  | completed
  | cancelled
  | failed
  deriving DecidableEq, Repr

/-- Whether a call carries out an event, or lets go of what is held at the end. -/
inductive Purpose where
  | dispatch
  | drain
  deriving DecidableEq, Repr

/-- What happened in a run, at which instant. -/
inductive Entry where
  | began (instant : Nat) (event : Event)
  | called (instant : Nat) (purpose : Purpose) (call : Call) (reply : Reply)
  /-- A call of the drain failed. -/
  | stuck (instant : Nat) (call : Call)
  deriving DecidableEq, Repr

namespace Entry

/-- The line for an event that is dispatched. -/
def announcement (event : Event) : Bytes :=
  Console.print (ascii "At " ++ Numeral.ofNat event.time.toNat ++ ascii "ms: " ++
    event.action.describe.untilNul ++ ascii "\n")

/-- The line for something that could not be released. -/
def complaint : Call → Bytes
  | .keyUp code =>
    Console.print (ascii "*** failed to release key " ++ code.name ++ ascii " ***\n")
  | .buttonUp n =>
    Console.print (ascii "*** failed to release mouse button " ++ Numeral.ofInt n.toInt ++
      ascii " ***\n")
  | _ => []

/-- What is printed when it happens. -/
def printed (verbose : Bool) : Entry → Bytes
  | .began _ event => if verbose then announcement event else []
  | .called _ _ _ reply => reply.printed
  | .stuck _ call => complaint call

end Entry

/-- What a run still has to wait for: the glide under way, and then the events that follow. -/
structure Todo where
  glide : Option Glide
  rest : Timeline

namespace Todo

def stepsLeft (todo : Todo) : Nat :=
  match todo.glide with
  | some g => g.left
  | none => 0

end Todo

/-- What follows a sequence of calls. -/
inductive Next where
  | proceed (todo : Todo)
  | finish (outcome : Outcome)

namespace Next

/-- The calls that lead to the end are those of the drain. -/
def purpose : Next → Purpose
  | .proceed _ => .dispatch
  | .finish _ => .drain

def eventsLeft : Next → Nat
  | .proceed todo => todo.rest.length + 1
  | .finish _ => 0

def stepsLeft : Next → Nat
  | .proceed todo => todo.stepsLeft
  | .finish _ => 1

end Next

/-- What a run does next. -/
inductive Stage where
  | opening (timeline : Timeline)
  | await (todo : Todo)
  | issue (calls : List Call) (next : Next)
  /-- A call is under way; `ok` is the answer that it will give. -/
  | answer (call : Call) (ok : Bool) (calls : List Call) (next : Next)
  | ended (outcome : Outcome)

namespace Stage

def eventsLeft : Stage → Nat
  | .opening timeline => timeline.length + 2
  | .await todo => todo.rest.length + 1
  | .issue _ next | .answer _ _ _ next => next.eventsLeft
  | .ended _ => 0

def stepsLeft : Stage → Nat
  | .opening _ | .ended _ => 0
  | .await todo => todo.stepsLeft
  | .issue _ next | .answer _ _ _ next => next.stepsLeft

def callsLeft : Stage → Nat
  | .opening _ | .await _ | .ended _ => 0
  | .issue calls _ => 2 * calls.length + 1
  | .answer _ _ calls _ => 2 * calls.length + 2

/-- Fewer events to come; or as many events and fewer steps; or as many of both and fewer calls. -/
def Lt (a b : Stage) : Prop :=
  a.eventsLeft < b.eventsLeft ∨ a.eventsLeft = b.eventsLeft ∧
    (a.stepsLeft < b.stepsLeft ∨ a.stepsLeft = b.stepsLeft ∧ a.callsLeft < b.callsLeft)

theorem Lt.trans {a b c : Stage} (hab : a.Lt b) (hbc : b.Lt c) : a.Lt c := by
  unfold Lt at *
  omega

def isOver : Stage → Bool
  | .ended _ => true
  | _ => false

end Stage

structure Run (σ : Type) where
  settings : Settings
  stage : Stage
  /-- The state of the backend. -/
  device : σ
  state : InputState
  /-- The instant that event times count from. -/
  start : Nat
  /-- The instant at which the last call returns. -/
  free : Nat
  cancelRequested : Bool
  /-- The call that failed, if one did. -/
  fault : Option Call
  /-- What happened so far, the latest first. -/
  history : List Entry

namespace Run

variable {σ : Type}

/-- A run of a timeline that can begin at the given instant. -/
def ofTimeline (settings : Settings) (timeline : Timeline) (device : σ) (now : Nat) : Run σ :=
  { settings, device
    stage := .opening timeline
    state := .empty
    start := now
    free := now
    cancelRequested := false
    fault := none
    history := [] }

def isOver (run : Run σ) : Bool :=
  run.stage.isOver

/-- The instant that the run waits for, if it waits for one. -/
def awaited? (run : Run σ) : Option Nat :=
  match run.stage with
  | .await ⟨some glide, _⟩ => some glide.instant
  | .await ⟨none, event :: _⟩ => some (run.start + Instant.ofMilliseconds event.time.toNat)
  | _ => none

/-- The instant at which the next step can be made. A request to cancel ends every wait. -/
def ready (run : Run σ) : Nat :=
  match run.awaited? with
  | some instant => if run.cancelRequested then run.free else max run.free instant
  | none => run.free

/-- Lets go of everything, on the way to the given outcome. -/
def drain (run : Run σ) (outcome : Outcome) : Run σ :=
  { run with stage := .issue run.state.releases (.finish outcome) }

/-- The calls that an event begins with, and the glide that it starts. What is held already is
not pressed again, and what is not held is not released. -/
def dispatch (run : Run σ) (event : Event) : List Call × Option Glide :=
  let due := run.start + Instant.ofMilliseconds event.time.toNat
  match event.action with
  | .unknown => ([], none)
  | .move mode x y duration =>
    if duration = 0 then
      match mode with
      | .absolute => ([.moveAbsolute x y], none)
      | .relative => ([.moveRelative x y], none)
    else
      ([], Glide.start? mode ⟨x, y⟩ run.state.pointer duration run.settings.effectiveTick due)
  | .button .down n => (if n ∈ run.state.buttons then [] else [.buttonDown n], none)
  | .button .up n => (if n ∈ run.state.buttons then [.buttonUp n] else [], none)
  | .key .down code => (if code ∈ run.state.keys then [] else [.keyDown code], none)
  | .key .up code => (if code ∈ run.state.keys then [.keyUp code] else [], none)
  | .release target =>
    ((if target.includesKeys then run.state.keyReleases else []) ++
      (if target.includesMouse then run.state.buttonReleases else []), none)
  | .text payload => ((Utf8.decode payload).map .typeCharacter, none)

/-- The end of a wait: the next event or the next step of a glide, unless the run was cancelled.
Where nothing is left to wait for, no request to cancel is noticed any more. -/
def wake (run : Run σ) (now : Nat) (todo : Todo) : Run σ :=
  match todo with
  | ⟨some glide, rest⟩ =>
    if run.cancelRequested then run.drain .cancelled
    else { run with stage := .issue [glide.call] (.proceed ⟨glide.next?, rest⟩) }
  | ⟨none, event :: rest⟩ =>
    if run.cancelRequested then run.drain .cancelled
    else
      let (calls, glide) := run.dispatch event
      { run with
        stage := .issue calls (.proceed ⟨glide, rest⟩)
        history := .began now event :: run.history }
  | ⟨none, []⟩ => run.drain .completed

/-- Begins a call. Its answer takes effect when the call returns. -/
def beginCall (backend : Backend σ) (run : Run σ) (now : Nat) (call : Call) (calls : List Call)
    (next : Next) : Run σ :=
  let (reply, device) := backend.perform now call run.device
  { run with
    device
    stage := .answer call reply.ok calls next
    free := now + reply.cost
    cancelRequested := run.cancelRequested || reply.cancels
    history := .called now next.purpose call reply :: run.history }

/-- The end of a call. A failure ends the run while events are dispatched; the drain complains of
it and goes on as if the call had succeeded. -/
def finishCall (run : Run σ) (now : Nat) (call : Call) (ok : Bool) (calls : List Call)
    (next : Next) : Run σ :=
  match next with
  | .proceed _ =>
    if ok then { run with state := run.state.after call, stage := .issue calls next }
    else { run with fault := some call }.drain .failed
  | .finish _ =>
    { run with
      state := run.state.after call
      stage := .issue calls next
      history := if ok then run.history else .stuck now call :: run.history }

/-- The next step of a run, made at the given instant. -/
def step (backend : Backend σ) (run : Run σ) (now : Nat) : Run σ :=
  match run.stage with
  | .opening timeline =>
    { run with
      state := { run.state with pointer := backend.pointer run.device }
      start := now
      stage := .await ⟨none, timeline⟩ }
  | .await todo => run.wake now todo
  | .issue (call :: calls) next => run.beginCall backend now call calls next
  | .issue [] (.proceed todo) => { run with stage := .await todo }
  | .issue [] (.finish outcome) => { run with stage := .ended outcome }
  | .answer call ok calls next => run.finishCall now call ok calls next
  | .ended _ => run

theorem wake_lt (run : Run σ) (now : Nat) (todo : Todo) :
    (run.wake now todo).stage.Lt (.await todo) := by
  obtain ⟨glide, rest⟩ := todo
  cases glide with
  | some glide =>
    have := glide.left_pos
    rw [wake]
    split
    · exact .inl (by simp [drain, Stage.eventsLeft, Next.eventsLeft])
    · refine .inr ⟨rfl, .inl ?_⟩
      cases h : glide.next? with
      | none => simpa [Stage.stepsLeft, Next.stepsLeft, Todo.stepsLeft, h] using this
      | some g =>
        simpa [Stage.stepsLeft, Next.stepsLeft, Todo.stepsLeft, h] using Glide.left_of_next? h
  | none =>
    cases rest with
    | nil => exact .inl (by simp [wake, drain, Stage.eventsLeft, Next.eventsLeft])
    | cons event rest =>
      rw [wake]
      split
      · exact .inl (by simp [drain, Stage.eventsLeft, Next.eventsLeft])
      · exact .inl (by simp [Stage.eventsLeft, Next.eventsLeft])

/-- A run that is not over comes nearer to its end with every step. -/
theorem step_lt (backend : Backend σ) (run : Run σ) (now : Nat) (h : run.isOver = false) :
    (run.step backend now).stage.Lt run.stage := by
  unfold step
  cases hs : run.stage with
  | opening timeline => exact .inl (by simp [Stage.eventsLeft])
  | await todo => exact run.wake_lt now todo
  | issue calls next =>
    cases calls with
    | cons call calls =>
      exact .inr ⟨rfl, .inr ⟨rfl, by simp [beginCall, Stage.callsLeft]; omega⟩⟩
    | nil =>
      cases next with
      | proceed todo => exact .inr ⟨rfl, .inr ⟨rfl, by simp [Stage.callsLeft]⟩⟩
      | finish outcome => exact .inr ⟨rfl, .inl (by simp [Stage.stepsLeft, Next.stepsLeft])⟩
  | answer call ok calls next =>
    cases next with
    | proceed todo =>
      cases ok with
      | true => exact .inr ⟨rfl, .inr ⟨rfl, by simp [finishCall, Stage.callsLeft]⟩⟩
      | false => exact .inl (by simp [finishCall, drain, Stage.eventsLeft, Next.eventsLeft])
    | finish outcome => exact .inr ⟨rfl, .inr ⟨rfl, by simp [finishCall, Stage.callsLeft]⟩⟩
  | ended outcome => simp [isOver, Stage.isOver, hs] at h

end Run

end TimedInput
