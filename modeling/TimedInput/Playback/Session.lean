import TimedInput.Playback.Player

/-!
# Sessions

A session is a player with its backend on a clock that is not a real one: computation
takes no time, and while the owner waits the clock jumps from one step of the run to
the next that is due. Steps due at the moment when a wait ends are still made before it
ends. A wait that would end at once lets no step be made.
-/

namespace TimedInput

namespace Run

variable {σ : Type}

theorem prodLex_of_stageLt {a b : Stage} (h : a.Lt b) :
    Prod.Lex (· < ·) (Prod.Lex (· < ·) (· < ·)) (a.eventsLeft, a.stepsLeft, a.callsLeft)
      (b.eventsLeft, b.stepsLeft, b.callsLeft) := by
  obtain h | ⟨he, h | ⟨hs, h⟩⟩ := h
  · exact .left _ _ h
  · rw [he]
    exact .right _ (.left _ _ h)
  · rw [he, hs]
    exact .right _ (.right _ h)

/-- Makes the steps that are due until the deadline, or all of them. Gives the instant of the last
one with the run. -/
def playUntil (backend : Backend σ) (deadline : Option Nat) (clock : Nat) (run : Run σ) :
    Nat × Run σ :=
  if h : run.isOver then (clock, run)
  else
    let now := max clock run.ready
    if deadline.any (· < now) then (clock, run)
    else
      have := run.step_lt backend now (by simpa using h)
      playUntil backend deadline now (run.step backend now)
termination_by (run.stage.eventsLeft, run.stage.stepsLeft, run.stage.callsLeft)
decreasing_by
  apply prodLex_of_stageLt
  assumption

end Run

structure Session (σ : Type) where
  backend : Backend σ
  settings : Settings
  clock : Nat
  player : Player σ

namespace Session

variable {σ : Type}

/-- A session with an unused player. -/
def new (backend : Backend σ) (settings : Settings) (device : Option σ) (clock : Nat) :
    Session σ :=
  ⟨backend, settings, clock, .idle device⟩

def state (s : Session σ) : PlayState :=
  s.player.state

/-- Nothing is playing: no run has begun, or it is over. -/
def isSettled (s : Session σ) : Bool :=
  s.state != .running

@[simp] theorem isSettled_started (backend : Backend σ) (settings : Settings) (clock : Nat)
    (run : Run σ) : (mk backend settings clock (.started run)).isSettled = run.isOver := by
  obtain ⟨_, stage, _⟩ := run
  cases stage with
  | ended outcome => cases outcome <;> rfl
  | _ => rfl

/-- Lets the player work until the deadline or to the end of its run. -/
def play (s : Session σ) (deadline : Option Nat) : Session σ :=
  match s.player with
  | .started run =>
    let (clock, run) := run.playUntil s.backend deadline s.clock
    { s with clock, player := .started run }
  | _ => s

def start (s : Session σ) (script : Script) : Session σ × Bool :=
  let (player, accepted) := s.player.start s.settings script s.clock
  ({ s with player }, accepted)

def cancel (s : Session σ) : Session σ :=
  { s with player := s.player.cancel }

/-- Waits until nothing is playing. -/
def wait (s : Session σ) : Session σ :=
  s.play none

/-- Waits until nothing is playing, at most for the given span; tells whether it came to that. -/
def waitFor (s : Session σ) (span : Nat) : Session σ × Bool :=
  if s.isSettled || span = 0 then (s, s.isSettled)
  else
    let deadline := s.clock + span
    let played := s.play (some deadline)
    if played.isSettled then (played, true) else ({ played with clock := deadline }, false)

/-- Lets the span pass, whatever happens meanwhile. -/
def sleep (s : Session σ) (span : Nat) : Session σ :=
  if span = 0 then s
  else { s.play (some (s.clock + span)) with clock := s.clock + span }

/-- The end of the player: what it plays is cancelled, and its run comes to an end. -/
def close (s : Session σ) : Session σ :=
  s.cancel.play none

end Session

end TimedInput
