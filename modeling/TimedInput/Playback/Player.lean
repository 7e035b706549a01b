import TimedInput.Playback.Run
import TimedInput.Script.Compilation

/-!
# Players

A player plays one script at most. It can be cancelled before it has begun, which makes
it useless, and while it plays. What it tells about the run, the reason of a failure and
the input state, changes only when the run is over.

`Player.work` is the one step that a player makes by itself; all other operations belong
to its owner.
-/

namespace TimedInput

inductive PlayState where
  | idle
  | running
  | completed
  | cancelled
  | failed
  deriving DecidableEq, Repr

namespace PlayState

def all : List PlayState :=
  [.idle, .running, .completed, .cancelled, .failed]

def name : PlayState → Bytes
  | .idle => ascii "Idle"
  | .running => ascii "Running"
  | .completed => ascii "Completed"
  | .cancelled => ascii "Cancelled"
  | .failed => ascii "Failed"

/-- Final states are never left. -/
def isFinal : PlayState → Bool
  | .idle | .running => false
  | .completed | .cancelled | .failed => true

def ofOutcome : Outcome → PlayState
  | .completed => .completed
  | .cancelled => .cancelled
  | .failed => .failed

end PlayState

/-- A player that is idle may be without a device; then it never begins. -/
inductive Player (σ : Type) where
  | idle (device : Option σ)
  | dismissed
  | started (run : Run σ)

namespace Player

variable {σ : Type}

def state : Player σ → PlayState
  | .idle _ => .idle
  | .dismissed => .cancelled
  | .started run =>
    match run.stage with
    | .ended outcome => .ofOutcome outcome
    | _ => .running

/-- The reason of a failure, and nothing as long as there is none. -/
def error : Player σ → Bytes
  | .started run =>
    if run.isOver then (run.fault.map Call.failure).getD [] else []
  | _ => []

/-- The input state at the end of the run. -/
def inputState : Player σ → InputState
  | .started run => if run.isOver then run.state else .empty
  | _ => .empty

/-- Begins to play, if the player has a device, was never used and the script has no errors. -/
def start (player : Player σ) (settings : Settings) (script : Script) (now : Nat) :
    Player σ × Bool :=
  match player with
  | .idle (some device) =>
    if script.isValid then
      (.started (Run.ofTimeline settings script.timeline device now), true)
    else (player, false)
  | _ => (player, false)

def cancel : Player σ → Player σ
  | .idle _ => .dismissed
  | .dismissed => .dismissed
  | .started run =>
    if run.isOver then .started run else .started { run with cancelRequested := true }

/-- The next step of the run, made at the given instant. -/
def work (backend : Backend σ) (player : Player σ) (now : Nat) : Player σ :=
  match player with
  | .started run => .started (run.step backend now)
  | _ => player

/-- What happened in the run, the latest first. -/
def history : Player σ → List Entry
  | .started run => run.history
  | _ => []

/-- What the run has printed. -/
def printed (player : Player σ) (verbose : Bool) : Bytes :=
  player.history.reverse.flatMap (Entry.printed verbose)

end Player

end TimedInput
