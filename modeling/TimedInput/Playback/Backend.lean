import TimedInput.Playback.InputState
import TimedInput.Time.Instant

/-!
# Backends

A backend performs device calls. It is given by what it does to a state of its own, so
whatever a device may answer, at whatever moment, is the answer of some backend.
-/

namespace TimedInput

/-- What a call comes to. -/
structure Reply where
  ok : Bool
  /-- What the backend printed. -/
  printed : Bytes
  /-- How long the call keeps its caller. -/
  cost : Nat
  /-- Was the run cancelled from within the call? -/
  cancels : Bool
  deriving DecidableEq, Repr

namespace Reply

/-- An immediate answer without side effects. -/
def plain (ok : Bool) : Reply :=
  ⟨ok, [], 0, false⟩

end Reply

structure Backend (σ : Type) where
  /-- Performs a call that begins at the given instant. -/
  perform : Nat → Call → σ → Reply × σ
  /-- The position of the pointer, if it can be known. -/
  pointer : σ → Option Point

end TimedInput
