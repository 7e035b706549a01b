import TimedInput.Playback.Backend

/-!
# Rehearsal backend

Sends nothing. Which calls fail is decided beforehand, by their record or by their
number in the run, and so are the call that cancels the run and the time that each call
takes.
-/

namespace TimedInput

structure Rehearsal where
  /-- Where the pointer is said to be. -/
  pointer : Option Point
  failing : List Bytes
  failingAt : List Nat
  cancelAt : Option Nat
  cost : Nat
  /-- The number of calls so far. -/
  count : Nat
  deriving DecidableEq, Repr

namespace Rehearsal

/-- Every call succeeds at once, and the pointer is unknown. -/
def smooth : Rehearsal :=
  ⟨none, [], [], none, 0, 0⟩

def perform (r : Rehearsal) (call : Call) : Reply × Rehearsal :=
  ({ ok := !(r.failing.contains call.record || r.failingAt.contains r.count)
     printed := []
     cost := r.cost
     cancels := r.cancelAt == some r.count },
   { r with count := r.count + 1 })

def backend : Backend Rehearsal where
  perform _ call r := r.perform call
  pointer r := r.pointer

end Rehearsal

end TimedInput
