import TimedInput.Script.Action

/-!
# Timelines

The actions of all lines in the order in which they are due. Events of one time keep
the order of the source; their numbers record that order.
-/

namespace TimedInput

/-- A line of a script after its time was resolved. -/
structure ScheduledLine where
  time : UInt64
  actions : List Action
  deriving DecidableEq, Repr

structure Event where
  /-- Milliseconds from the start of the run. -/
  time : UInt64
  action : Action
  /-- The place of the action in the source. -/
  seq : UInt32
  deriving DecidableEq, Repr

abbrev Timeline := List Event

namespace Timeline

/-- Puts an event in front of the first one that is not earlier. -/
def insert (e : Event) : Timeline → Timeline
  | [] => [e]
  | first :: rest => if e.time ≤ first.time then e :: first :: rest else first :: insert e rest

/-- The actions with their times, numbered in the order of the source. -/
def inSourceOrder (lines : List ScheduledLine) : List Event :=
  ((lines.flatMap fun line => line.actions.map fun action => (line.time, action)).zipIdx).map
    fun ((time, action), i) => ⟨time, action, i.toUInt32⟩

def ofLines (lines : List ScheduledLine) : Timeline :=
  (inSourceOrder lines).foldr insert []

end Timeline

end TimedInput
