import TimedInput.Number.Rounding
import TimedInput.Playback.InputState
import TimedInput.Script.Action
import TimedInput.Time.Instant

/-!
# Glides

A move that takes time is made in evenly spaced steps, of which the last one is due
when the duration is over. The position of each step is rounded from the exact line, so
errors do not add up, and the last step is the target itself. A relative glide sends
the differences of its rounded positions.
-/

namespace TimedInput

/-- The steps of a move: the quotient of duration and tick, rounded up by a sum of 64 bits that
wraps, and read as a signed number. -/
def stepCount (duration tick : UInt64) : Nat :=
  ((duration + tick - 1) / tick).toInt64.toNatClampNeg

/-- The share of the distance `d` that step `i` of `n` has reached. -/
def stepPosition (n : Nat) (d : Int) (i : Nat) : Int :=
  if i = n then d
  else
    let product := Rounding.binary64 (Rounding.binary64 d * Rounding.binary64 i)
    Rounding.halfAway (Rounding.binary64 (product / Rounding.binary64 n))

/-- The time from the start of a move to step `i` of `n`, truncated to whole nanoseconds. -/
def stepOffset (n : Nat) (duration : UInt64) (i : Nat) : Nat :=
  let product := Rounding.binary64 (Rounding.binary64 duration.toNat * Rounding.binary64 i)
  let ms := Rounding.binary64 (product / Rounding.binary64 n)
  (Rounding.binary64 (ms * 1000000)).floor.toNat

/-- A move under way, with at least one step to come. -/
structure Glide where
  mode : MoveMode
  /-- Where an absolute glide starts. -/
  origin : Point
  /-- The distance to cover, which two coordinates of 32 bits may exceed. -/
  dx : Int
  dy : Int
  duration : UInt64
  /-- The instant at which the move itself is due. -/
  due : Nat
  count : Nat
  taken : Nat
  taken_lt : taken < count

namespace Glide

/-- A move that is due at the given instant, unless it has no steps. An absolute move from an
unknown position starts at its target. -/
def start? (mode : MoveMode) (target : Point) (pointer : Option Point) (duration tick : UInt64)
    (due : Nat) : Option Glide :=
  let origin := match mode with
    | .absolute => pointer.getD target
    | .relative => Point.origin
  let count := stepCount duration tick
  if h : 0 < count then
    some
      { mode, origin, duration, due, count
        dx := target.x.toInt - origin.x.toInt
        dy := target.y.toInt - origin.y.toInt
        taken := 0
        taken_lt := h }
  else none

/-- The instant of the next step. -/
def instant (g : Glide) : Nat :=
  g.due + stepOffset g.count g.duration (g.taken + 1)

/-- The call that makes the next step. -/
def call (g : Glide) : Call :=
  let x := stepPosition g.count g.dx (g.taken + 1)
  let y := stepPosition g.count g.dy (g.taken + 1)
  match g.mode with
  | .absolute =>
    .moveAbsolute (Int32.ofInt (g.origin.x.toInt + x)) (Int32.ofInt (g.origin.y.toInt + y))
  | .relative =>
    .moveRelative (Int32.ofInt (x - stepPosition g.count g.dx g.taken))
      (Int32.ofInt (y - stepPosition g.count g.dy g.taken))

/-- The rest of the move after the next step. -/
def next? (g : Glide) : Option Glide :=
  if h : g.taken + 1 < g.count then some { g with taken := g.taken + 1, taken_lt := h } else none

/-- The number of steps to come. -/
def left (g : Glide) : Nat :=
  g.count - g.taken

theorem left_pos (g : Glide) : 0 < g.left := by
  have := g.taken_lt
  unfold left
  omega

theorem left_of_next? {g h : Glide} (eq : g.next? = some h) : h.left < g.left := by
  unfold next? at eq
  split at eq
  · cases eq
    simp only [left]
    omega
  · cases eq

end Glide

end TimedInput
