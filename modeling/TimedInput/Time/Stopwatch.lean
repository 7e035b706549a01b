import TimedInput.Number.Places
import TimedInput.Text.Console
import TimedInput.Time.Instant

/-!
# Stopwatches

Elapsed time in seconds as a single precision number, and the line that reports how
long something took.
-/

namespace TimedInput

structure Stopwatch where
  begun : Nat
  deriving DecidableEq, Repr

namespace Stopwatch

/-- The seconds since the stopwatch was started, divided in double precision and then rounded to
single precision. -/
def elapsed (watch : Stopwatch) (now : Nat) : Rat :=
  let span : Nat := now - watch.begun
  Rounding.binary32 (Rounding.binary64 (Rounding.binary64 span / 1000000000))

/-- The line for a labelled stretch of time that ends now, in milliseconds. -/
def report (watch : Stopwatch) (label : Bytes) (now : Nat) : Bytes :=
  let ms := Rounding.binary32 (watch.elapsed now * 1000)
  Console.print (label.untilNul.clip 4095 ++ ascii " - " ++ twoPlaces ms ++ ascii "ms\n")

end Stopwatch

end TimedInput
