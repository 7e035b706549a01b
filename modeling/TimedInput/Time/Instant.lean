/-!
# Instants

Instants and spans of time are natural numbers of nanoseconds; instants count from an
arbitrary origin. Scripts, waits and logs speak of milliseconds.
-/

namespace TimedInput.Instant

/-- The nanoseconds of a number of milliseconds. -/
def ofMilliseconds (ms : Nat) : Nat :=
  ms * 1000000

/-- The span of a wait for a number of milliseconds. The number is read as a signed word, and its
nanoseconds are a signed word again, which wraps. A negative wait is over at once. -/
def ofWait (ms : UInt64) : Nat :=
  (ms.toInt64 * 1000000).toNatClampNeg

/-- The span that such a wait lasts. Its end is a signed word, too: one that does not fit wraps and
is past already. -/
def waited (now : Nat) (ms : UInt64) : Nat :=
  if now + ofWait ms < 9223372036854775808 then ofWait ms else 0

/-- The whole milliseconds of a span. -/
def milliseconds (t : Nat) : Nat :=
  t / 1000000

end TimedInput.Instant
