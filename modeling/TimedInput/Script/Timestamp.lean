import TimedInput.Text.Numeral

/-!
# Timestamps

The first part of a line says when its actions happen: at a number of milliseconds
from the start of the script, or that long after the line before it. Resolution goes
line by line in the order of the source, whatever order the times end up in.
-/

namespace TimedInput

/-- The latest time that a line may have, in milliseconds. An instant is a signed word of 64 bits
that counts nanoseconds, and a quarter of its range is used, so that the sum of a start, a time
and a duration stays within it. -/
def maxTime : UInt64 := 2305843009213

inductive Timestamp where
  | absolute (ms : UInt64)
  | relative (ms : UInt64)
  deriving DecidableEq, Repr

namespace Timestamp

def isRelative : Timestamp → Bool
  | .absolute _ => false
  | .relative _ => true

def ms : Timestamp → UInt64
  | .absolute ms => ms
  | .relative ms => ms

/-- Digits and nothing else, up to the largest signed word of 64 bits. -/
def digits? (s : Bytes) : Option UInt64 :=
  if s != [] && s.all Numeral.isDigit then
    (Numeral.integer? s).map fun n => n.toNat.toUInt64
  else none

/-- Reads a number, with a plus sign in front if it is relative, between blanks. -/
def parse? (token : Bytes) : Option Timestamp :=
  match token.trim with
  | 43 :: rest => (digits? rest).map .relative
  | rest => (digits? rest).map .absolute

/-- Reads a token in place of the timestamp, which stays as it is if the token is none; tells
whether the token was read. -/
def readInto (timestamp : Timestamp) (token : Bytes) : Timestamp × Bool :=
  match parse? token with
  | some read => (read, true)
  | none => (timestamp, false)

/-- The time meant, when the line before is at `base`. -/
def resolve (base : UInt64) : Timestamp → UInt64
  | .absolute ms => ms
  | .relative ms => base + ms

/-- Is the time at most `maxTime`, when the line before is at `base`? -/
def inRange (base : UInt64) : Timestamp → Bool
  | .absolute ms => ms ≤ maxTime
  | .relative ms => ms ≤ maxTime && ms ≤ maxTime - base

end Timestamp

end TimedInput
