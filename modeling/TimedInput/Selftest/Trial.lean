import TimedInput.Number.Places
import TimedInput.Time.Instant

/-!
# Trials

Named cases that run one after the other on a clock of their own, print what they do,
and count the expectations that fail. A case passes when none of its own failed; a
selection of cases succeeds when at least one ran and none failed.
-/

namespace TimedInput

/-- What the trials came to so far. -/
structure TrialLog where
  clock : Nat
  failures : Nat
  /-- The expectations looked at so far. -/
  checks : Nat
  /-- The printed texts, the latest first. -/
  printed : List Bytes
  deriving DecidableEq, Repr

abbrev Trial := StateM TrialLog

structure TrialCase where
  name : Bytes
  body : Trial Unit

namespace Trial

/-- The milliseconds of a span, divided in double precision and rounded to single precision. -/
def milliseconds (span : Nat) : Rat :=
  Rounding.binary32 (Rounding.binary64 (Rounding.binary64 span / 1000000))

/-- A number of milliseconds with its unit. -/
def inMilliseconds (ms : Rat) : Bytes :=
  twoPlaces ms ++ ascii "ms"

def print (text : Bytes) : Trial Unit :=
  modify fun log => { log with printed := text :: log.printed }

def now : Trial Nat := do
  return (← get).clock

def sleep (span : Nat) : Trial Unit :=
  modify fun log => { log with clock := log.clock + span }

/-- Counts a failure, with a place and the expectation that was not met. -/
def fail (file : Bytes) (line : Int) (expectation : Bytes) : Trial Unit := do
  print (file.untilNul ++ ascii "(" ++ Numeral.ofInt line ++ ascii "): failed - " ++
    expectation.untilNul ++ ascii "\n")
  modify fun log => { log with failures := log.failures + 1 }

/-- Looks at an expectation, whose number stands for its place. -/
def expect (expectation : String) (met : Bool) : Trial Unit := do
  modify fun log => { log with checks := log.checks + 1 }
  if !met then fail (ascii "selftest") (← get).checks (ascii expectation)

def repeated : Nat → Trial Unit → Trial Unit
  | 0, _ => pure ()
  | n + 1, body => do
    body
    repeated n body

/-- The mean time of a number of rounds in single precision. Without rounds nothing was measured,
and the mean over a negative number of them is a negative zero. -/
def mean (ms : Rat) (rounds : Int) : Bytes :=
  if rounds < 0 then ascii "-" ++ inMilliseconds 0
  else inMilliseconds (Rounding.binary32 (ms / Rounding.binary32 rounds))

/-- Does something a number of times, and prints how long it took. -/
def scope (name : Bytes) (rounds : Int) (body : Trial Unit) : Trial Unit := do
  let begun ← now
  repeated rounds.toNat body
  let ms := milliseconds ((← now) - begun)
  print (ascii "    " ++ name.untilNul ++ ascii ": " ++ mean ms rounds)
  if 1 < rounds then
    print (ascii " (" ++ inMilliseconds ms ++ ascii " in total)")
  print (ascii "\n")

end Trial

namespace TrialCase

def run (trial : TrialCase) : Trial Unit := do
  let before := (← get).failures
  Trial.print (trial.name ++ ascii " begin\n")
  let begun ← Trial.now
  trial.body
  let ended ← Trial.now
  let verdict := if (← get).failures = before then ascii "passed" else ascii "FAILED"
  Trial.print (trial.name ++ ascii " " ++ verdict ++ ascii " (" ++
    Trial.inMilliseconds (Trial.milliseconds (ended - begun)) ++ ascii ")\n\n")

/-- All cases in order, or for each name in turn the cases of that name. -/
def select (cases : List TrialCase) (names : List Bytes) : List TrialCase :=
  if names = [] then cases
  else names.flatMap fun name => cases.filter (·.name == name)

end TrialCase

/-- How the trials ended, and when. -/
structure TrialResult where
  exit : Nat
  ended : Nat
  stdout : Bytes
  deriving DecidableEq, Repr

/-- Runs the cases that are asked for. Names end at their first NUL. -/
def runTrials (cases : List TrialCase) (names : List Bytes) : TrialResult :=
  let named := cases.map fun trial => { trial with name := trial.name.untilNul }
  let selected := TrialCase.select named (names.map Bytes.untilNul)
  let (_, log) := (selected.forM TrialCase.run).run ⟨0, 0, 0, []⟩
  let summary := Numeral.ofNat selected.length ++ ascii " test(s), " ++
    Numeral.ofNat log.failures ++ ascii " failure(s)\n"
  { exit := if log.failures = 0 && !selected.isEmpty then 0 else 1
    ended := log.clock
    stdout := (summary :: log.printed).reverse.flatten }

end TimedInput
