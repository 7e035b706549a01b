import TimedInput.Backend.Rehearsal
import TimedInput.Playback.Session
import TimedInput.Selftest.ScriptCases
import TimedInput.Time.Stopwatch

/-!
# Trials of playback

Scripts are played on a rehearsal backend, in sessions on the clock of the trial: the
calls and their times, the steps of glides, what is released, and the ways to end.
-/

namespace TimedInput.Selftest

open Trial

/-- A session that begins now. -/
def rehearse (device : Rehearsal) (settings : Settings) : Trial (Session Rehearsal) := do
  return Session.new Rehearsal.backend settings (some device) (← now)

/-- Lets the time that passed in a session pass for the trial. -/
def keepUp (session : Session Rehearsal) : Trial Unit :=
  modify fun log => { log with clock := session.clock }

/-- Starts a script, which must be accepted. -/
def started (session : Session Rehearsal) (script : Script) : Trial (Session Rehearsal) := do
  let (session, accepted) := session.start script
  expect "the script is accepted" accepted
  return session

/-- The calls of a session by their records. -/
def calls (session : Session Rehearsal) : List Bytes :=
  session.player.history.reverse.filterMap fun entry =>
    match entry with
    | .called _ _ call _ => some call.record
    | _ => none

def countCalls (session : Session Rehearsal) (start : String) : Nat :=
  (calls session).countP (ascii start).isPrefixOf

/-- Plays a valid script to its end. -/
def played (device : Rehearsal) (settings : Settings) (script : Script) :
    Trial (Session Rehearsal) := do
  expect "the script is valid" script.isValid
  let session := (← started (← rehearse device settings) script).wait
  keepUp session
  expect "nothing is held at the end" session.player.inputState.isEmpty
  return session

/-- Expects an end and the calls on the way to it. -/
def expectRun (session : Session Rehearsal) (state : PlayState) (records : List String) :
    Trial Unit := do
  expect "the run ends as it should" (session.state == state)
  let made := calls session
  if made != records.map ascii then
    made.forM fun record => print (ascii "    " ++ record ++ ascii "\n")
  expect "the calls are as they should be" (made == records.map ascii)

/-- Plays a script on a smooth backend to its end, and expects these calls. -/
def expectCalls (lines : List String) (records : List String) : Trial Unit := do
  expectRun (← played .smooth .standard (compiled lines)) .completed records

/-- A backend that knows where the pointer is. -/
def pointing (x y : Int32) : Rehearsal :=
  { Rehearsal.smooth with pointer := some ⟨x, y⟩ }

/-- A backend on which one call fails. -/
def failingOn (record : String) : Rehearsal :=
  { Rehearsal.smooth with failing := [ascii record] }

/-- A number of thousandths of a second in single precision. -/
def thousandths (n : Nat) : Rat :=
  Rounding.binary32 (n / 1000)

def playingInOrder : Trial Unit :=
  expectCalls ["0>mousemove abs 10 10", "100>keydown a;keyup a", "+50>release key"]
    ["moveAbsolute 10 10", "keyDown a", "keyUp a"]

def keepingTime : Trial Unit := do
  let watch : Stopwatch := ⟨← now⟩
  scope (ascii "out of order lines") 1 do
    expectCalls ["60>keydown b", "30>keydown a", "+0>release both"]
      ["keyDown a", "keyUp a", "keyDown b", "keyUp b"]
  expect "the time has passed" (thousandths 59 ≤ watch.elapsed (← now))

/-- The sum of the distances that were sent. -/
def travelled (session : Session Rehearsal) : Point :=
  session.player.history.foldl (fun sum entry =>
    match entry with
    | .called _ _ (.moveRelative dx dy) _ => sum + ⟨dx, dy⟩
    | _ => sum) .origin

def glidingByDistances : Trial Unit := do
  let watch : Stopwatch := ⟨← now⟩
  let session ← played .smooth .standard (compiled ["0>mousemove rel 0 570 200"])
  expect "the run completes" (session.state == .completed)
  expect "the time has passed" (thousandths 199 ≤ watch.elapsed (← now))
  expect "there is a step for each tick" ((calls session).length == 13)
  expect "all steps are distances" (countCalls session "moveRelative" == 13)
  expect "the steps add up" (travelled session == ⟨0, 570⟩)

def glidingToPositions : Trial Unit := do
  let session ← played (pointing 100 100) .standard (compiled ["0>mousemove abs 200 300 50"])
  expectRun session .completed
    ["moveAbsolute 125 150", "moveAbsolute 150 200", "moveAbsolute 175 250",
     "moveAbsolute 200 300"]
  expectCalls ["0>mousemove abs 7 9 20"] ["moveAbsolute 7 9", "moveAbsolute 7 9"]
  expectCalls ["0>mousemove abs 0 0", "0>mousemove rel 10 0", "0>mousemove abs 30 0 32"]
    ["moveAbsolute 0 0", "moveRelative 10 0", "moveAbsolute 20 0", "moveAbsolute 30 0"]

def repeatingEvents : Trial Unit :=
  expectCalls
    ["0>keydown a;keydown a;mousedown 1;mousedown 1",
     "10>keyup a;keyup a;mouseup 1;mouseup 1;mouseup 2;keyup b"]
    ["keyDown a", "buttonDown 1", "keyUp a", "buttonUp 1"]

def releasing : Trial Unit := do
  expectCalls ["0>release both", "10>release key", "20>release mouse"] []
  expectCalls
    ["0>keydown a;keydown shift;mousedown 2", "10>release key", "20>release mouse",
     "30>keydown b"]
    ["keyDown a", "keyDown shift", "buttonDown 2", "keyUp a", "keyUp shift", "buttonUp 2",
     "keyDown b", "keyUp b"]

def typing : Trial Unit := do
  let text := ascii "0>text h" ++ Utf8.encode ['é'] ++ source [" !;keydown a", "10>release key"]
  let session ← played .smooth .standard (Script.compile .standard text)
  expectRun session .completed
    ["type 68", "type E9", "type 20", "type 21", "keyDown a", "keyUp a"]

def cancelling : Trial Unit := do
  let script := compiled ["0>mousedown 1;keydown shift;mousemove rel 1000 0 2000", "3000>keydown a"]
  expect "the script is valid" script.isValid
  let watch : Stopwatch := ⟨← now⟩
  let session ← started (← rehearse .smooth .standard) script
  let (session, settled) := session.waitFor (Instant.ofMilliseconds 50)
  expect "it takes longer than that" (!settled && session.state == .running)
  let session := session.cancel.wait
  keepUp session
  expect "the run is cancelled" (session.state == .cancelled)
  expect "soon" (watch.elapsed (← now) < 1)
  expect "nothing is held" session.player.inputState.isEmpty
  expect "the glide was cut short" (countCalls session "moveRelative" < 125)
  expect "later events were not played" (countCalls session "keyDown a" == 0)
  expect "the key was released" (countCalls session "keyUp shift" == 1)
  expect "the button was released" (countCalls session "buttonUp 1" == 1)
  let (session, accepted) := session.start script
  expect "there is no second run" (!accepted && session.state == .cancelled)
  let unused := (← rehearse .smooth .standard).cancel
  let (unused, accepted) := unused.start script
  expect "nor a first one after a request to cancel" (!accepted && unused.wait.state == .cancelled)

def waitingLong : Trial Unit := do
  scope (ascii "event at the upper bound") 1 do
    let script := compiled [s!"{maxTime.toNat}>keydown a"]
    expect "the script is valid" script.isValid
    let session ← started (← rehearse .smooth .standard) script
    let (session, settled) := session.waitFor (Instant.ofMilliseconds 200)
    expect "it takes longer than that" (!settled)
    let session := session.cancel.wait
    keepUp session
    expectRun session .cancelled []
  scope (ascii "long timed move") 1 do
    let script := compiled ["0>mousemove rel 0 1000 2147483647"]
    expect "the script is valid" script.isValid
    let session ← started (← rehearse .smooth .standard) script
    let session := (session.sleep (Instant.ofMilliseconds 100)).cancel.wait
    keepUp session
    expect "the run is cancelled" (session.state == .cancelled)
    expect "there was a step for each tick" (countCalls session "moveRelative" ≤ 10)
  scope (ascii "far apart absolute move") 1 do
    let session ← played (pointing (-1000) 0) .standard
      (compiled ["0>mousemove abs 2147483000 0 32"])
    expectRun session .completed ["moveAbsolute 1073741000 0", "moveAbsolute 2147483000 0"]

def failing : Trial Unit := do
  let session ← played (failingOn "keyDown b") .standard
    (compiled ["0>keydown a;mousedown 3", "10>keydown b", "20>keydown c"])
  expectRun session .failed ["keyDown a", "buttonDown 3", "keyDown b", "keyUp a", "buttonUp 3"]
  let script := compiled ["0>mousemove rel 0 10 20"]
  let session := (← started (← rehearse (failingOn "moveRelative 0 5") ⟨10, false⟩) script).wait
  keepUp session
  expect "the run fails" (session.state == .failed)
  expect "the reason names the call"
    (Bytes.breakOn (ascii "moveRelative(0, 5)") session.player.error).isSome
  expect "there was one call" ((calls session).length == 1)

def refusingScripts : Trial Unit := do
  let script := compiled ["0>keydown a", "abc>keydown xyz"]
  expect "the script has errors" (!script.isValid)
  let (session, accepted) := (← rehearse .smooth .standard).start script
  expect "it is refused" (!accepted)
  expectRun session .idle []

def playbackCases : List TrialCase :=
  [⟨ascii "Player_Basic", playingInOrder⟩,
   ⟨ascii "Player_Timing", keepingTime⟩,
   ⟨ascii "Player_InterpolateRelative", glidingByDistances⟩,
   ⟨ascii "Player_InterpolateAbsolute", glidingToPositions⟩,
   ⟨ascii "Player_Idempotence", repeatingEvents⟩,
   ⟨ascii "Player_Release", releasing⟩,
   ⟨ascii "Player_Text", typing⟩,
   ⟨ascii "Player_Cancel", cancelling⟩,
   ⟨ascii "Player_LongTimes", waitingLong⟩,
   ⟨ascii "Player_DeviceError", failing⟩,
   ⟨ascii "Player_RejectsInvalidScript", refusingScripts⟩]

end TimedInput.Selftest
