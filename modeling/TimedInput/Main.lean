import Std.Async.Signal
import TimedInput.CommandLine

/-!
# The program

Carries a plan out on the real clock: the session is taken from one due step to the
next, and what it prints is written as soon as it is printed. An interrupt from the
terminal asks the player to cancel. All decisions are those of the command line and of
the session.
-/

namespace TimedInput.Program

open CommandLine

def write (stream : IO.FS.Stream) (text : Bytes) : IO Unit := do
  stream.write (ByteArray.mk text.toArray)
  stream.flush

/-- The content of a file, if it can be read. -/
def read? (path : Bytes) : IO (Option Bytes) := do
  match String.fromUTF8? (ByteArray.mk path.toArray) with
  | none => return none
  | some name =>
    try
      return some (← IO.FS.readBinFile name).toList
    catch _ => return none

/-- The content of the one file that the arguments may ask for. -/
def contentFor (args : List Bytes) : IO (Option Bytes) :=
  match Request.ofArguments args with
  | .play options => read? options.path
  | _ => return none

/-- Gives an action that tells whether the program was interrupted since. -/
def watchInterrupt : IO (BaseIO Bool) := do
  let waiter ← Std.Async.Signal.Waiter.mk .sigint false
  let arrival ← waiter.wait
  return IO.hasFinished arrival

/-- Follows a session that began at the given instant of the real clock until it has nothing more
to do. A pause is never longer than a slice. -/
partial def follow (began : Nat) (interrupted : BaseIO Bool) (session : Session Printer) :
    IO (Session Printer) := do
  let clock := (← IO.monoNanosNow) - began
  let next := session.sleep (clock - session.clock)
  let shown := session.player.history.length
  let entries := (next.player.history.take (next.player.history.length - shown)).reverse
  write (← IO.getStdout) (entries.flatMap (Entry.printed next.settings.verbose))
  if next.isSettled then return next
  let next := if (← interrupted) then next.cancel else next
  IO.sleep (Instant.milliseconds (min next.gap slice) + 1).toUInt32
  follow began interrupted next

def carryOut : Plan → IO UInt32
  | .stop exit stdout stderr => do
    write (← IO.getStdout) stdout
    write (← IO.getStderr) stderr
    return exit.toUInt32
  | .play settings script stderr => do
    write (← IO.getStderr) stderr
    let interrupted ← watchInterrupt
    let session ← follow (← IO.monoNanosNow) interrupted (dryRun settings script)
    let (exit, message) := farewell session.player
    write (← IO.getStderr) message
    return exit.toUInt32

end TimedInput.Program

def main (args : List String) : IO UInt32 := do
  let args := args.map fun arg => arg.toUTF8.toList
  let content? ← TimedInput.Program.contentFor args
  TimedInput.Program.carryOut (.ofArguments (fun _ => content?) args)
