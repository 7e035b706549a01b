import TimedInput.Backend.Printer
import TimedInput.Playback.Supervision

/-!
# Command line

What a list of arguments asks for, and what comes of it. The arguments are read from the
left, and the first that is wrong, or that asks for help, decides. Nothing is played
unless everything is in order: the arguments, the name of the file, and the script in
it. The only backend here is the one for dry runs.
-/

namespace TimedInput.CommandLine

def usage : Bytes :=
  ascii "usage: tatata [options] path_to_script.tatata\n" ++
  ascii "  -d, --dry-run     print the input instead of sending it\n" ++
  ascii "  -v, --verbose     log every action as it is executed\n" ++
  ascii "  -t, --tick <ms>   interpolation step of timed mouse moves (default 16)\n"

structure Options where
  dryRun : Bool
  settings : Settings
  /-- Empty as long as no path was given. -/
  path : Bytes
  deriving DecidableEq, Repr

namespace Options

def initial : Options :=
  ⟨false, .standard, []⟩

end Options

/-- What the arguments ask for. -/
inductive Request where
  | help
  | play (options : Options)
  /-- The arguments are wrong; the message goes before the usage. -/
  | refuse (message : Bytes)
  deriving DecidableEq, Repr

/-- A tick is a positive number of 64 bits. -/
def tick? (arg : Bytes) : Option UInt64 :=
  ((Numeral.integer? arg).filter (0 < ·)).map fun n => n.toNat.toUInt64

def isFlag (short long : String) (arg : Bytes) : Bool :=
  arg == ascii short || arg == ascii long

/-- Reads the arguments after those that led to the given options. -/
def readArguments (options : Options) : List Bytes → Request
  | [] => if options.path = [] then .refuse [] else .play options
  | arg :: rest =>
    if isFlag "-d" "--dry-run" arg then readArguments { options with dryRun := true } rest
    else if isFlag "-v" "--verbose" arg then
      readArguments { options with settings := { options.settings with verbose := true } } rest
    else if isFlag "-t" "--tick" arg then
      match rest with
      | [] => .refuse (ascii "invalid tick interval\n")
      | value :: rest =>
        match tick? value with
        | none => .refuse (ascii "invalid tick interval\n")
        | some tick =>
          readArguments { options with settings := { options.settings with tick } } rest
    else if isFlag "-h" "--help" arg then .help
    else if arg.head? = some 45 then .refuse (ascii "unknown option " ++ arg ++ ascii "\n")
    else if options.path = [] then readArguments { options with path := arg } rest
    else .refuse []

/-- The arguments of a program, each of which ends at its first NUL. -/
def Request.ofArguments (args : List Bytes) : Request :=
  readArguments .initial (args.map Bytes.untilNul)

/-- What is left to do after everything was looked at. -/
inductive Plan where
  | stop (exit : Nat) (stdout stderr : Bytes)
  /-- Play a script; the warnings are printed before. -/
  | play (settings : Settings) (script : Script) (stderr : Bytes)
  deriving DecidableEq, Repr

/-- Diagnostics in lines, with a word in front of each. -/
def report (word : Bytes) (diagnostics : List Diagnostic) : Bytes :=
  diagnostics.flatMap fun d => word ++ d.describe ++ ascii "\n"

/-- Looks at the options and then at the script, whose content is looked up by its path. -/
def Plan.ofOptions (content? : Bytes → Option Bytes) (options : Options) : Plan :=
  if !options.path.endsWith (ascii ".tatata") then
    .stop 1 [] (ascii "Not a TATATA file: " ++ options.path ++ ascii "\n")
  else
    match content? options.path with
    | none => .stop 1 [] (Script.missingFile options.path ++ ascii "\n")
    | some content =>
      let script := Script.ofFile content
      let warnings := report (ascii "warning: ") script.warnings
      if !script.isValid then
        .stop 1 [] (warnings ++ report [] script.errors ++ Numeral.ofNat script.errors.length ++
          ascii " error(s), nothing was executed\n")
      else if !options.dryRun then
        .stop 1 [] (warnings ++ ascii "no input backend is available on " ++
          Platform.standard.name ++ ascii ", use --dry-run\n")
      else .play options.settings script warnings

def Plan.ofArguments (content? : Bytes → Option Bytes) (args : List Bytes) : Plan :=
  match Request.ofArguments args with
  | .help => .stop 0 usage []
  | .refuse message => .stop 1 [] (message ++ usage)
  | .play options => .ofOptions content? options

/-- How the program ended, and when. -/
structure Result where
  exit : Nat
  ended : Nat
  stdout : Bytes
  stderr : Bytes
  deriving DecidableEq, Repr

/-- The player is looked after in slices of 50 milliseconds. -/
def slice : Nat :=
  Instant.ofMilliseconds 50

/-- The session of a dry run that has just begun. -/
def dryRun (settings : Settings) (script : Script) : Session Printer :=
  ((Session.new Printer.backend settings (some (.new 0)) 0).start script).1

/-- The exit code after a session, and what is said about it. -/
def farewell (player : Player Printer) : Nat × Bytes :=
  match player.state with
  | .completed => (0, [])
  | .cancelled => (2, ascii "cancelled\n")
  | _ => (1, ascii "playback failed: " ++ player.error ++ ascii "\n")

/-- Carries a plan out on a clock that starts at zero. An interrupt comes at the given instant. -/
def Plan.execute (plan : Plan) (interrupt : Option Nat) : Result :=
  match plan with
  | .stop exit stdout stderr => ⟨exit, 0, stdout, stderr⟩
  | .play settings script stderr =>
    let session := (dryRun settings script).supervise slice interrupt
    let (exit, message) := farewell session.player
    ⟨exit, session.clock, session.player.printed settings.verbose, stderr ++ message⟩

/-- The whole program. -/
def run (content? : Bytes → Option Bytes) (args : List Bytes) (interrupt : Option Nat) : Result :=
  (Plan.ofArguments content? args).execute interrupt

end TimedInput.CommandLine
