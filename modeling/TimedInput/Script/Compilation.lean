import TimedInput.Script.Clause
import TimedInput.Script.SourceLine
import TimedInput.Script.Timeline

/-!
# Compilation

A source becomes a timeline, or a list of everything that is wrong with it: every line
is read to its end, whatever went wrong before. The time of the last line whose
timestamp was accepted is the base of relative ones. A comment without an end is only
a warning.
-/

namespace TimedInput

structure Script where
  platform : Platform
  /-- Empty as long as there are errors. -/
  timeline : Timeline
  errors : List Diagnostic
  warnings : List Diagnostic
  deriving DecidableEq, Repr

/-- What one line comes to: its errors, the base that it leaves, which is also its time, and its
actions. -/
structure LineReading where
  errors : List Diagnostic
  base : UInt64
  actions : List Action
  deriving DecidableEq, Repr

namespace LineReading

/-- The base after a timestamp, or the cause for which it is not accepted. -/
def readTime (base : UInt64) (token : Bytes) : Except Cause UInt64 :=
  match Timestamp.parse? token with
  | none => .error (.malformedTimestamp token)
  | some timestamp =>
    if timestamp.inRange base then .ok (timestamp.resolve base)
    else .error (.timestampOutOfRange token)

/-- Reads a line after lines that leave the given base. Without a separator nothing more of the
line is looked at; a wrong time does not keep its actions from being checked. -/
def ofLine (platform : Platform) (base : UInt64) (line : SourceLine) : LineReading :=
  let diagnose (cause : Cause) : Diagnostic := ⟨line.number, cause⟩
  match SourceLine.split? line.text with
  | none => ⟨[diagnose (.missingSeparator line.text)], base, []⟩
  | some (token, source) =>
    let parsed := LineActions.parse platform source
    match readTime base token with
    | .ok time => ⟨parsed.causes.map diagnose, time, parsed.actions⟩
    | .error cause => ⟨(cause :: parsed.causes).map diagnose, base, parsed.actions⟩

/-- Reads lines one after the other, each with the base that those before it leave. -/
def ofLines (platform : Platform) : UInt64 → List SourceLine → List LineReading
  | _, [] => []
  | base, line :: lines =>
    let reading := ofLine platform base line
    reading :: ofLines platform reading.base lines

end LineReading

namespace Script

/-- The script of no source at all. -/
def empty : Script :=
  ⟨.windows, [], [], []⟩

def isValid (script : Script) : Bool :=
  script.errors.isEmpty

/-- What is said of a source that is no error. -/
def warningsOf (source : Bytes) : List Diagnostic :=
  (Comment.unterminatedLine? source).toList.map fun (line : Nat) => ⟨line, .unterminatedComment⟩

def compile (platform : Platform) (source : Bytes) : Script :=
  let readings := LineReading.ofLines platform 0 (SourceLine.ofSource source)
  let errors := readings.flatMap (·.errors)
  { platform
    timeline :=
      if errors.isEmpty then Timeline.ofLines (readings.map fun r => ⟨r.base, r.actions⟩) else []
    errors
    warnings := warningsOf source }

/-- The byte order mark that a file may start with. -/
def byteOrderMark : Bytes := [0xef, 0xbb, 0xbf]

/-- Compiles the content of a file for the standard platform, without one byte order mark. -/
def ofFile (content : Bytes) : Script :=
  compile .standard
    (if byteOrderMark.isPrefixOf content then content.drop byteOrderMark.length else content)

/-- The message for a file that cannot be read. -/
def missingFile (path : Bytes) : Bytes :=
  (ascii "couldn't open " ++ path.untilNul).clip 4095

end Script

end TimedInput
