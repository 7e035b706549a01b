import TimedInput.Script.Compilation
import TimedInput.Selftest.Trial

/-!
# Trials of scripts

Comments, timestamps, the reading of every verb, what is reported of wrong lines, and
the order of the timeline.
-/

namespace TimedInput.Selftest

open Trial

/-- A line for each text. -/
def source (lines : List String) : Bytes :=
  lines.flatMap fun line => ascii line ++ [Comment.newline]

def compiled (lines : List String) : Script :=
  Script.compile .standard (source lines)

/-- How many problems of a kind a line has. -/
def problems (diagnostics : List Diagnostic) (line : Int) (kind : ProblemKind) : Nat :=
  diagnostics.countP fun d => d.line == line && d.cause.kind == kind

/-- The actions of a line that has no problems. -/
def actionsOf (text : String) (platform : Platform) : Trial (List Action) := do
  let line := LineActions.parse platform (ascii text)
  expect "a line is accepted" line.causes.isEmpty
  return line.actions

/-- The kinds of the problems of a line that has some. -/
def problemsOf (text : String) (platform : Platform) : Trial (List ProblemKind) := do
  let line := LineActions.parse platform (ascii text)
  expect "a line is rejected" (!line.causes.isEmpty)
  return line.causes.map Cause.kind

def keyOf (character : Char) : KeyCode :=
  ⟨Int32.ofNat character.toNat⟩

/-- The key of that name, or a code that no key has. -/
def keyNamed (name : String) : KeyCode :=
  ((Key.ofName? (ascii name)).map Key.code).getD ⟨-1⟩

def strippingComments : Trial Unit := do
  let text := source
    ["// header", "0>keydown a // trailing", "/* block", "   100>keydown b", "*/ 200>keydown c",
     "", "   ", "300>keyup a /* inline */ ;keyup c"]
  expect "every comment has an end" (Comment.unterminatedLine? text).isNone
  match SourceLine.ofSource text with
  | [first, second, third] =>
    expect "a trailing comment goes" (first == ⟨2, ascii "0>keydown a"⟩)
    expect "a line may begin in a comment" (second == ⟨5, ascii "200>keydown c"⟩)
    expect "lines keep their numbers" (third.number == 8)
  | _ => expect "three lines say something" false
  let stripped := Comment.strip (ascii "a/* x /* y */b*/c")
  expect "the first closer ends a comment" (stripped.endsWith (ascii "b*/c"))
  expect "a second opener inside is plain text" (!stripped.contains 120)

def leavingCommentsOpen : Trial Unit := do
  let text := source ["0>keydown a", "/* never closed", "100>keyup a"]
  expect "the comment takes the rest" ((SourceLine.ofSource text).length == 1)
  expect "it is found where it begins" (Comment.unterminatedLine? text == some 2)
  let script := compiled ["0>keydown a", "/*", "100>keyup a"]
  expect "a warning is not an error" script.isValid
  expect "there is one warning" (script.warnings == [⟨2, .unterminatedComment⟩])
  expect "there is one event" (script.timeline.length == 1)

def readingTimestamps : Trial Unit := do
  expect "a number is a time" (Timestamp.parse? (ascii "100") == some (.absolute 100))
  expect "a plus sign makes it relative" (Timestamp.parse? (ascii " +50 ") == some (.relative 50))
  expect "it may be zero" (Timestamp.parse? (ascii "+0") == some (.relative 0))
  let refused := ["", "+", "-5", "abc", "1 0", "99999999999999999999999"]
  expect "anything else is refused" (refused.all fun s => (Timestamp.parse? (ascii s)).isNone)
  expect "a line is parted at the separator"
    (SourceLine.split? (ascii "100 > keydown a") == some (ascii "100", ascii " keydown a"))
  expect "there must be one" (SourceLine.split? (ascii "100 keydown a")).isNone

/-- The only problem of the script is a wrong timestamp on that line. -/
def hasWrongTime (script : Script) (line : Int) : Bool :=
  script.errors.map (fun d => (d.line, d.cause.kind)) == [(line, .invalidTimestamp)]

def keepingTimesInRange : Trial Unit := do
  let last := maxTime.toNat
  scope (ascii "upper bound") 1 do
    let script := compiled [s!"{last}>keydown a"]
    expect "the latest time is accepted"
      (script.timeline == [⟨maxTime, .key .down (keyOf 'a'), 0⟩])
    expect "a later one is not" (hasWrongTime (compiled [s!"{last + 1}>keydown a"]) 1)
    expect "however late" (hasWrongTime (compiled ["9223372036854775807>keydown a"]) 1)
  scope (ascii "relative overflow") 1 do
    let script := compiled [s!"{last}>keydown a", "+1>keydown b", "+0>keydown c"]
    expect "a relative time may be too late" (hasWrongTime script 2)
    expect "then nothing is scheduled" script.timeline.isEmpty
    let script := compiled ["18446744073709551615>keydown a", "+1>keydown b"]
    expect "a time that cannot be read is no base" (hasWrongTime script 1)
  scope (ascii "invalid line keeps the base") 1 do
    let script := compiled ["100>keydown a", "x>keydown b", "+5>keydown c"]
    expect "a malformed time is reported once" (hasWrongTime script 2)
    let script := compiled ["100>keydown a", s!"{last + 1}>keydown b", "+5>keydown c"]
    expect "so is a late one" (hasWrongTime script 2)
    let script := compiled ["100>keydown a", "+5>keydown c"]
    expect "the base is the line before" (script.timeline.map (·.time) == [100, 105])

def resolvingInSourceOrder : Trial Unit := do
  let steps : List Timestamp := [.absolute 500, .relative 100, .absolute 200, .relative 0]
  let times := (steps.foldl (fun times t => t.resolve (times.headD 0) :: times) []).reverse
  expect "each time is the base of the next" (times == [500, 600, 200, 200])
  let script := compiled ["500>keydown a", "+100>keydown b", "200>keydown c", "+25>keydown d"]
  expect "the script is valid" script.isValid
  expect "bases follow the source and not the timeline"
    (script.timeline.map (fun e => (e.time, e.action)) ==
      [(200, .key .down (keyOf 'c')), (225, .key .down (keyOf 'd')),
       (500, .key .down (keyOf 'a')), (600, .key .down (keyOf 'b'))])

def readingMoves : Trial Unit := do
  expect "a position" ((← actionsOf "mousemove abs 10 20" .windows) == [.move .absolute 10 20 0])
  expect "a distance with a duration"
    ((← actionsOf "mousemove rel -5 570 200" .windows) == [.move .relative (-5) 570 200])
  expect "positions are not negative"
    ((← problemsOf "mousemove abs -1 0" .windows) == [.invalidArgumentValue])
  expect "the mode is one of two"
    ((← problemsOf "mousemove up 1 2" .windows) == [.invalidArgumentValue])
  expect "too few arguments"
    ((← problemsOf "mousemove abs 1" .windows) == [.invalidArgumentCount])
  expect "too many arguments"
    ((← problemsOf "mousemove abs 1 2 3 4" .windows) == [.invalidArgumentCount])
  expect "every wrong argument is reported"
    ((← problemsOf "mousemove diag x y -3" .windows) == List.replicate 4 .invalidArgumentValue)

def readingButtons : Trial Unit := do
  expect "press and release"
    ((← actionsOf "mousedown 1; mouseup 3" .windows) == [.button .down 1, .button .up 3])
  expect "five buttons" ((← actionsOf "mousedown 4;mouseup 5" .linux).length == 2)
  expect "three buttons elsewhere"
    ((← problemsOf "mousedown 4;mouseup 5" .macOS) == List.replicate 2 .unsupportedOnPlatform)
  expect "no other buttons"
    ((← problemsOf "mousedown 0;mousedown 6;mouseup left" .windows) ==
      List.replicate 3 .invalidArgumentValue)
  expect "a button is needed" ((← problemsOf "mousedown" .windows) == [.invalidArgumentCount])

def readingKeys : Trial Unit := do
  let actions ← actionsOf
    "keydown a;keydown F12;keydown Control;keydown /;keydown semicolon;keyup pagedown" .windows
  expect "keys by character and by name"
    (actions ==
      [.key .down (keyOf 'a'), .key .down (keyNamed "f12"), .key .down (keyNamed "control"),
       .key .down (keyOf '/'), .key .down (keyOf ';'), .key .up (keyNamed "pagedown")])
  expect "every name of the table is found"
    (Key.table.all fun key => (Key.ofName? key.name).isSome)
  expect "function keys are numbered" (keyNamed "f20" == ⟨295⟩)
  expect "there are twenty of them" (Key.ofName? (ascii "f21")).isNone
  expect "a key has a name" ((keyNamed "enter").name == ascii "enter")
  expect "unknown names"
    ((← problemsOf "keydown hyper;keyup ab;keydown !" .windows) ==
      List.replicate 3 .invalidArgumentValue)
  expect "the insert key" ((← actionsOf "keydown insert" .windows).length == 1)
  expect "is missing elsewhere"
    ((← problemsOf "keydown insert" .macOS) == [.unsupportedOnPlatform])
  expect "one key at a time" ((← problemsOf "keydown a b" .windows) == [.invalidArgumentCount])

def readingReleasesAndTexts : Trial Unit := do
  expect "three targets"
    ((← actionsOf "release mouse;release key;release both" .windows) ==
      [.release .mouse, .release .key, .release .both])
  expect "no other target" ((← problemsOf "release all" .windows) == [.invalidArgumentValue])
  expect "a text keeps its spaces up to the semicolon"
    ((← actionsOf "text Hello,  world ;keydown enter" .windows) ==
      [.text (ascii "Hello,  world "), .key .down (keyNamed "enter")])
  expect "no separator in it" ((← problemsOf "text a>b" .windows) == [.invalidArgumentValue])
  expect "a text is needed" ((← problemsOf "text" .windows) == [.invalidArgumentCount])

def reportingLines : Trial Unit := do
  expect "an unknown verb" ((← problemsOf "click 1" .windows) == [.unknownActionVerb])
  expect "a blank line" ((← problemsOf "  " .windows) == [.missingAction])
  expect "blank clauses only" ((← problemsOf " ; ;" .windows) == [.missingAction])
  expect "some blank clauses" ((← actionsOf "keydown a;;keyup a;" .windows).length == 2)
  let script := compiled ["0>keydown a", "keydown b", "100>"]
  expect "no separator" (problems script.errors 2 .missingSeparator == 1)
  expect "no action" (problems script.errors 3 .missingAction == 1)
  expect "the shape of a line is syntax, its verb is not"
    (ProblemKind.missingSeparator.isSyntactic && !ProblemKind.unknownActionVerb.isSyntactic)
  expect "lines are named"
    (script.errors.length == 2 &&
      (script.errors.head?.any fun d => (ascii "Line 2: ").isPrefixOf d.describe))

def collectingErrors : Trial Unit := do
  let script := compiled ["0>keydown a", "abc>keydown xyz", "100>keyup a", "200>jump"]
  expect "three errors" (!script.isValid && script.errors.length == 3)
  expect "the time of a line" (problems script.errors 2 .invalidTimestamp == 1)
  expect "and its action" (problems script.errors 2 .invalidArgumentValue == 1)
  expect "and a later line" (problems script.errors 4 .unknownActionVerb == 1)
  expect "nothing is scheduled" script.timeline.isEmpty

def scheduling : Trial Unit := do
  let script := compiled ["0>mousemove abs 10 10", "100>keydown a;keyup a", "+50>release key"]
  expect "the script is valid" script.isValid
  expect "the events are numbered"
    (script.timeline ==
      [⟨0, .move .absolute 10 10 0, 0⟩, ⟨100, .key .down (keyOf 'a'), 1⟩,
       ⟨100, .key .up (keyOf 'a'), 2⟩, ⟨150, .release .key, 3⟩])

/-- The key or the text of an action that has one. -/
def sign : Action → Bytes
  | .key _ code => code.name
  | .text payload => payload
  | _ => []

/-- Events follow each other in time, and in the source where they have the same time. -/
def inOrder : Timeline → Bool
  | a :: b :: rest =>
    (a.time < b.time || a.time == b.time && a.seq < b.seq) && inOrder (b :: rest)
  | _ => true

def orderingEqualTimes : Trial Unit := do
  let press (character : Char) : Action := .key .down (keyOf character)
  let lines : List ScheduledLine :=
    [⟨300, [press 'a']⟩, ⟨100, [press 'b', press 'c']⟩, ⟨300, [press 'd']⟩,
     ⟨100, [press 'e', press 'f', .text (ascii "g")]⟩]
  let timeline := Timeline.ofLines lines
  expect "nothing is lost" (timeline.length == (lines.flatMap (·.actions)).length)
  expect "equal times keep the order of the source"
    (timeline.flatMap (sign ·.action) == ascii "bcefgad")
  expect "the timeline is in order" (inOrder timeline)

def scriptCases : List TrialCase :=
  [⟨ascii "Script_Comments", strippingComments⟩,
   ⟨ascii "Script_UnterminatedComment", leavingCommentsOpen⟩,
   ⟨ascii "Script_Timestamp", readingTimestamps⟩,
   ⟨ascii "Script_TimestampEdges", keepingTimesInRange⟩,
   ⟨ascii "Script_SourceOrderResolution", resolvingInSourceOrder⟩,
   ⟨ascii "Script_MouseMove", readingMoves⟩,
   ⟨ascii "Script_MouseButton", readingButtons⟩,
   ⟨ascii "Script_Key", readingKeys⟩,
   ⟨ascii "Script_ReleaseAndText", readingReleasesAndTexts⟩,
   ⟨ascii "Script_LineErrors", reportingLines⟩,
   ⟨ascii "Script_CollectsAllErrors", collectingErrors⟩,
   ⟨ascii "Script_Timeline", scheduling⟩,
   ⟨ascii "Script_TimelineOrder", orderingEqualTimes⟩]

end TimedInput.Selftest
