import TimedInput.Script.Diagnostic

/-!
# Clauses

The actions of a line are written as clauses, parted by semicolons. A clause is blank,
or it gives one action, or it gives at least one cause for which it is rejected and
then no action. The number of arguments is looked at before the arguments are; a move
reports every argument that is wrong.
-/

namespace TimedInput.Clause

/-- What a clause that is not blank comes to. -/
abbrev Reading := Except (List Cause) Action

def separator : Bytes := ascii ";"

def isSpaceOrTab (b : UInt8) : Bool :=
  b == 32 || b == 9

/-- The bytes between the arguments of an action. -/
def isArgumentBlank (b : UInt8) : Bool :=
  b == 32 || b == 9 || b == 13 || b == 10

def reject (cause : Cause) : Reading :=
  .error [cause]

/-- Refuses fewer arguments than `least` or, otherwise, more than `most`. -/
def rejectCount (verb : Verb) (least most : Nat) (args : List Bytes) : Reading :=
  if args.length < least then reject (.tooFewArguments verb args.length least)
  else reject (.tooManyArguments verb args.length most)

def modeOf? (s : Bytes) : Option MoveMode :=
  if s = ascii "rel" then some .relative
  else if s = ascii "abs" then some .absolute
  else none

/-- A number of 32 bits, which may have to be zero or positive. -/
def readNumber (quantity : Quantity) (signed : Bool) (arg : Bytes) : Except Cause Int32 :=
  match Numeral.int32? arg with
  | none => .error (.invalidNumber quantity arg)
  | some n => if !signed && n < 0 then .error (.negativeNumber quantity arg) else .ok n

/-- The cause that a refused number has. -/
def causes (number : Except Cause Int32) : List Cause :=
  match number with
  | .ok _ => []
  | .error cause => [cause]

/-- A move without a duration is instantaneous. -/
def readDuration : Option Bytes → Except Cause Int32
  | none => .ok 0
  | some arg => readNumber .duration false arg

/-- Positions may be negative in relative moves only, and durations never. -/
def readMove (mode x y : Bytes) (duration : Option Bytes) : Reading :=
  let mode? := modeOf? mode
  let signed := mode? == some .relative
  let x? := readNumber .xPosition signed x
  let y? := readNumber .yPosition signed y
  let duration? := readDuration duration
  match mode?, x?, y?, duration? with
  | some mode, .ok x, .ok y, .ok duration => .ok (.move mode x y duration.toInt.toNat.toUInt64)
  | _, _, _, _ =>
    .error ((if mode?.isNone then [Cause.invalidMode mode] else []) ++
      causes x? ++ causes y? ++ causes duration?)

def readButton (platform : Platform) (verb : Verb) (press : Press) (arg : Bytes) : Reading :=
  match (Numeral.int32? arg).filter fun n => 1 ≤ n && n ≤ 5 with
  | none => reject (.invalidButton verb arg)
  | some number =>
    if platform.supports (Feature.ofButton number) then .ok (.button press number)
    else reject (.unsupportedButton verb number platform)

def readKey (platform : Platform) (verb : Verb) (press : Press) (arg : Bytes) : Reading :=
  match Key.ofName? arg with
  | none => reject (.invalidKey verb arg)
  | some key =>
    if platform.supports key.feature then .ok (.key press key.code)
    else reject (.unsupportedKey verb key.name platform)

def readRelease (arg : Bytes) : Reading :=
  if arg = ReleaseTarget.mouse.name then .ok (.release .mouse)
  else if arg = ReleaseTarget.key.name then .ok (.release .key)
  else if arg = ReleaseTarget.both.name then .ok (.release .both)
  else reject (.invalidTarget arg)

/-- The rest of the clause after the verb, without the one byte that parts them and without a
carriage return at the end. -/
def payload (rest : Bytes) : Bytes :=
  let text := rest.drop 1
  if text.getLast? = some 13 then text.dropLast else text

def readText (text : Bytes) : Reading :=
  if text = [] then reject .missingText
  else if text.contains 62 then reject .separatorInText
  else .ok (.text text)

/-- An action with exactly one argument. -/
def withArgument (verb : Verb) (read : Bytes → Reading) : List Bytes → Reading
  | [arg] => read arg
  | args => rejectCount verb 1 1 args

/-- A move has a mode, two numbers and perhaps a duration. -/
def withMove : List Bytes → Reading
  | [mode, x, y] => readMove mode x y none
  | [mode, x, y, duration] => readMove mode x y (some duration)
  | args => rejectCount .mousemove 3 4 args

/-- Reads the action that a verb introduces; `rest` is the clause after the verb. -/
def readVerb (platform : Platform) (verb : Verb) (rest : Bytes) : Reading :=
  let args := rest.wordsBy isArgumentBlank
  match verb with
  | .mousemove => withMove args
  | .mousedown => withArgument verb (readButton platform verb .down) args
  | .mouseup => withArgument verb (readButton platform verb .up) args
  | .keydown => withArgument verb (readKey platform verb .down) args
  | .keyup => withArgument verb (readKey platform verb .up) args
  | .release => withArgument verb readRelease args
  | .text => readText (payload rest)

/-- Reads a clause; nothing for a blank one. Only spaces and tabs part the verb from the rest. -/
def read? (platform : Platform) (clause : Bytes) : Option Reading :=
  if clause.trim = [] then none
  else
    let clause := clause.dropWhile isSpaceOrTab
    let word := clause.takeWhile (!isSpaceOrTab ·)
    let rest := clause.dropWhile (!isSpaceOrTab ·)
    some (match Verb.ofName? word with
      | some verb => readVerb platform verb rest
      | none => reject (.unknownVerb word))

/-- What the clauses of a line come to, blank ones left out. -/
def readAll (platform : Platform) (source : Bytes) : List Reading :=
  (Bytes.splitOn separator source).filterMap (read? platform)

end TimedInput.Clause

namespace TimedInput

/-- The actions of a line, and the causes for which clauses were rejected. -/
structure LineActions where
  actions : List Action
  causes : List Cause
  deriving DecidableEq, Repr

/-- Reads the actions of a line, of which there must be at least one. -/
def LineActions.parse (platform : Platform) (source : Bytes) : LineActions :=
  match Clause.readAll platform source with
  | [] => ⟨[], [.missingAction]⟩
  | readings =>
    { actions := readings.filterMap Except.toOption
      causes := readings.flatMap fun reading =>
        match reading with
        | .ok _ => []
        | .error causes => causes }

/-- What was found on the lines that have been read. -/
structure Findings where
  actions : List Action
  errors : List Diagnostic
  deriving DecidableEq, Repr

/-- Reads one more line. The second component tells whether nothing was wrong with it. -/
def Findings.addLine (found : Findings) (platform : Platform) (line : Int) (source : Bytes) :
    Findings × Bool :=
  let parsed := LineActions.parse platform source
  let errors := parsed.causes.map fun cause => (⟨line, cause⟩ : Diagnostic)
  (⟨found.actions ++ parsed.actions, found.errors ++ errors⟩, parsed.causes.isEmpty)

end TimedInput
