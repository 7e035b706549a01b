import TimedInput.Script.Action
import TimedInput.Script.Timestamp

/-!
# Diagnostics

A problem of a script is kept as its cause, with the words of the script that show it.
The kind of the problem and the wording of its message are functions of the cause. A
message is cut after 4095 bytes, and the words that it quotes end at their first NUL.
-/

namespace TimedInput

/-- The groups of problems. `none` stands for no problem at all. -/
inductive ProblemKind where
  | none
  | missingSeparator
  | invalidTimestamp
  | missingAction
  | unknownActionVerb
  | invalidArgumentCount
  | invalidArgumentValue
  | unsupportedOnPlatform
  | unterminatedComment
  deriving DecidableEq, Repr

namespace ProblemKind

def all : List ProblemKind :=
  [.none, .missingSeparator, .invalidTimestamp, .missingAction, .unknownActionVerb,
   .invalidArgumentCount, .invalidArgumentValue, .unsupportedOnPlatform, .unterminatedComment]

def name : ProblemKind → Bytes
  | .none => ascii "None"
  | .missingSeparator => ascii "MissingSeparator"
  | .invalidTimestamp => ascii "InvalidTimestamp"
  | .missingAction => ascii "MissingAction"
  | .unknownActionVerb => ascii "UnknownActionVerb"
  | .invalidArgumentCount => ascii "InvalidArgumentCount"
  | .invalidArgumentValue => ascii "InvalidArgumentValue"
  | .unsupportedOnPlatform => ascii "UnsupportedOnPlatform"
  | .unterminatedComment => ascii "UnterminatedComment"

/-- Problems with the shape of a line rather than with one of its actions. -/
def isSyntactic : ProblemKind → Bool
  | .missingSeparator | .invalidTimestamp | .missingAction => true
  | _ => false

end ProblemKind

/-- The first words of the actions that a script can hold. -/
inductive Verb where
  | mousemove
  | mousedown
  | mouseup
  | keydown
  | keyup
  | release
  | text
  deriving DecidableEq, Repr

namespace Verb

def all : List Verb :=
  [.mousemove, .mousedown, .mouseup, .keydown, .keyup, .release, .text]

def name : Verb → Bytes
  | .mousemove => ascii "mousemove"
  | .mousedown => ascii "mousedown"
  | .mouseup => ascii "mouseup"
  | .keydown => ascii "keydown"
  | .keyup => ascii "keyup"
  | .release => ascii "release"
  | .text => ascii "text"

def ofName? (s : Bytes) : Option Verb :=
  all.find? (·.name == s)

end Verb

/-- The numbers of a move. -/
inductive Quantity where
  | xPosition
  | yPosition
  | duration
  deriving DecidableEq, Repr

def Quantity.name : Quantity → Bytes
  | .xPosition => ascii "x position"
  | .yPosition => ascii "y position"
  | .duration => ascii "duration"

/-- Why a script is rejected or, for a comment without an end, read with a warning. -/
inductive Cause where
  | missingSeparator (line : Bytes)
  | malformedTimestamp (token : Bytes)
  | timestampOutOfRange (token : Bytes)
  | missingAction
  | unknownVerb (verb : Bytes)
  | tooFewArguments (verb : Verb) (given least : Nat)
  | tooManyArguments (verb : Verb) (given most : Nat)
  | missingText
  | separatorInText
  | invalidMode (mode : Bytes)
  | invalidNumber (quantity : Quantity) (argument : Bytes)
  | negativeNumber (quantity : Quantity) (argument : Bytes)
  | invalidButton (verb : Verb) (argument : Bytes)
  | unsupportedButton (verb : Verb) (number : Int32) (platform : Platform)
  | invalidKey (verb : Verb) (argument : Bytes)
  | unsupportedKey (verb : Verb) (key : Bytes) (platform : Platform)
  | invalidTarget (argument : Bytes)
  | unterminatedComment
  deriving DecidableEq, Repr

namespace Cause

def kind : Cause → ProblemKind
  | .missingSeparator _ => .missingSeparator
  | .malformedTimestamp _ | .timestampOutOfRange _ => .invalidTimestamp
  | .missingAction => .missingAction
  | .unknownVerb _ => .unknownActionVerb
  | .tooFewArguments .. | .tooManyArguments .. | .missingText => .invalidArgumentCount
  | .separatorInText | .invalidMode _ | .invalidNumber .. | .negativeNumber ..
  | .invalidButton .. | .invalidKey .. | .invalidTarget _ => .invalidArgumentValue
  | .unsupportedButton .. | .unsupportedKey .. => .unsupportedOnPlatform
  | .unterminatedComment => .unterminatedComment

/-- A word of the script between double quotes. -/
def quoted (word : Bytes) : Bytes :=
  ascii "\"" ++ word.untilNul ++ ascii "\""

/-- The wording before it is cut. -/
def wording : Cause → Bytes
  | .missingSeparator line =>
    ascii "incorrectly formatted line, missing '>': " ++ line.untilNul
  | .malformedTimestamp token => ascii "incorrectly formatted timestamp " ++ quoted token
  | .timestampOutOfRange token =>
    ascii "timestamp " ++ quoted token ++ ascii " is out of range (max. " ++
      Numeral.ofNat maxTime.toNat ++ ascii "ms)"
  | .missingAction => ascii "need at least one action"
  | .unknownVerb verb => ascii "invalid action " ++ quoted verb
  | .tooFewArguments verb given least =>
    verb.name ++ ascii ": too few arguments (" ++ Numeral.ofNat given ++ ascii " given, min. " ++
      Numeral.ofNat least ++ ascii ")"
  | .tooManyArguments verb given most =>
    verb.name ++ ascii ": too many arguments (" ++ Numeral.ofNat given ++ ascii " given, max. " ++
      Numeral.ofNat most ++ ascii ")"
  | .missingText => Verb.text.name ++ ascii ": no text provided"
  | .separatorInText => Verb.text.name ++ ascii ": text must not contain '>'"
  | .invalidMode mode =>
    Verb.mousemove.name ++ ascii ": invalid mode " ++ quoted mode ++ ascii " (abs or rel)"
  | .invalidNumber quantity argument =>
    Verb.mousemove.name ++ ascii ": invalid " ++ quantity.name ++ ascii " " ++ quoted argument
  | .negativeNumber quantity argument =>
    Verb.mousemove.name ++ ascii ": " ++ quantity.name ++ ascii " must not be negative (" ++
      argument.untilNul ++ ascii ")"
  | .invalidButton verb argument =>
    verb.name ++ ascii ": invalid button " ++ quoted argument ++ ascii " (1-5)"
  | .unsupportedButton verb number platform =>
    verb.name ++ ascii ": button " ++ Numeral.ofInt number.toInt ++ ascii " is not supported on " ++
      platform.name
  | .invalidKey verb argument => verb.name ++ ascii ": invalid key " ++ quoted argument
  | .unsupportedKey verb key platform =>
    verb.name ++ ascii ": key " ++ quoted key ++ ascii " is not supported on " ++ platform.name
  | .invalidTarget argument =>
    Verb.release.name ++ ascii ": invalid target " ++ quoted argument ++
      ascii " (mouse, key or both)"
  | .unterminatedComment =>
    ascii "unterminated block comment, the rest of the file is ignored"

def message (cause : Cause) : Bytes :=
  cause.wording.clip 4095

end Cause

/-- A message with the line that it is about in front. -/
def locate (line : Int) (message : Bytes) : Bytes :=
  (ascii "Line " ++ Numeral.ofInt line ++ ascii ": " ++ message.untilNul).clip 4095

/-- A problem and the line of the source where it is. -/
structure Diagnostic where
  line : Int
  cause : Cause
  deriving DecidableEq, Repr

def Diagnostic.describe (d : Diagnostic) : Bytes :=
  locate d.line d.cause.message

end TimedInput
