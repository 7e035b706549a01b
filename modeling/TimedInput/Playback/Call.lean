import TimedInput.Script.Key

/-!
# Device calls

The calls by which input reaches a device, and their two texts: the one of a record of
calls, and the one that names a call that failed.
-/

namespace TimedInput

inductive Call where
  | moveAbsolute (x y : Int32)
  | moveRelative (dx dy : Int32)
  | buttonDown (number : Int32)
  | buttonUp (number : Int32)
  | keyDown (code : KeyCode)
  | keyUp (code : KeyCode)
  | typeCharacter (c : UInt32)
  deriving DecidableEq, Repr

namespace Call

def name : Call → Bytes
  | .moveAbsolute .. => ascii "moveAbsolute"
  | .moveRelative .. => ascii "moveRelative"
  | .buttonDown _ => ascii "buttonDown"
  | .buttonUp _ => ascii "buttonUp"
  | .keyDown _ => ascii "keyDown"
  | .keyUp _ => ascii "keyUp"
  | .typeCharacter _ => ascii "typeCharacter"

/-- The arguments, with characters in the notation for code points. -/
def arguments : Call → List Bytes
  | .moveAbsolute x y | .moveRelative x y => [Numeral.ofInt x.toInt, Numeral.ofInt y.toInt]
  | .buttonDown n | .buttonUp n => [Numeral.ofInt n.toInt]
  | .keyDown code | .keyUp code => [code.name]
  | .typeCharacter c => [ascii "U+" ++ Numeral.codePoint c.toNat]

/-- The call as a record of calls shows it. -/
def record : Call → Bytes
  | .typeCharacter c => ascii "type " ++ Numeral.upperHex c.toNat
  | call => Bytes.join (ascii " ") (call.name :: call.arguments)

/-- The reason that a run gives when the call fails. -/
def failure (call : Call) : Bytes :=
  call.name ++ ascii "(" ++ Bytes.join (ascii ", ") call.arguments ++ ascii ") failed"

end Call

end TimedInput
