import TimedInput.Script.Key

/-!
# Actions

What a script can ask for at one moment, and the one-line text of an action that the
log of a run shows.
-/

namespace TimedInput

inductive Press where
  | down
  | up
  deriving DecidableEq, Repr

/-- Whether the numbers of a move are a position or a distance. -/
inductive MoveMode where
  | absolute
  | relative
  deriving DecidableEq, Repr

/-- What to let go of: bit 1 stands for the mouse buttons and bit 2 for the keys. -/
structure ReleaseTarget where
  bits : Int32
  deriving DecidableEq, Repr

namespace ReleaseTarget

def mouse : ReleaseTarget := ⟨1⟩

def key : ReleaseTarget := ⟨2⟩

def both : ReleaseTarget := ⟨3⟩

def includesMouse (target : ReleaseTarget) : Bool :=
  target.bits &&& 1 != 0

def includesKeys (target : ReleaseTarget) : Bool :=
  target.bits &&& 2 != 0

def name (target : ReleaseTarget) : Bytes :=
  if target = mouse then ascii "mouse"
  else if target = key then ascii "key"
  else ascii "both"

end ReleaseTarget

/-- A move takes `duration` milliseconds; `unknown` asks for nothing. -/
inductive Action where
  | unknown
  | move (mode : MoveMode) (x y : Int32) (duration : UInt64)
  | button (press : Press) (number : Int32)
  | key (press : Press) (code : KeyCode)
  | release (target : ReleaseTarget)
  | text (payload : Bytes)
  deriving DecidableEq, Repr

namespace Action

/-- The word that the text of a move starts with. -/
def moveWord : MoveMode → Bytes
  | .absolute => ascii "MouseMoveAbs"
  | .relative => ascii "MouseMoveRel"

/-- The end of the words for presses. -/
def pressWord : Press → Bytes
  | .down => ascii "Down"
  | .up => ascii "Up"

/-- The action in one line, with its numbers in decimal and its key by name. -/
def describe : Action → Bytes
  | .unknown => []
  | .move mode x y duration =>
    moveWord mode ++ ascii " " ++ Numeral.ofInt x.toInt ++ ascii " " ++ Numeral.ofInt y.toInt ++
      ascii " " ++ Numeral.ofNat duration.toNat
  | .button press number =>
    ascii "Mouse" ++ pressWord press ++ ascii " " ++ Numeral.ofInt number.toInt
  | .key press code => ascii "Key" ++ pressWord press ++ ascii " " ++ code.name
  | .release target => ascii "Release " ++ target.name
  | .text payload => ascii "Text \"" ++ payload ++ ascii "\""

end Action

end TimedInput
