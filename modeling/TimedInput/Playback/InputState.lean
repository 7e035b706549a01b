import TimedInput.Playback.Call
import TimedInput.Playback.Point

/-!
# Input state

The keys and mouse buttons that a run holds down, each list ascending and without
repetition, and the position of the pointer as far as it is known.
-/

namespace TimedInput

/-- Adds a member to an ascending list, unless it is there. -/
def insertAscending {α : Type} [LT α] [DecidableLT α] (a : α) : List α → List α
  | [] => [a]
  | b :: rest =>
    if a < b then a :: b :: rest
    else if b < a then b :: insertAscending a rest
    else b :: rest

structure InputState where
  keys : List KeyCode
  buttons : List Int32
  pointer : Option Point
  deriving DecidableEq, Repr

namespace InputState

/-- Nothing is held and the pointer is anywhere. -/
def empty : InputState :=
  ⟨[], [], none⟩

def isEmpty (s : InputState) : Bool :=
  s.keys.isEmpty && s.buttons.isEmpty

def holdKey (s : InputState) (code : KeyCode) : InputState :=
  { s with keys := insertAscending code s.keys }

def unholdKey (s : InputState) (code : KeyCode) : InputState :=
  { s with keys := s.keys.erase code }

def holdButton (s : InputState) (number : Int32) : InputState :=
  { s with buttons := insertAscending number s.buttons }

def unholdButton (s : InputState) (number : Int32) : InputState :=
  { s with buttons := s.buttons.erase number }

def setPointer (s : InputState) (p : Point) : InputState :=
  { s with pointer := some p }

/-- A distance does not tell where the pointer is unless it was known before. -/
def movePointer (s : InputState) (d : Point) : InputState :=
  { s with pointer := s.pointer.map (· + d) }

/-- The state after a call that succeeded. -/
def after (s : InputState) : Call → InputState
  | .moveAbsolute x y => s.setPointer ⟨x, y⟩
  | .moveRelative dx dy => s.movePointer ⟨dx, dy⟩
  | .buttonDown n => s.holdButton n
  | .buttonUp n => s.unholdButton n
  | .keyDown code => s.holdKey code
  | .keyUp code => s.unholdKey code
  | .typeCharacter _ => s

def keyReleases (s : InputState) : List Call :=
  s.keys.map .keyUp

def buttonReleases (s : InputState) : List Call :=
  s.buttons.map .buttonUp

/-- The calls that let go of everything: keys first, then buttons, each in ascending order. -/
def releases (s : InputState) : List Call :=
  s.keyReleases ++ s.buttonReleases

end InputState

end TimedInput
