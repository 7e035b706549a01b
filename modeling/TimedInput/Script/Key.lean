import TimedInput.Script.Platform
import TimedInput.Text.Numeral

/-!
# Keys

A key is known by its code. The table gives the names under which scripts may press
the keys, compared without regard to the case of ASCII letters. A key that types a
character has the code of that character; the other keys are numbered from 256. The
semicolon has two names, since the character itself separates the actions of a line.
-/

namespace TimedInput

structure KeyCode where
  value : Int32
  deriving DecidableEq, Repr

instance : LT KeyCode := ⟨fun a b => a.value < b.value⟩

instance : DecidableLT KeyCode := fun a b => inferInstanceAs (Decidable (a.value < b.value))

/-- One entry of the key table. -/
structure Key where
  name : Bytes
  code : KeyCode
  feature : Feature
  deriving DecidableEq, Repr

namespace Key

/-- The keys that are named by the character they type. -/
def ofCharacters (characters : String) : List Key :=
  (ascii characters).map fun b => ⟨[b], ⟨Int32.ofNat b.toNat⟩, .plain⟩

/-- The names of the keys that type no character, in the order of their codes. -/
def specialNames : List String :=
  ["backspace", "tab", "enter", "escape", "space", "delete", "insert", "home", "end",
   "pageup", "pagedown", "left", "right", "up", "down",
   "shift", "control", "alt", "super", "capslock",
   "f1", "f2", "f3", "f4", "f5", "f6", "f7", "f8", "f9", "f10",
   "f11", "f12", "f13", "f14", "f15", "f16", "f17", "f18", "f19", "f20"]

def special : List Key :=
  (specialNames.zipIdx 256).map fun (name, code) =>
    ⟨ascii name, ⟨Int32.ofNat code⟩, if name = "insert" then .keyInsert else .plain⟩

def table : List Key :=
  ofCharacters "abcdefghijklmnopqrstuvwxyz0123456789`-=[]\\;" ++
    [⟨ascii "semicolon", ⟨59⟩, .plain⟩] ++ ofCharacters "',./" ++ special

def ofName? (name : Bytes) : Option Key :=
  table.find? (·.name == name.lower)

/-- The first entry of the code, which has the character itself for the semicolon. -/
def ofCode? (code : KeyCode) : Option Key :=
  table.find? (·.code == code)

end Key

/-- The name of the key, or its code in hexadecimal as an unsigned word of 32 bits. -/
def KeyCode.name (code : KeyCode) : Bytes :=
  match Key.ofCode? code with
  | some key => key.name
  | none => ascii "0x" ++ Numeral.lowerHex code.value.toUInt32.toNat

end TimedInput
