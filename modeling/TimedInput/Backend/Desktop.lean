import TimedInput.Number.Rounding
import TimedInput.Playback.Backend
import TimedInput.Text.Utf16

/-!
# Desktop backend

Sends input to a Windows desktop as packets for its mouse and its keyboard. Positions
are scaled to the 65536 parts of the virtual screen in each direction. A relative move is
sent as a move to the computed position, since the system would accelerate it. Keys are
sent by their virtual key, and characters by their UTF-16 code units.
-/

namespace TimedInput

inductive Packet where
  | mouse (dx dy : Int32) (data flags : UInt32)
  | key (virtualKey scan : UInt16) (flags : UInt32)
  deriving DecidableEq, Repr

/-- The desktop as the backend sees it. -/
structure Desktop where
  /-- The upper left corner of the virtual screen. -/
  corner : Point
  width : Int32
  height : Int32
  cursor : Option Point
  /-- Does the system take fewer packets than it is asked to? -/
  refusing : Bool
  /-- The requests so far, the latest first. -/
  sent : List (List Packet)
  deriving DecidableEq, Repr

namespace Desktop

def standard : Desktop :=
  ⟨.origin, 1920, 1080, some .origin, false, []⟩

/-- Moves to a position on the virtual screen. -/
def moveFlags : UInt32 := 0xc001

/-- A key packet that holds a code unit. -/
def unicodeFlag : UInt32 := 4

def releaseFlag : UInt32 := 2

/-- The virtual key of a special key, for all but the function keys. -/
def specialVirtualKeys : List UInt16 :=
  [0x08, 0x09, 0x0d, 0x1b, 0x20, 0x2e, 0x2d, 0x24, 0x23, 0x21, 0x22, 0x25, 0x27, 0x26, 0x28,
   0x10, 0x11, 0x12, 0x5b, 0x14]

/-- The virtual keys of the punctuation characters. -/
def punctuationVirtualKeys : List (UInt8 × UInt16) :=
  (ascii "`-=[]\\;',./").zip
    [0xc0, 0xbd, 0xbb, 0xdb, 0xdd, 0xdc, 0xba, 0xde, 0xbc, 0xbe, 0xbf]

/-- The virtual key of a key code. Letters have the code of their capital, digits their own code. -/
def virtualKey? (code : KeyCode) : Option UInt16 :=
  let n := code.value.toInt
  if 97 ≤ n && n ≤ 122 then some (n - 32).toNat.toUInt16
  else if 48 ≤ n && n ≤ 57 then some n.toNat.toUInt16
  else if 276 ≤ n && n ≤ 295 then some (n - 276 + 0x70).toNat.toUInt16
  else if 256 ≤ n then specialVirtualKeys[(n - 256).toNat]?
  else (punctuationVirtualKeys.find? fun (character, _) => (character.toNat : Int) = n).map (·.2)

/-- The packet of a mouse button. -/
def buttonPacket? (down : Bool) (number : Int32) : Option Packet :=
  let packet (data pressed released : UInt32) : Option Packet :=
    some (.mouse 0 0 data (if down then pressed else released))
  if number = 1 then packet 0 0x02 0x04
  else if number = 2 then packet 0 0x08 0x10
  else if number = 3 then packet 0 0x20 0x40
  else if number = 4 then packet 1 0x80 0x100
  else if number = 5 then packet 2 0x80 0x100
  else none

/-- The packet of a key. -/
def keyPacket? (down : Bool) (code : KeyCode) : Option Packet :=
  (virtualKey? code).map fun vk => .key vk 0 (if down then 0 else releaseFlag)

/-- The packets of a character: all its code units pressed, then all of them released. -/
def characterPackets (c : UInt32) : List Packet :=
  (Utf16.units c).map (.key 0 · unicodeFlag) ++
    (Utf16.units c).map (.key 0 · (unicodeFlag + releaseFlag))

/-- A coordinate in parts of the screen, of which `last` is the largest, in double precision. -/
def scale (distance last : Int32) : Int32 :=
  let parts := Rounding.binary64 (distance.toInt * 65535)
  Int32.ofInt (Rounding.halfAway (Rounding.binary64 (parts / last.toInt)))

/-- The largest coordinate of a screen of the given extent, at least one. -/
def lastPixel (extent : Int32) : Int32 :=
  if extent - 1 < 1 then 1 else extent - 1

/-- The packet of a move. -/
def movePacket (desktop : Desktop) (p : Point) : Packet :=
  .mouse (scale (p.x - desktop.corner.x) (lastPixel desktop.width))
    (scale (p.y - desktop.corner.y) (lastPixel desktop.height)) 0 moveFlags

/-- The packets of a call; none if the call cannot be made at all. -/
def packets? (desktop : Desktop) : Call → Option (List Packet)
  | .moveAbsolute x y => some [desktop.movePacket ⟨x, y⟩]
  | .moveRelative dx dy => desktop.cursor.map fun p => [desktop.movePacket (p + ⟨dx, dy⟩)]
  | .buttonDown n => (buttonPacket? true n).map ([·])
  | .buttonUp n => (buttonPacket? false n).map ([·])
  | .keyDown code => (keyPacket? true code).map ([·])
  | .keyUp code => (keyPacket? false code).map ([·])
  | .typeCharacter c => some (characterPackets c)

/-- Sends the packets of a call in one request. A request that is refused was made all the same. -/
def perform (desktop : Desktop) (call : Call) : Reply × Desktop :=
  match desktop.packets? call with
  | none => (.plain false, desktop)
  | some packets => (.plain !desktop.refusing, { desktop with sent := packets :: desktop.sent })

def backend : Backend Desktop where
  perform _ call desktop := desktop.perform call
  pointer desktop := desktop.cursor

end Desktop

end TimedInput
