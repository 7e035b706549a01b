import TimedInput.Playback.Backend
import TimedInput.Text.Console

/-!
# Printing backend

Prints every call instead of sending it, with the milliseconds since the printer was
made. It never fails, and it keeps the position of the pointer, so that glides start
where the move before them ended.
-/

namespace TimedInput

structure Printer where
  made : Nat
  pointer : Point
  deriving DecidableEq, Repr

namespace Printer

/-- A printer with the pointer in the corner. -/
def new (now : Nat) : Printer :=
  ⟨now, .origin⟩

/-- A printable character in quotes, or its code point. -/
def typed (c : UInt32) : Bytes :=
  if 0x20 ≤ c && c < 0x7f then ascii "'" ++ [c.toUInt8] ++ ascii "'"
  else ascii "U+" ++ Numeral.codePoint c.toNat

def wording : Call → Bytes
  | .moveAbsolute x y =>
    ascii "Move mouse to " ++ Numeral.ofInt x.toInt ++ ascii ", " ++ Numeral.ofInt y.toInt
  | .moveRelative dx dy =>
    ascii "Move mouse by " ++ Numeral.ofInt dx.toInt ++ ascii ", " ++ Numeral.ofInt dy.toInt
  | .buttonDown n => ascii "Press mouse button " ++ Numeral.ofInt n.toInt
  | .buttonUp n => ascii "Release mouse button " ++ Numeral.ofInt n.toInt
  | .keyDown code => ascii "Press key " ++ code.name
  | .keyUp code => ascii "Release key " ++ code.name
  | .typeCharacter c => ascii "Type " ++ typed c

/-- The line of a call, with the time right-aligned in six places. -/
def line (printer : Printer) (now : Nat) (call : Call) : Bytes :=
  let ms := Instant.milliseconds now - Instant.milliseconds printer.made
  Console.print (ascii "[" ++ (Numeral.ofNat ms).padLeft 6 ++ ascii "ms] " ++
    (wording call).clip 255 ++ ascii "\n")

def after (printer : Printer) : Call → Printer
  | .moveAbsolute x y => { printer with pointer := ⟨x, y⟩ }
  | .moveRelative dx dy => { printer with pointer := printer.pointer + ⟨dx, dy⟩ }
  | _ => printer

def backend : Backend Printer where
  perform now call printer := ({ Reply.plain true with printed := printer.line now call },
    printer.after call)
  pointer printer := some printer.pointer

end Printer

end TimedInput
