/-!
# UTF-16

The code units of a character value: one unit up to 0xffff, a surrogate pair above.
`decode` joins surrogate pairs again.
-/

namespace TimedInput.Utf16

/-- One or two code units. Values above 0x10ffff leave the surrogate range. -/
def units (c : UInt32) : List UInt16 :=
  if c < 0x10000 then [c.toUInt16]
  else
    let above : UInt32 := c - 0x10000
    [(0xd800 + above / 1024).toUInt16, (0xdc00 + above % 1024).toUInt16]

def isHighSurrogate (u : UInt16) : Bool :=
  0xd800 ≤ u && u < 0xdc00

def isLowSurrogate (u : UInt16) : Bool :=
  0xdc00 ≤ u && u < 0xe000

/-- Joins each high surrogate with a low one after it; other units stand for themselves. -/
def decode : List UInt16 → List UInt32
  | [] => []
  | [u] => [u.toUInt32]
  | u :: v :: rest =>
    if isHighSurrogate u && isLowSurrogate v then
      (0x10000 + (u.toUInt32 - 0xd800) * 1024 + (v.toUInt32 - 0xdc00)) :: decode rest
    else u.toUInt32 :: decode (v :: rest)

end TimedInput.Utf16
