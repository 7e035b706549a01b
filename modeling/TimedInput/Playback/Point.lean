/-!
# Points

Positions and distances on the screen. Coordinates are words of 32 bits, and sums and
differences wrap.
-/

namespace TimedInput

structure Point where
  x : Int32
  y : Int32
  deriving DecidableEq, Repr

namespace Point

instance : Add Point := ⟨fun a b => ⟨a.x + b.x, a.y + b.y⟩⟩

instance : Sub Point := ⟨fun a b => ⟨a.x - b.x, a.y - b.y⟩⟩

def origin : Point := ⟨0, 0⟩

end Point

end TimedInput
