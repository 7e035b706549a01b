import TimedInput.Text.Bytes

/-!
# Standard output

What a text becomes when it is printed as one piece.
-/

namespace TimedInput.Console

/-- A printed text ends at its first NUL and is cut after 2047 bytes, its line feed included. -/
def print (s : Bytes) : Bytes :=
  s.untilNul.clip 2047

end TimedInput.Console
