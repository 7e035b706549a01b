import TimedInput.Text.Bytes

/-!
# Comments

Comments are replaced by spaces and not removed, and line feeds stay, so every byte
outside a comment keeps its line and its column. Block comments go first: each runs
from its opener to the nearest closer after it, or to the end of the source. In what is
left, a line comment runs from its opener to the end of the line.
-/

namespace TimedInput.Comment

def blockOpener : Bytes := ascii "/*"

def blockCloser : Bytes := ascii "*/"

def lineOpener : Bytes := ascii "//"

def newline : UInt8 := 10

/-- Spaces in place of everything but line feeds. -/
def blank (s : Bytes) : Bytes :=
  s.map fun b => if b = newline then newline else 32

/-- Blanks the block comments. -/
def blankBlocks (s : Bytes) : Bytes :=
  match h : Bytes.breakOn blockOpener s with
  | none => s
  | some (before, inside) =>
    match h' : Bytes.breakOn blockCloser inside with
    | none => before ++ blank (blockOpener ++ inside)
    | some (body, after) =>
      have : after.length < s.length :=
        Nat.lt_trans (Bytes.length_after_lt (by decide) h') (Bytes.length_after_lt (by decide) h)
      before ++ blank (blockOpener ++ body ++ blockCloser) ++ blankBlocks after
termination_by s.length

/-- What stands before the block comment without an end, if there is one. -/
def beforeUnterminated? (s : Bytes) : Option Bytes :=
  match h : Bytes.breakOn blockOpener s with
  | none => none
  | some (before, inside) =>
    match h' : Bytes.breakOn blockCloser inside with
    | none => some before
    | some (body, after) =>
      have : after.length < s.length :=
        Nat.lt_trans (Bytes.length_after_lt (by decide) h') (Bytes.length_after_lt (by decide) h)
      (beforeUnterminated? after).map fun rest =>
        before ++ blockOpener ++ body ++ blockCloser ++ rest
termination_by s.length

/-- Blanks the comment at the end of one line. -/
def blankLineComment (line : Bytes) : Bytes :=
  match Bytes.breakOn lineOpener line with
  | none => line
  | some (before, comment) => before ++ blank (lineOpener ++ comment)

/-- The source with all comments blanked. -/
def strip (source : Bytes) : Bytes :=
  Bytes.join [newline] ((Bytes.splitOn [newline] (blankBlocks source)).map blankLineComment)

/-- The line on which a block comment without an end begins. -/
def unterminatedLine? (source : Bytes) : Option Nat :=
  (beforeUnterminated? source).map fun before => 1 + before.count newline

end TimedInput.Comment
