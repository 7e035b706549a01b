import TimedInput.Script.Comment

/-!
# Lines of a source

The lines that say something: what is left of each line without comments and outer
blanks, with its number in the source. A line holds a time, the separator, and actions.
-/

namespace TimedInput

structure SourceLine where
  /-- Counted from 1. -/
  number : Nat
  text : Bytes
  deriving DecidableEq, Repr

namespace SourceLine

/-- The lines of a source without its comments that are not blank. -/
def ofStripped (stripped : Bytes) : List SourceLine :=
  ((Bytes.splitOn [Comment.newline] stripped).zipIdx 1).filterMap fun (line, number) =>
    if line.trim = [] then none else some ⟨number, line.trim⟩

def ofSource (source : Bytes) : List SourceLine :=
  ofStripped (Comment.strip source)

/-- Stands between the time and the actions of a line. -/
def separator : Bytes := ascii ">"

/-- The time and the actions of a line, parted at the first separator. -/
def split? (line : Bytes) : Option (Bytes × Bytes) :=
  (Bytes.breakOn separator line).map fun (time, actions) => (time.trim, actions)

end SourceLine

end TimedInput
