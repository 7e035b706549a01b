/-!
# Shared objects

Objects that live as long as something refers to them. A pool has numbered objects with
their reference counts, and slots that refer to at most one object each. An object is
destroyed when its count falls to zero, and it does not come back. References outside
the slots, which an owner counts by hand, are part of the count only.
-/

namespace TimedInput

structure Pool where
  /-- The count of each object by its number; nothing for an object that was destroyed. -/
  counts : List (Option Nat)
  /-- The object that each slot refers to. -/
  slots : List (Option Nat)
  deriving DecidableEq, Repr

/-- What can be done with slots. -/
inductive SlotOperation where
  /-- A new object arrives in a temporary reference, which changes places with the slot. -/
  | make (slot : Nat)
  /-- A new object is given to the slot directly. -/
  | resetNew (slot : Nat)
  | copy (target source : Nat)
  /-- The two slots change places. -/
  | move (target source : Nat)
  /-- Counts the references while a temporary copy of the slot lives. -/
  | copyTemporary (slot : Nat)
  /-- Empties the slot into a temporary reference and counts while that lives. -/
  | moveTemporary (slot : Nat)
  | reset (slot : Nat)
  | resetTo (target source : Nat)
  | swap (a b : Nat)
  | retain (slot : Nat)
  | release (slot : Nat)
  /-- Do two slots refer to the same object, or both to none? -/
  | compare (a b : Nat)
  deriving DecidableEq, Repr

inductive SlotAnswer where
  | nothing
  | count (n : Nat)
  | same (b : Bool)
  deriving DecidableEq, Repr

namespace Pool

def new (slots : Nat) : Pool :=
  ⟨[], List.replicate slots none⟩

def slot (pool : Pool) (i : Nat) : Option Nat :=
  (pool.slots[i]?).join

/-- The count of an object that may be none; zero if there is no such object any more. -/
def count (pool : Pool) (object : Option Nat) : Nat :=
  ((object.bind fun id => (pool.counts[id]?).join)).getD 0

/-- The numbers of the objects that were not destroyed, in the order of their creation. -/
def living (pool : Pool) : List Nat :=
  (List.range pool.counts.length).filter fun id => ((pool.counts[id]?).join).isSome

/-- One more reference. -/
def retained (pool : Pool) (object : Option Nat) : Pool :=
  match object with
  | none => pool
  | some id => { pool with counts := pool.counts.modify id (·.map (· + 1)) }

/-- The count with one reference less; nothing is left of the last one. -/
def lowered (count : Nat) : Option Nat :=
  if count ≤ 1 then none else some (count - 1)

/-- One reference less; the object goes with the last one. -/
def released (pool : Pool) (object : Option Nat) : Pool :=
  match object with
  | none => pool
  | some id => { pool with counts := pool.counts.modify id (·.bind lowered) }

/-- A new object that nothing refers to yet. -/
def created (pool : Pool) : Pool × Nat :=
  ({ pool with counts := pool.counts ++ [some 0] }, pool.counts.length)

def put (pool : Pool) (i : Nat) (object : Option Nat) : Pool :=
  { pool with slots := pool.slots.set i object }

/-- Gives a slot another object. The new reference is counted first, so that a slot may be given
the object that it has. -/
def assign (pool : Pool) (i : Nat) (object : Option Nat) : Pool :=
  ((pool.retained object).released (pool.slot i)).put i object

def exchange (pool : Pool) (i j : Nat) : Pool :=
  (pool.put i (pool.slot j)).put j (pool.slot i)

def apply (pool : Pool) : SlotOperation → Pool × SlotAnswer
  | .make i =>
    let (pool, id) := pool.created
    (((pool.retained (some id)).put i (some id)).released (pool.slot i), .nothing)
  | .resetNew i =>
    let (pool, id) := pool.created
    (pool.assign i (some id), .nothing)
  | .copy i j => (pool.assign i (pool.slot j), .nothing)
  | .move i j => (pool.exchange i j, .nothing)
  | .copyTemporary i =>
    let held := pool.retained (pool.slot i)
    (held.released (pool.slot i), .count (held.count (pool.slot i)))
  | .moveTemporary i =>
    ((pool.put i none).released (pool.slot i), .count (pool.count (pool.slot i)))
  | .reset i => (pool.assign i none, .nothing)
  | .resetTo i j => (pool.assign i (pool.slot j), .nothing)
  | .swap i j => (pool.exchange i j, .nothing)
  | .retain i =>
    let held := pool.retained (pool.slot i)
    (held, .count (held.count (pool.slot i)))
  | .release i =>
    let left := pool.released (pool.slot i)
    (left, .count (left.count (pool.slot i)))
  | .compare i j => (pool, .same (pool.slot i == pool.slot j))

end Pool

end TimedInput
