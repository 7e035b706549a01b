import Mathlib.Algebra.Group.Pi.Basic
import Mathlib.Algebra.GroupWithZero.Nat
import TimedInput.Sharing.Pool

/-!
# Exact counts

The count of an object is the number of references to it. A reference is in a slot or outside
all slots; while an operation is under way, the references that it has taken from a slot or is
about to put into one are outside, too. So each part of an operation only moves references,
takes a new one or gives one back, and the counts are exact before and after each part.

Whether the references outside are all given back is not a matter of the pool.
-/

namespace TimedInput.Pool

/-- The count of an object, and nothing for one that does not exist or was destroyed. -/
def tally (pool : Pool) (id : Nat) : Option Nat :=
  (pool.counts[id]?).join

/-- How many references to each object there are if there is just the given one. -/
def single (object : Option Nat) (id : Nat) : Nat :=
  if object = some id then 1 else 0

/-- The references to an object, in the slots and outside. -/
def references (pool : Pool) (outside : Nat → Nat) (id : Nat) : Nat :=
  pool.slots.count (some id) + outside id

/-- An object with no reference has no count: it is destroyed, or there was none. -/
def counted (references : Nat) : Option Nat :=
  if references = 0 then none else some references

theorem counted_eq_none_iff {n : Nat} : counted n = none ↔ n = 0 := by
  unfold counted
  split <;> simp_all

theorem lowered_counted (n : Nat) : (counted (n + 1)).bind lowered = counted n := by
  cases n <;> simp [counted, lowered]

/-- Every object has the count of the references to it. -/
def Exact (outside : Nat → Nat) (pool : Pool) : Prop :=
  ∀ id, pool.tally id = counted (pool.references outside id)

@[simp] theorem tally_put (pool : Pool) (i : Nat) (object : Option Nat) (id : Nat) :
    (pool.put i object).tally id = pool.tally id := rfl

theorem tally_retained (pool : Pool) (object : Option Nat) (id : Nat) :
    (pool.retained object).tally id =
      if object = some id then (pool.tally id).map (· + 1) else pool.tally id := by
  cases object with
  | none => rfl
  | some k =>
    simp only [tally, retained, List.getElem?_modify, Option.some.injEq]
    split
    · rcases pool.counts[id]? with _ | _ | n <;> rfl
    · rcases pool.counts[id]? with _ | _ | n <;> rfl

theorem tally_released (pool : Pool) (object : Option Nat) (id : Nat) :
    (pool.released object).tally id =
      if object = some id then (pool.tally id).bind lowered else pool.tally id := by
  cases object with
  | none => rfl
  | some k =>
    simp only [tally, released, List.getElem?_modify, Option.some.injEq]
    split
    · rcases pool.counts[id]? with _ | _ | n <;> rfl
    · rcases pool.counts[id]? with _ | _ | n <;> rfl

theorem tally_created (pool : Pool) (id : Nat) :
    pool.created.1.tally id = if id = pool.counts.length then some 0 else pool.tally id := by
  simp only [tally, created, List.getElem?_append]
  split
  · split
    · omega
    · rfl
  · split
    · simp_all
    · rw [List.getElem?_eq_none (by simp; omega), List.getElem?_eq_none (by omega)]

@[simp] theorem slots_retained (pool : Pool) (object : Option Nat) :
    (pool.retained object).slots = pool.slots := by
  cases object <;> rfl

@[simp] theorem slots_released (pool : Pool) (object : Option Nat) :
    (pool.released object).slots = pool.slots := by
  cases object <;> rfl

@[simp] theorem length_retained (pool : Pool) (object : Option Nat) :
    (pool.retained object).counts.length = pool.counts.length := by
  cases object <;> simp [retained]

@[simp] theorem length_released (pool : Pool) (object : Option Nat) :
    (pool.released object).counts.length = pool.counts.length := by
  cases object <;> simp [released]

theorem put_released (pool : Pool) (i : Nat) (object old : Option Nat) :
    (pool.released old).put i object = (pool.put i object).released old := by
  cases old <;> rfl

@[simp] theorem slot_retained (pool : Pool) (object : Option Nat) (i : Nat) :
    (pool.retained object).slot i = pool.slot i := by
  simp [slot]

theorem mem_slots_of_slot {pool : Pool} {i id : Nat} (h : pool.slot i = some id) :
    some id ∈ pool.slots :=
  List.mem_of_getElem? (Option.join_eq_some_iff.mp h)

theorem slot_put {pool : Pool} {i : Nat} (hi : i < pool.slots.length) (object : Option Nat)
    (j : Nat) : (pool.put i object).slot j = if i = j then object else pool.slot j := by
  simp only [slot, put, List.getElem?_set]
  split
  · simp_all
  · rfl

/-- A slot that gets another object gives up the reference that it had. -/
theorem references_put {pool : Pool} {i : Nat} (hi : i < pool.slots.length) (object : Option Nat)
    (outside : Nat → Nat) (id : Nat) :
    (pool.put i object).references outside id + single (pool.slot i) id =
      pool.references outside id + single object id := by
  have hslot : pool.slots[i] = pool.slot i := by
    simp [slot, List.getElem?_eq_getElem hi]
  have hcount := List.count_set (b := some id) (a := object) hi
  simp only [beq_iff_eq, hslot] at hcount
  simp only [references, put, single, hcount]
  by_cases hold : pool.slot i = some id
  · have hpos := List.count_pos_iff.mpr (mem_slots_of_slot hold)
    rw [if_pos hold]
    omega
  · rw [if_neg hold]
    omega

variable {outside : Nat → Nat} {pool : Pool}

theorem Exact.tally_ne_none (h : pool.Exact outside) {i id : Nat} (hslot : pool.slot i = some id) :
    pool.tally id ≠ none := by
  rw [h, Ne, counted_eq_none_iff]
  have hpos := List.count_pos_iff.mpr (mem_slots_of_slot hslot)
  simp only [references]
  omega

theorem Exact.congr (h : pool.Exact outside) {other : Nat → Nat}
    (heq : ∀ id, other id = outside id) : pool.Exact other := by
  rw [funext heq]
  exact h

theorem Exact.retained (h : pool.Exact outside) {object : Option Nat}
    (hlive : ∀ id, object = some id → pool.tally id ≠ none) :
    (pool.retained object).Exact (outside + single object) := by
  intro id
  have href : (pool.retained object).references (outside + single object) id =
      pool.references outside id + single object id := by
    simp [references, Nat.add_assoc]
  rw [tally_retained, href, single, h]
  split
  · rename_i heq
    have hne := hlive id heq
    rw [h, Ne, counted_eq_none_iff] at hne
    simp [counted, hne]
  · rfl

/-- The first reference to a new object. -/
theorem Exact.created (h : pool.Exact outside) :
    (pool.created.1.retained (some pool.counts.length)).Exact
      (outside + single (some pool.counts.length)) := by
  intro id
  have href : (pool.created.1.retained (some pool.counts.length)).references
      (outside + single (some pool.counts.length)) id =
        pool.references outside id + single (some pool.counts.length) id := by
    simp [references, Pool.created, Nat.add_assoc]
  rw [tally_retained, tally_created, href, single]
  by_cases heq : id = pool.counts.length
  · have hnone : pool.tally id = none := by
      simp [tally, heq]
    rw [h, counted_eq_none_iff] at hnone
    simp [heq, heq ▸ hnone, counted]
  · simp only [heq, Option.some.injEq, Ne.symm heq, if_false]
    exact h id

theorem Exact.released {object : Option Nat} (h : pool.Exact (outside + single object)) :
    (pool.released object).Exact outside := by
  intro id
  have href : pool.references (outside + single object) id =
      (pool.released object).references outside id + single object id := by
    simp [references, Nat.add_assoc]
  rw [tally_released, h, href, single]
  split
  · exact lowered_counted _
  · rfl

theorem Exact.put {object : Option Nat} (h : pool.Exact (outside + single object)) {i : Nat}
    (hi : i < pool.slots.length) :
    (pool.put i object).Exact (outside + single (pool.slot i)) := by
  intro id
  have href := references_put hi object outside id
  rw [tally_put, h]
  simp only [references, Pi.add_apply] at href ⊢
  congr 1
  omega

/-- The reference that a slot gives up for another one is given back. -/
theorem Exact.replaced {object : Option Nat} (h : pool.Exact (outside + single object)) {i : Nat}
    (hi : i < pool.slots.length) : ((pool.put i object).released (pool.slot i)).Exact outside :=
  (h.put hi).released

theorem Exact.assign (h : pool.Exact outside) {i : Nat} (hi : i < pool.slots.length)
    {object : Option Nat} (hlive : ∀ id, object = some id → pool.tally id ≠ none) :
    (pool.assign i object).Exact outside := by
  have hheld := h.retained hlive
  rw [Pool.assign, put_released, ← slot_retained pool object i]
  apply hheld.replaced
  rw [slots_retained]
  exact hi

theorem Exact.exchange (h : pool.Exact outside) {i j : Nat} (hi : i < pool.slots.length)
    (hj : j < pool.slots.length) : (pool.exchange i j).Exact outside := by
  intro id
  have hfirst := references_put hi (pool.slot j) outside id
  have hj' : j < (pool.put i (pool.slot j)).slots.length := by
    simpa [Pool.put] using hj
  have hsecond := references_put hj' (pool.slot i) outside id
  have htally : (pool.exchange i j).tally id = pool.tally id := rfl
  rw [htally, h, Pool.exchange]
  rw [slot_put hi, ite_self] at hsecond
  congr 1
  omega

end TimedInput.Pool
