import TimedInput.Proofs.Sharing.Counts

/-!
# Lifetimes

An object lives from the operation that creates it to the one that takes its last reference
away. The operations on slots give back what they take, so the references outside the slots are
those that an owner has counted by hand, and an owner gives back no more than that.
-/

namespace TimedInput

/-- The slots that an operation is about. -/
def SlotOperation.slots : SlotOperation → List Nat
  | .make i | .resetNew i | .copyTemporary i | .moveTemporary i => [i]
  | .reset i | .retain i | .release i => [i]
  | .copy i j | .move i j | .resetTo i j | .swap i j | .compare i j => [i, j]

/-- What can be done with a pool: the operations on slots, and the counting of references to an
object to which an owner has kept a plain pointer. -/
inductive Use where
  | operate (operation : SlotOperation)
  | retain (id : Nat)
  | release (id : Nat)
  deriving DecidableEq, Repr

namespace Use

def perform (pool : Pool) : Use → Pool
  | .operate operation => (pool.apply operation).1
  | .retain id => pool.retained (some id)
  | .release id => pool.released (some id)

/-- The object to which a reference is counted by hand. -/
def retains (pool : Pool) : Use → Option Nat
  | .operate (.retain i) => pool.slot i
  | .retain id => some id
  | _ => none

/-- The object to which a reference that was counted by hand is given back. -/
def releases (pool : Pool) : Use → Option Nat
  | .operate (.release i) => pool.slot i
  | .release id => some id
  | _ => none

end Use

/-- A pool, and what was done with it as far as it matters. -/
structure Account where
  pool : Pool
  /-- The references that were counted by hand and not given back. -/
  manual : Nat → Nat
  /-- The objects that were destroyed, in the order in which that happened. -/
  destroyed : List Nat

namespace Account

def new (slots : Nat) : Account :=
  ⟨.new slots, 0, []⟩

/-- The slots that hold an object and the references to it that were counted by hand. -/
def references (account : Account) (id : Nat) : Nat :=
  account.pool.references account.manual id

def after (account : Account) (use : Use) : Account :=
  let next := use.perform account.pool
  { pool := next
    manual := fun id => account.manual id + Pool.single (use.retains account.pool) id -
      Pool.single (use.releases account.pool) id
    destroyed := account.destroyed ++ account.pool.living.filter (· ∉ next.living) }

def follow (account : Account) (uses : List Use) : Account :=
  uses.foldl after account

/-- There are the slots that are meant, an object lives while a reference to it is taken, and no
more references are given back than were counted by hand. -/
def Permits (account : Account) (use : Use) : Prop :=
  (match use with
    | .operate operation => ∀ i ∈ operation.slots, i < account.pool.slots.length
    | .retain id => id ∈ account.pool.living
    | .release _ => True) ∧
  ∀ id ∈ use.releases account.pool, 0 < account.manual id

def PermitsAll (account : Account) : List Use → Prop
  | [] => True
  | use :: uses => account.Permits use ∧ (account.after use).PermitsAll uses

instance (account : Account) (use : Use) : Decidable (account.Permits use) :=
  match use with
  | .operate operation => inferInstanceAs (Decidable ((∀ i ∈ operation.slots, _) ∧ _))
  | .retain id => inferInstanceAs (Decidable (id ∈ account.pool.living ∧ _))
  | .release _ => inferInstanceAs (Decidable (True ∧ _))

instance decidablePermitsAll (account : Account) : (uses : List Use) →
    Decidable (account.PermitsAll uses)
  | [] => inferInstanceAs (Decidable True)
  | use :: uses =>
    have := decidablePermitsAll (account.after use) uses
    inferInstanceAs (Decidable (account.Permits use ∧ (account.after use).PermitsAll uses))

end Account

namespace Pool

theorem tally_of_length_le {pool : Pool} {id : Nat} (h : pool.counts.length ≤ id) :
    pool.tally id = none := by
  simp [tally, List.getElem?_eq_none h]

theorem lt_length_of_tally {pool : Pool} {id : Nat} (h : pool.tally id ≠ none) :
    id < pool.counts.length := by
  by_contra hle
  exact h (tally_of_length_le (Nat.le_of_not_lt hle))

theorem mem_living {pool : Pool} {id : Nat} : id ∈ pool.living ↔ pool.tally id ≠ none := by
  constructor
  · intro h
    exact Option.isSome_iff_ne_none.mp (List.mem_filter.mp h).2
  · intro h
    apply List.mem_filter.mpr
    exact ⟨List.mem_range.mpr (lt_length_of_tally h), Option.isSome_iff_ne_none.mpr h⟩

theorem nodup_living (pool : Pool) : pool.living.Nodup :=
  List.nodup_range.filter _

/-- Slots stay, objects are only added, and those that were destroyed do not come back. -/
structure Grown (before after : Pool) : Prop where
  slots : after.slots.length = before.slots.length
  counts : before.counts.length ≤ after.counts.length
  gone : ∀ id < before.counts.length, before.tally id = none → after.tally id = none

namespace Grown

theorem refl (pool : Pool) : Grown pool pool :=
  ⟨rfl, Nat.le_refl _, fun _ _ h => h⟩

theorem trans {a b c : Pool} (hab : Grown a b) (hbc : Grown b c) : Grown a c := by
  refine ⟨hbc.slots.trans hab.slots, Nat.le_trans hab.counts hbc.counts, ?_⟩
  intro id hid hnone
  exact hbc.gone id (Nat.lt_of_lt_of_le hid hab.counts) (hab.gone id hid hnone)

theorem retained (pool : Pool) (object : Option Nat) : Grown pool (pool.retained object) := by
  refine ⟨by rw [slots_retained], ?_, ?_⟩
  · simp
  · intro id _ hnone
    simp [tally_retained, hnone]

theorem released (pool : Pool) (object : Option Nat) : Grown pool (pool.released object) := by
  refine ⟨by rw [slots_released], ?_, ?_⟩
  · simp
  · intro id _ hnone
    simp [tally_released, hnone]

theorem put (pool : Pool) (i : Nat) (object : Option Nat) : Grown pool (pool.put i object) :=
  ⟨List.length_set, Nat.le_refl _, fun _ _ h => h⟩

theorem created (pool : Pool) : Grown pool pool.created.1 := by
  refine ⟨rfl, ?_, ?_⟩
  · simp [Pool.created]
  · intro id hid hnone
    rw [tally_created, if_neg (Nat.ne_of_lt hid)]
    exact hnone

theorem assign (pool : Pool) (i : Nat) (object : Option Nat) : Grown pool (pool.assign i object) :=
  ((retained pool object).trans (released ..)).trans (put ..)

theorem exchange (pool : Pool) (i j : Nat) : Grown pool (pool.exchange i j) :=
  (put pool i _).trans (put ..)

theorem apply (pool : Pool) (operation : SlotOperation) :
    Grown pool (pool.apply operation).1 := by
  cases operation with
  | make i =>
    exact (created pool).trans (((retained ..).trans (put ..)).trans (released ..))
  | resetNew i => exact (created pool).trans (assign ..)
  | copy i j => exact assign ..
  | move i j => exact exchange ..
  | copyTemporary i => exact (retained ..).trans (released ..)
  | moveTemporary i => exact (put ..).trans (released ..)
  | reset i => exact assign ..
  | resetTo i j => exact assign ..
  | swap i j => exact exchange ..
  | retain i => exact retained ..
  | release i => exact released ..
  | compare i j => exact refl pool

theorem perform (pool : Pool) (use : Use) : Grown pool (use.perform pool) := by
  cases use with
  | operate operation => exact apply pool operation
  | retain id => exact retained pool (some id)
  | release id => exact released pool (some id)

end Grown

/-- A new object is in a slot when the operation that creates it is over. -/
theorem exists_slot_of_new {pool : Pool} {operation : SlotOperation}
    (hslots : ∀ i ∈ operation.slots, i < pool.slots.length) {id : Nat}
    (hge : pool.counts.length ≤ id) (hlt : id < (pool.apply operation).1.counts.length) :
    ∃ i, (pool.apply operation).1.slot i = some id := by
  cases operation with
  | make i =>
    have hi := hslots i List.mem_cons_self
    have hid : id = pool.counts.length := by
      simp [Pool.apply, created, Pool.put] at hlt
      omega
    refine ⟨i, ?_⟩
    simp [Pool.apply, created, slot, Pool.put, hi, hid]
  | resetNew i =>
    have hi := hslots i List.mem_cons_self
    have hid : id = pool.counts.length := by
      simp [Pool.apply, created, Pool.assign, Pool.put] at hlt
      omega
    refine ⟨i, ?_⟩
    simp [Pool.apply, created, Pool.assign, slot, Pool.put, hi, hid]
  | _ => 
    simp [Pool.apply, Pool.assign, Pool.exchange, Pool.put] at hlt
    omega

section Exact

variable {outside : Nat → Nat} {pool : Pool}

/-- References that are counted by hand and given back are outside. -/
theorem Exact.given_back {object : Option Nat} (h : pool.Exact outside)
    (hrelease : ∀ id ∈ object, 0 < outside id) :
    (pool.released object).Exact fun id => outside id - single object id := by
  apply Exact.released
  apply h.congr
  intro id
  simp only [Pi.add_apply, single]
  split
  · rename_i heq
    have := hrelease id heq
    omega
  · rfl

theorem Exact.apply {operation : SlotOperation} (h : pool.Exact outside)
    (hslots : ∀ i ∈ operation.slots, i < pool.slots.length)
    (hrelease : ∀ id ∈ (Use.operate operation).releases pool, 0 < outside id) :
    (pool.apply operation).1.Exact fun id =>
      outside id + single ((Use.operate operation).retains pool) id -
        single ((Use.operate operation).releases pool) id := by
  cases operation with
  | make i =>
    have hi : i < pool.slots.length := hslots i List.mem_cons_self
    exact h.created.replaced hi
  | resetNew i =>
    have hi : i < pool.slots.length := hslots i List.mem_cons_self
    change (pool.created.1.assign i (some pool.counts.length)).Exact outside
    rw [Pool.assign, put_released]
    exact h.created.replaced hi
  | copy i j => exact h.assign (hslots i List.mem_cons_self) fun id hid => h.tally_ne_none hid
  | move i j =>
    have hj : j < pool.slots.length := hslots j (List.mem_cons_of_mem i List.mem_cons_self)
    exact h.exchange (hslots i List.mem_cons_self) hj
  | copyTemporary i =>
    -- the temporary copy comes and goes
    exact (h.retained fun id hid => h.tally_ne_none hid).released
  | moveTemporary i =>
    have hnone : pool.Exact (outside + single none) := h.congr fun id => by simp [single]
    exact hnone.replaced (hslots i List.mem_cons_self)
  | reset i =>
    refine h.assign (hslots i List.mem_cons_self) fun id hid => ?_
    exact absurd hid.symm (Option.some_ne_none id)
  | resetTo i j => exact h.assign (hslots i List.mem_cons_self) fun id hid => h.tally_ne_none hid
  | swap i j =>
    have hj : j < pool.slots.length := hslots j (List.mem_cons_of_mem i List.mem_cons_self)
    exact h.exchange (hslots i List.mem_cons_self) hj
  | retain i => exact h.retained fun id hid => h.tally_ne_none hid
  | release i => exact h.given_back hrelease
  | compare i j => exact h

end Exact

end Pool

/-- The counts are exact, and the objects that were destroyed are those that are gone. -/
structure Account.Balanced (slots : Nat) (account : Account) : Prop where
  length_slots : account.pool.slots.length = slots
  exact : account.pool.Exact account.manual
  nodup : account.destroyed.Nodup
  mem_destroyed : ∀ id,
    id ∈ account.destroyed ↔ id < account.pool.counts.length ∧ account.pool.tally id = none

namespace Account

theorem balanced_new (slots : Nat) : (new slots).Balanced slots := by
  refine ⟨by simp [new, Pool.new], ?_, List.nodup_nil, ?_⟩
  · intro id
    simp [new, Pool.new, Pool.tally, Pool.counted, Pool.references, List.count_replicate]
  · simp [new, Pool.new]

variable {slots : Nat} {account : Account} {use : Use}

theorem Balanced.exact_after (h : account.Balanced slots) (hpermits : account.Permits use) :
    (account.after use).pool.Exact (account.after use).manual := by
  obtain ⟨hmeant, hrelease⟩ := hpermits
  cases use with
  | operate operation => exact h.exact.apply hmeant hrelease
  | retain id =>
    apply h.exact.retained
    intro other hother
    obtain rfl : id = other := Option.some.inj hother
    exact Pool.mem_living.mp hmeant
  | release id => exact h.exact.given_back hrelease

/-- An object that is created by a use is there after it. -/
theorem Balanced.tally_new (h : account.Balanced slots) (hpermits : account.Permits use) {id : Nat}
    (hge : account.pool.counts.length ≤ id)
    (hlt : id < (account.after use).pool.counts.length) :
    (account.after use).pool.tally id ≠ none := by
  cases use with
  | operate operation =>
    obtain ⟨i, hi⟩ := Pool.exists_slot_of_new hpermits.1 hge hlt
    exact (h.exact_after hpermits).tally_ne_none hi
  | retain other =>
    simp [after, Use.perform] at hlt
    omega
  | release other =>
    simp [after, Use.perform] at hlt
    omega

theorem Balanced.after (h : account.Balanced slots) (hpermits : account.Permits use) :
    (account.after use).Balanced slots := by
  have hgrown := Pool.Grown.perform account.pool use
  have hexact := h.exact_after hpermits
  refine ⟨hgrown.slots.trans h.length_slots, hexact, ?_, ?_⟩
  · apply List.nodup_append.mpr
    refine ⟨h.nodup, (Pool.nodup_living _).filter _, ?_⟩
    -- what was destroyed before does not live at the moment
    rintro id hid other hother rfl
    have hnone := ((h.mem_destroyed id).mp hid).2
    exact Pool.mem_living.mp (List.mem_filter.mp hother).1 hnone
  · intro id
    simp only [Account.after, List.mem_append, h.mem_destroyed, List.mem_filter, Pool.mem_living,
      decide_eq_true_eq, not_not]
    constructor
    · rintro (⟨hlt, hnone⟩ | ⟨hlive, hnone⟩)
      · exact ⟨Nat.lt_of_lt_of_le hlt hgrown.counts, hgrown.gone id hlt hnone⟩
      · exact ⟨Nat.lt_of_lt_of_le (Pool.lt_length_of_tally hlive) hgrown.counts, hnone⟩
    · rintro ⟨hlt, hnone⟩
      by_cases hlive : account.pool.tally id = none
      · left
        refine ⟨?_, hlive⟩
        by_contra hge
        exact h.tally_new hpermits (Nat.le_of_not_lt hge) hlt hnone
      · exact .inr ⟨hlive, hnone⟩

theorem Balanced.follow (h : account.Balanced slots) {uses : List Use}
    (hpermits : account.PermitsAll uses) : (account.follow uses).Balanced slots := by
  induction uses generalizing account with
  | nil => exact h
  | cons use uses ih => exact ih (h.after hpermits.1) hpermits.2

theorem Balanced.tally_eq_none_iff (h : account.Balanced slots) {id : Nat} :
    account.pool.tally id = none ↔ account.references id = 0 := by
  rw [h.exact id, Pool.counted_eq_none_iff]
  rfl

theorem Balanced.count_eq (h : account.Balanced slots) (id : Nat) :
    account.pool.count (some id) = account.references id := by
  have hcount : account.pool.count (some id) = (account.pool.tally id).getD 0 := rfl
  rw [hcount, h.exact id, Pool.counted]
  split
  · rename_i hzero
    exact hzero.symm
  · rfl

/-- After any permitted uses of a pool: an object that lives has as many references as it counts,
and one at least; every slot holds an object that lives or nothing; no object was destroyed twice,
and those that were destroyed are the ones that were created and have no reference left. A use
that is permitted then destroys, of the objects that live, exactly those to which it leaves no
reference. -/
theorem counts_are_exact (slots : Nat) {uses : List Use}
    (hpermits : (new slots).PermitsAll uses) :
    let account := (new slots).follow uses
    account.pool.slots.length = slots ∧
    (∀ id ∈ account.pool.living,
      account.pool.count (some id) = account.pool.slots.count (some id) + account.manual id ∧
      1 ≤ account.pool.count (some id)) ∧
    (∀ i id, account.pool.slot i = some id → id ∈ account.pool.living) ∧
    account.destroyed.Nodup ∧
    (∀ id, id ∈ account.destroyed ↔ id < account.pool.counts.length ∧
      account.pool.slots.count (some id) + account.manual id = 0) ∧
    (∀ id < account.pool.counts.length, id ∈ account.pool.living ↔ id ∉ account.destroyed) ∧
    ∀ use, account.Permits use →
      let next := account.after use
      next.destroyed = account.destroyed ++ account.pool.living.filter fun id =>
        next.pool.slots.count (some id) + next.manual id = 0 := by
  intro account
  have h : account.Balanced slots := (balanced_new slots).follow hpermits
  refine ⟨h.length_slots, ?_, ?_, h.nodup, ?_, ?_, ?_⟩
  · intro id hid
    have hne := h.tally_eq_none_iff.not.mp (Pool.mem_living.mp hid)
    refine ⟨h.count_eq id, ?_⟩
    rw [h.count_eq id]
    omega
  · intro i id hslot
    exact Pool.mem_living.mpr (h.exact.tally_ne_none hslot)
  · intro id
    rw [h.mem_destroyed, h.tally_eq_none_iff]
    rfl
  · intro id hid
    rw [Pool.mem_living, h.mem_destroyed]
    simp [hid]
  · intro use huse next
    have hnext : next.Balanced slots := h.after huse
    apply congrArg (account.destroyed ++ ·)
    apply List.filter_congr
    intro id _
    apply decide_eq_decide.mpr
    rw [Pool.mem_living, not_not]
    exact hnext.tally_eq_none_iff

/-- The object outlives both slots by a reference that was counted by hand. -/
theorem counts_are_exact_last_by_hand :
    let uses : List Use := [.operate (.make 0), .operate (.copy 1 0), .operate (.retain 1),
      .operate (.copy 0 0), .operate (.resetNew 1), .operate (.move 0 1),
      .operate (.moveTemporary 1)]
    let account := (new 2).follow uses
    (new 2).PermitsAll uses ∧ account.pool.living = [0, 1] ∧ account.pool.slots = [some 1, none] ∧
      account.pool.count (some 0) = 1 ∧ (account.after (.release 0)).destroyed = [0] := by
  intro uses account
  have hpermits : (new 2).PermitsAll uses := by decide
  obtain ⟨-, hcount, -, -, -, -, hafter⟩ := counts_are_exact 2 hpermits
  have hrelease : account.Permits (.release 0) := by decide
  refine ⟨hpermits, rfl, rfl, (hcount 0 (by decide)).1, (hafter _ hrelease).trans ?_⟩
  decide

end Account

end TimedInput
