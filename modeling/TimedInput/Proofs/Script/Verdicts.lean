import TimedInput.Proofs.Script.Rendering

/-!
# Verdicts on clauses

A clause that says something is accepted or rejected. It is accepted for an action that could
be written for the platform, and rejected for one cause at least and four at most: only a
move is looked at after its first fault. No cause is about the shape of the line.
-/

namespace TimedInput

/-- The actions for which clauses are accepted. A text is taken as it stands in its clause. -/
def Action.Accepted (platform : Platform) (action : Action) : Prop :=
  action.Admissible platform ∨ ∃ payload, action = .text payload ∧ payload ≠ [] ∧ 62 ∉ payload

structure IsRejection (causes : List Cause) : Prop where
  least : 1 ≤ causes.length
  most : causes.length ≤ 4
  kind : ∀ cause ∈ causes, cause.kind.isSyntactic = false

namespace Clause

def Verdict (platform : Platform) : Reading → Prop
  | .ok action => action.Accepted platform
  | .error causes => IsRejection causes

theorem verdict_reject {platform : Platform} {cause : Cause}
    (h : cause.kind.isSyntactic = false) : Verdict platform (reject cause) := by
  constructor
  · exact Nat.le_refl 1
  · exact Nat.le_add_left 1 3
  · intro other hother
    rw [List.mem_singleton.mp hother]
    exact h

theorem verdict_rejectCount (platform : Platform) (verb : Verb) (least most : Nat)
    (args : List Bytes) : Verdict platform (rejectCount verb least most args) := by
  unfold rejectCount
  split
  · exact verdict_reject rfl
  · exact verdict_reject rfl

section Numbers

variable {quantity : Quantity} {signed : Bool} {arg : Bytes}

theorem nonneg_of_readNumber {n : Int32} (h : readNumber quantity signed arg = .ok n) :
    signed = true ∨ 0 ≤ n :=
  (readNumber_eq_ok_iff.mp h).2

theorem kind_of_readNumber {cause : Cause} (h : readNumber quantity signed arg = .error cause) :
    cause.kind = .invalidArgumentValue := by
  unfold readNumber at h
  split at h
  · cases h
    rfl
  · split at h
    · cases h
      rfl
    · cases h

theorem kind_of_readDuration {duration : Option Bytes} {cause : Cause}
    (h : readDuration duration = .error cause) : cause.kind = .invalidArgumentValue := by
  cases duration with
  | none => cases h
  | some arg => exact kind_of_readNumber h

theorem toNat_duration_le {duration : Option Bytes} {n : Int32}
    (h : readDuration duration = .ok n) :
    n.toInt.toNat.toUInt64.toNat ≤ 2147483647 := by
  have hnonneg : 0 ≤ n := by
    cases duration with
    | none =>
      cases h
      decide
    | some arg => simpa using nonneg_of_readNumber h
  rw [Int32.le_iff_toInt_le] at hnonneg
  have hlt := n.toInt_lt
  have hnat : n.toInt.toNat.toUInt64.toNat = n.toInt.toNat := by
    apply UInt64.toNat_ofNat_of_lt'
    change n.toInt.toNat < 18446744073709551616
    omega
  rw [hnat]
  omega

theorem causes_eq_nil_iff {number : Except Cause Int32} :
    causes number = [] ↔ ∃ n, number = .ok n := by
  cases number <;> simp [causes]

theorem length_causes_le (number : Except Cause Int32) : (causes number).length ≤ 1 := by
  cases number <;> simp [causes]

theorem mem_causes {number : Except Cause Int32} {cause : Cause} :
    cause ∈ causes number ↔ number = .error cause := by
  cases number <;> simp [causes, eq_comm]

end Numbers

section Moves

variable {mode x y : Bytes} {duration : Option Bytes} {causes : List Cause}

/-- A move that is refused has a fault, and each of its four parts has one at most. -/
theorem length_of_readMove (h : readMove mode x y duration = .error causes) :
    1 ≤ causes.length ∧ causes.length ≤ 4 := by
  unfold readMove at h
  simp only at h
  split at h
  · cases h
  · rename_i hnot
    cases h
    constructor
    · -- if nothing were wrong, all four would have been read
      apply Nat.pos_of_ne_zero
      intro hnil
      rw [List.length_eq_zero_iff] at hnil
      simp only [List.append_eq_nil_iff, causes_eq_nil_iff] at hnil
      obtain ⟨⟨⟨hmode, x', hx⟩, y', hy⟩, duration', hduration⟩ := hnil
      cases hmode' : modeOf? mode with
      | none => simp [hmode'] at hmode
      | some mode' => exact hnot mode' x' y' duration' hmode' hx hy hduration
    · have hmode : (if (modeOf? mode).isNone then [Cause.invalidMode mode] else []).length ≤ 1 := by
        split <;> simp
      have hx := length_causes_le
        (readNumber .xPosition (modeOf? mode == some .relative) x)
      have hy := length_causes_le
        (readNumber .yPosition (modeOf? mode == some .relative) y)
      have hduration := length_causes_le (readDuration duration)
      simp only [List.length_append]
      omega

theorem kind_of_readMove (h : readMove mode x y duration = .error causes) {cause : Cause}
    (hcause : cause ∈ causes) : cause.kind = .invalidArgumentValue := by
  unfold readMove at h
  simp only at h
  split at h
  · cases h
  · cases h
    simp only [List.mem_append, mem_causes] at hcause
    rcases hcause with ((hcause | hcause) | hcause) | hcause
    · split at hcause
      · rw [List.mem_singleton.mp hcause]
        rfl
      · cases hcause
    · exact kind_of_readNumber hcause
    · exact kind_of_readNumber hcause
    · exact kind_of_readDuration hcause

theorem accepted_of_readMove (platform : Platform) {action : Action}
    (h : readMove mode x y duration = .ok action) : action.Accepted platform := by
  unfold readMove at h
  simp only at h
  split at h
  · rename_i mode' x' y' duration' hmode hx hy hduration
    cases h
    have hle := toNat_duration_le hduration
    have hx := nonneg_of_readNumber hx
    have hy := nonneg_of_readNumber hy
    left
    cases mode' with
    | relative => exact hle
    | absolute =>
      simp only [hmode] at hx hy
      exact ⟨by simpa using hx, by simpa using hy, hle⟩
  · cases h

end Moves

variable (platform : Platform)

theorem verdict_readMove (mode x y : Bytes) (duration : Option Bytes) :
    Verdict platform (readMove mode x y duration) := by
  cases h : readMove mode x y duration with
  | ok action => exact accepted_of_readMove platform h
  | error causes =>
    obtain ⟨hleast, hmost⟩ := length_of_readMove h
    refine ⟨hleast, hmost, fun cause hcause => ?_⟩
    rw [kind_of_readMove h hcause]
    rfl

theorem verdict_readButton (verb : Verb) (press : Press) (arg : Bytes) :
    Verdict platform (readButton platform verb press arg) := by
  unfold readButton
  split
  · exact verdict_reject rfl
  · rename_i number hnumber
    obtain ⟨-, hrange⟩ := Option.filter_eq_some_iff.mp hnumber
    simp only [Bool.and_eq_true, decide_eq_true_eq] at hrange
    split
    · rename_i hsupported
      exact .inl ⟨hrange.1, hrange.2, hsupported⟩
    · exact verdict_reject rfl

theorem verdict_readKey (verb : Verb) (press : Press) (arg : Bytes) :
    Verdict platform (readKey platform verb press arg) := by
  unfold readKey
  split
  · exact verdict_reject rfl
  · rename_i key hkey
    split
    · rename_i hsupported
      exact .inl ⟨key, List.mem_of_find?_eq_some hkey, rfl, hsupported⟩
    · exact verdict_reject rfl

theorem verdict_readRelease (arg : Bytes) : Verdict platform (readRelease arg) := by
  unfold readRelease
  split
  · exact .inl (.inl rfl)
  · split
    · exact .inl (.inr (.inl rfl))
    · split
      · exact .inl (.inr (.inr rfl))
      · exact verdict_reject rfl

theorem verdict_readText (text : Bytes) : Verdict platform (readText text) := by
  unfold readText
  split
  · exact verdict_reject rfl
  · rename_i hne
    split
    · exact verdict_reject rfl
    · rename_i hseparator
      exact .inr ⟨text, rfl, hne, by simpa using hseparator⟩

theorem verdict_withArgument (verb : Verb) {read : Bytes → Reading}
    (h : ∀ arg, Verdict platform (read arg)) (args : List Bytes) :
    Verdict platform (withArgument verb read args) := by
  unfold withArgument
  split
  · exact h _
  · exact verdict_rejectCount platform verb 1 1 args

theorem verdict_withMove (args : List Bytes) : Verdict platform (withMove args) := by
  unfold withMove
  split
  · apply verdict_readMove
  · apply verdict_readMove
  · exact verdict_rejectCount platform .mousemove 3 4 args

theorem verdict_readVerb (verb : Verb) (rest : Bytes) :
    Verdict platform (readVerb platform verb rest) := by
  unfold readVerb
  cases verb with
  | mousemove => exact verdict_withMove platform _
  | mousedown => exact verdict_withArgument _ _ (verdict_readButton platform _ _) _
  | mouseup => exact verdict_withArgument _ _ (verdict_readButton platform _ _) _
  | keydown => exact verdict_withArgument _ _ (verdict_readKey platform _ _) _
  | keyup => exact verdict_withArgument _ _ (verdict_readKey platform _ _) _
  | release => exact verdict_withArgument _ _ (verdict_readRelease platform) _
  | text => exact verdict_readText platform _

theorem verdict_read? {clause : Bytes} {reading : Reading}
    (h : read? platform clause = some reading) : Verdict platform reading := by
  unfold read? at h
  split at h
  · cases h
  · simp only [Option.some.injEq] at h
    subst h
    split
    · apply verdict_readVerb
    · exact verdict_reject rfl

end Clause

end TimedInput
