import Mathlib.Algebra.Order.Floor.Div
import TimedInput.Proofs.Number.Rounding
import TimedInput.Proofs.Playback.Progress

/-!
# Glides, step by step

A move that takes time is a fixed list of calls, one for each step. However its positions are
rounded between the first and the last, the distances of a relative move add up to the position
that was reached last, and so to the whole distance in the end.
-/

namespace TimedInput

namespace Point

theorem add_assoc (p q r : Point) : p + q + r = p + (q + r) := by
  change (⟨p.x + q.x + r.x, p.y + q.y + r.y⟩ : Point) = ⟨p.x + (q.x + r.x), p.y + (q.y + r.y)⟩
  rw [Int32.add_assoc, Int32.add_assoc]

@[simp] theorem add_origin (p : Point) : p + origin = p := by
  change (⟨p.x + 0, p.y + 0⟩ : Point) = p
  rw [Int32.add_zero, Int32.add_zero]

end Point

theorem UInt64.toNatClampNeg_toInt64 {w : UInt64} (h : w.toNat < 2 ^ 63) :
    w.toInt64.toNatClampNeg = w.toNat := by
  have hint : w.toInt64.toInt = w.toNat := by
    apply BitVec.toInt_eq_toNat_of_lt
    change 2 * w.toNat < 2 ^ 64
    omega
  rw [Int64.toNatClampNeg, hint]
  rfl

section Steps

variable {duration tick : UInt64}

/-- As long as the sum does not wrap, the steps are counted as they should be. -/
theorem stepCount_eq_ceilDiv (hleast : 1 ≤ duration.toNat) (hmost : duration.toNat < 2 ^ 63)
    (htick : 1 ≤ tick.toNat) (hsum : duration.toNat + tick.toNat - 1 < 2 ^ 64) :
    stepCount duration tick = duration.toNat ⌈/⌉ tick.toNat := by
  have hnat : ((duration + tick - 1) / tick).toNat = duration.toNat ⌈/⌉ tick.toNat := by
    rw [UInt64.toNat_div, UInt64.toNat_sub, UInt64.toNat_add, UInt64.toNat_one,
      Nat.ceilDiv_eq_add_pred_div]
    congr 1
    omega
  have hle : duration.toNat ⌈/⌉ tick.toNat ≤ duration.toNat := by
    rw [ceilDiv_le_iff_le_mul htick]
    exact Nat.le_mul_of_pos_left _ htick
  rw [stepCount, UInt64.toNatClampNeg_toInt64 (by omega), hnat]

theorem Settings.effectiveTick_pos (s : Settings) : 1 ≤ s.effectiveTick.toNat := by
  unfold effectiveTick
  split
  · exact Nat.le_refl 1
  · rename_i h
    have hne : s.tick.toNat ≠ 0 := fun heq => h (UInt64.toNat_inj.mp heq)
    omega

theorem Settings.effectiveTick_le (s : Settings) : s.effectiveTick.toNat ≤ max 1 s.tick.toNat := by
  unfold effectiveTick
  split
  · exact Nat.le_max_left ..
  · exact Nat.le_max_right ..

theorem one_le_ceilDiv {a b : Nat} (ha : 1 ≤ a) (hb : 1 ≤ b) : 1 ≤ a ⌈/⌉ b := by
  by_contra h
  have hle : a ⌈/⌉ b ≤ 0 := by omega
  rw [ceilDiv_le_iff_le_mul hb] at hle
  omega

theorem stepPosition_zero {n : Nat} (h : n ≠ 0) (d : Int) : stepPosition n d 0 = 0 := by
  rw [stepPosition, if_neg h.symm]
  simp only [Nat.cast_zero, Rounding.binary64_zero, mul_zero, zero_div, Rounding.halfAway_zero]

theorem stepPosition_of_zero (n i : Nat) : stepPosition n 0 i = 0 := by
  rw [stepPosition]
  split
  · rfl
  · simp only [Int.cast_zero, Rounding.binary64_zero, zero_mul, zero_div, Rounding.halfAway_zero]

theorem stepPosition_self (n : Nat) (d : Int) : stepPosition n d n = d :=
  if_pos rfl

end Steps

namespace Glide

/-- The call that makes step `i + 1` of `n`. -/
def stepCall (mode : MoveMode) (origin : Point) (dx dy : Int) (n i : Nat) : Call :=
  match mode with
  | .absolute =>
    .moveAbsolute (Int32.ofInt (origin.x.toInt + stepPosition n dx (i + 1)))
      (Int32.ofInt (origin.y.toInt + stepPosition n dy (i + 1)))
  | .relative =>
    .moveRelative (Int32.ofInt (stepPosition n dx (i + 1) - stepPosition n dx i))
      (Int32.ofInt (stepPosition n dy (i + 1) - stepPosition n dy i))

theorem calls_eq_range' (glide : Glide) :
    glide.calls = (List.range' glide.taken glide.left).map
      (stepCall glide.mode glide.origin glide.dx glide.dy glide.count) := by
  have hlt := glide.taken_lt
  have hleft : glide.left = glide.count - (glide.taken + 1) + 1 := by
    unfold left
    omega
  have hcall : glide.call =
      stepCall glide.mode glide.origin glide.dx glide.dy glide.count glide.taken := by
    unfold call stepCall
    cases glide.mode <;> rfl
  rw [calls_eq, hleft, List.range'_succ, List.map_cons, hcall]
  congr 1
  by_cases h : glide.taken + 1 < glide.count
  · have hnext : glide.next? = some { glide with taken := glide.taken + 1, taken_lt := h } :=
      dif_pos h
    rw [hnext, callsOf, Option.elim_some, calls_eq_range']
    rfl
  · have hnone : glide.next? = none := dif_neg h
    have hzero : glide.count - (glide.taken + 1) = 0 := by omega
    rw [hnone, hzero]
    rfl
termination_by glide.left
decreasing_by exact left_of_next? hnext

end Glide

/-- Where a move starts, as far as its calls depend on it. -/
def MoveMode.origin (mode : MoveMode) (target : Point) (pointer : Option Point) : Point :=
  match mode with
  | .absolute => pointer.getD target
  | .relative => .origin

theorem Glide.callsOf_start? (mode : MoveMode) (target : Point) (pointer : Option Point)
    (duration tick : UInt64) (due : Nat) :
    let n := stepCount duration tick
    let origin := mode.origin target pointer
    callsOf (start? mode target pointer duration tick due) =
      (List.range n).map (stepCall mode origin (target.x.toInt - origin.x.toInt)
        (target.y.toInt - origin.y.toInt) n) := by
  intro n origin
  by_cases hn : 0 < stepCount duration tick
  · simp only [start?, dif_pos hn, callsOf, Option.elim_some, calls_eq_range',
      List.range_eq_range']
    rfl
  · have hzero : n = 0 := by omega
    simp only [start?, dif_neg hn]
    rw [hzero]
    rfl

theorem Event.calls_of_glide (settings : Settings) (s : InputState) {event : Event}
    {mode : MoveMode} {x y : Int32} {duration : UInt64}
    (haction : event.action = .move mode x y duration) (hduration : duration ≠ 0) :
    event.calls settings s =
      Glide.callsOf (Glide.start? mode ⟨x, y⟩ s.pointer duration settings.effectiveTick
        (0 + Instant.ofMilliseconds event.time.toNat)) := by
  simp [calls, Run.dispatch, haction, hduration, Run.ofTimeline]

namespace Call

def distance : Call → Point
  | .moveRelative dx dy => ⟨dx, dy⟩
  | _ => .origin

def displacement (calls : List Call) : Point :=
  calls.foldl (fun sum call => sum + call.distance) .origin

theorem displacement_snoc (calls : List Call) (call : Call) :
    displacement (calls ++ [call]) = displacement calls + call.distance :=
  List.foldl_append

end Call

namespace Glide

section Relative

variable (origin : Point) (dx dy : Int) {n : Nat}

/-- The distances add up to the position reached last, however it was rounded. -/
theorem displacement_steps (hn : n ≠ 0) (k : Nat) :
    Call.displacement ((List.range k).map (stepCall .relative origin dx dy n)) =
      ⟨.ofInt (stepPosition n dx k), .ofInt (stepPosition n dy k)⟩ := by
  induction k with
  | zero =>
    rw [stepPosition_zero hn, stepPosition_zero hn]
    rfl
  | succ k ih =>
    rw [List.range_succ, List.map_append, List.map_singleton, Call.displacement_snoc, ih]
    change Point.mk (_ + Int32.ofInt (_ - _)) (_ + Int32.ofInt (_ - _)) = _
    rw [← Int32.ofInt_add, ← Int32.ofInt_add, add_sub_cancel, add_sub_cancel]

theorem displacement_take_steps {k : Nat} (hk : k ≤ n) (hn : n ≠ 0) :
    Call.displacement (((List.range n).map (stepCall .relative origin dx dy n)).take k) =
      ⟨.ofInt (stepPosition n dx k), .ofInt (stepPosition n dy k)⟩ := by
  rw [← List.map_take, List.take_range, Nat.min_eq_left hk]
  exact displacement_steps origin dx dy hn k

theorem displacement_all_steps (x y : Int32) (hn : n ≠ 0) :
    Call.displacement ((List.range n).map (stepCall .relative origin x.toInt y.toInt n)) =
      ⟨x, y⟩ := by
  rw [displacement_steps origin x.toInt y.toInt hn, stepPosition_self, stepPosition_self,
    Int32.ofInt_toInt, Int32.ofInt_toInt]

end Relative

section Absolute

variable (origin target : Point) {n : Nat}

theorem getLast?_steps (hn : n ≠ 0) :
    ((List.range n).map (stepCall .absolute origin (target.x.toInt - origin.x.toInt)
      (target.y.toInt - origin.y.toInt) n)).getLast? = some (.moveAbsolute target.x target.y) := by
  obtain ⟨m, rfl⟩ := Nat.exists_eq_succ_of_ne_zero hn
  rw [List.range_succ, List.map_append, List.map_singleton, List.getLast?_concat]
  simp only [stepCall, Nat.succ_eq_add_one, stepPosition_self, add_sub_cancel, Int32.ofInt_toInt]

/-- Where nothing is to be covered, every step stays at the target. -/
theorem stepCall_of_origin (n i : Nat) :
    stepCall .absolute target (target.x.toInt - target.x.toInt) (target.y.toInt - target.y.toInt)
      n i = .moveAbsolute target.x target.y := by
  simp only [stepCall, sub_self, stepPosition_of_zero, add_zero, Int32.ofInt_toInt]

end Absolute

end Glide

namespace InputState

variable {s : InputState} {calls : List Call}

theorem replay_relative (h : ∀ call ∈ calls, ∃ d : Point, call = .moveRelative d.x d.y) :
    s.replay (calls.map .success) = s.movePointer (Call.displacement calls) := by
  induction calls using List.reverseRecOn with
  | nil => simp [Call.displacement, movePointer]
  | append_singleton calls call ih =>
    obtain ⟨d, rfl⟩ := h call (by simp)
    have hbefore := ih fun call hcall => h call (List.mem_append_left _ hcall)
    rw [List.map_append, replay_append, hbefore, Call.displacement_snoc]
    change (s.movePointer (Call.displacement calls)).movePointer d = _
    simp [movePointer, Function.comp_def, Point.add_assoc, Call.distance]

theorem pointer_replay_absolute {k : Nat} {p : Point}
    (h : calls[k]? = some (.moveAbsolute p.x p.y)) :
    (s.replay ((calls.take (k + 1)).map .success)).pointer = some p := by
  rw [List.take_add_one, h, List.map_append, replay_append]
  rfl

end InputState

section Calls

variable (settings : Settings) (s : InputState) {event : Event} {mode : MoveMode} {x y : Int32}
variable {duration : UInt64} (haction : event.action = .move mode x y duration)
variable (hleast : 1 ≤ duration.toNat) (hmost : duration.toNat < 2 ^ 63)
variable (hsum : duration.toNat + settings.effectiveTick.toNat - 1 < 2 ^ 64)
include haction hleast hmost hsum

theorem Event.calls_of_timed :
    let n := duration.toNat ⌈/⌉ settings.effectiveTick.toNat
    let origin := mode.origin ⟨x, y⟩ s.pointer
    event.calls settings s =
      (List.range n).map (Glide.stepCall mode origin (x.toInt - origin.x.toInt)
        (y.toInt - origin.y.toInt) n) := by
  have hduration : duration ≠ 0 := by
    rintro rfl
    cases hleast
  rw [calls_of_glide settings s haction hduration, Glide.callsOf_start?,
    stepCount_eq_ceilDiv hleast hmost settings.effectiveTick_pos hsum]

theorem Event.calls_of_timed_relative (hmode : mode = .relative) :
    let n := duration.toNat ⌈/⌉ settings.effectiveTick.toNat
    let calls := event.calls settings s
    (∀ call ∈ calls, ∃ d : Point, call = .moveRelative d.x d.y) ∧
      Call.displacement calls = ⟨x, y⟩ ∧
      ∀ k ≤ n, Call.displacement (calls.take k) =
        ⟨.ofInt (stepPosition n x.toInt k), .ofInt (stepPosition n y.toInt k)⟩ := by
  subst hmode
  intro n calls
  have hne : n ≠ 0 := Nat.ne_of_gt (one_le_ceilDiv hleast settings.effectiveTick_pos)
  have hx : x.toInt - Point.origin.x.toInt = x.toInt := Int.sub_zero x.toInt
  have hy : y.toInt - Point.origin.y.toInt = y.toInt := Int.sub_zero y.toInt
  have hcalls : calls =
      (List.range n).map (Glide.stepCall .relative .origin x.toInt y.toInt n) := by
    rw [← hx, ← hy]
    exact calls_of_timed settings s haction hleast hmost hsum
  refine ⟨?_, ?_, ?_⟩
  · intro call hcall
    rw [hcalls] at hcall
    obtain ⟨i, -, rfl⟩ := List.mem_map.mp hcall
    exact ⟨⟨_, _⟩, rfl⟩
  · rw [hcalls]
    exact Glide.displacement_all_steps .origin x y hne
  · intro k hk
    rw [hcalls]
    exact Glide.displacement_take_steps .origin x.toInt y.toInt hk hne

theorem Event.calls_of_timed_absolute (hmode : mode = .absolute) :
    let calls := event.calls settings s
    (∀ call ∈ calls, ∃ p : Point, call = .moveAbsolute p.x p.y) ∧
      calls.getLast? = some (.moveAbsolute x y) ∧
      (s.pointer = none → ∀ call ∈ calls, call = .moveAbsolute x y) := by
  subst hmode
  intro calls
  let n := duration.toNat ⌈/⌉ settings.effectiveTick.toNat
  have hne : n ≠ 0 := Nat.ne_of_gt (one_le_ceilDiv hleast settings.effectiveTick_pos)
  let origin := s.pointer.getD ⟨x, y⟩
  have hcalls : calls = (List.range n).map (Glide.stepCall .absolute origin
      (x.toInt - origin.x.toInt) (y.toInt - origin.y.toInt) n) :=
    calls_of_timed settings s haction hleast hmost hsum
  refine ⟨?_, ?_, ?_⟩
  · intro call hcall
    rw [hcalls] at hcall
    obtain ⟨i, -, rfl⟩ := List.mem_map.mp hcall
    exact ⟨⟨_, _⟩, rfl⟩
  · rw [hcalls]
    exact Glide.getLast?_steps origin ⟨x, y⟩ hne
  · intro hunknown call hcall
    have horigin : origin = ⟨x, y⟩ := by simp [origin, hunknown]
    rw [hcalls, horigin] at hcall
    obtain ⟨i, -, rfl⟩ := List.mem_map.mp hcall
    exact Glide.stepCall_of_origin ⟨x, y⟩ n i

end Calls

namespace Run

/-- A move that takes time is about to begin, in whatever state. Its calls are as many as its steps,
and the last one brings it to its target. The distances of a relative move add up to the position
that is reached, and to the whole distance in the end; an absolute move puts the pointer where its
calls say. However the run goes on from there, it makes all the calls if nobody asks it to cancel
and no call fails. Otherwise it may be stopped after the first of them, and the pointer is where
these have left it. -/
theorem glides_are_exact {σ : Type} (backend : Backend σ) {run : Run σ} {event : Event}
    {rest : Timeline} {mode : MoveMode} {x y : Int32} {duration : UInt64}
    (hstage : run.stage = .await ⟨none, event :: rest⟩)
    (haction : event.action = .move mode x y duration)
    (hleast : 1 ≤ duration.toNat) (hmost : duration.toNat < 2 ^ 63)
    (hsum : duration.toNat + run.settings.effectiveTick.toNat - 1 < 2 ^ 64) :
    let n := duration.toNat ⌈/⌉ run.settings.effectiveTick.toNat
    let calls := event.calls run.settings run.state
    let pointer := fun k => (run.state.replay ((calls.take k).map .success)).pointer
    let arrives := fun moves => ∃ earlier, earlier <+: moves ∧
      (run.follow backend earlier).stage = .await ⟨none, rest⟩ ∧
      (run.follow backend earlier).log = run.log ++ calls.map .success ∧
      (run.follow backend earlier).state = run.state.replay (calls.map .success)
    1 ≤ n ∧ calls.length = n ∧
    (mode = .relative →
      (∀ call ∈ calls, ∃ d : Point, call = .moveRelative d.x d.y) ∧
      Call.displacement calls = ⟨x, y⟩ ∧
      ∀ k ≤ n,
        Call.displacement (calls.take k) =
          ⟨.ofInt (stepPosition n x.toInt k), .ofInt (stepPosition n y.toInt k)⟩ ∧
        pointer k = run.state.pointer.map (· + Call.displacement (calls.take k))) ∧
    (mode = .absolute →
      (∀ call ∈ calls, ∃ p : Point, call = .moveAbsolute p.x p.y) ∧
      calls.getLast? = some (.moveAbsolute x y) ∧
      (run.state.pointer = none → ∀ call ∈ calls, call = .moveAbsolute x y) ∧
      pointer 0 = run.state.pointer ∧
      ∀ k (p : Point), calls[k]? = some (.moveAbsolute p.x p.y) → pointer (k + 1) = some p) ∧
    (∀ moves, ∃ more, (run.follow backend (moves ++ more)).isOver = true) ∧
    (∀ moves, (run.follow backend moves).outcome? ≠ none → ¬run.Asked backend moves →
      (∀ call, ⟨.dispatch, call, false⟩ ∉ (run.follow backend moves).log.drop run.log.length) →
      arrives moves) ∧
    ∀ moves outcome, (run.follow backend moves).outcome? = some outcome →
      arrives moves ∨
      ∃ k < n, (run.follow backend moves).state.pointer = pointer k ∧
        ∃ back, (∀ a ∈ back, a.purpose = .drain) ∧
          (outcome = .cancelled ∧ run.Asked backend moves ∧
              (run.follow backend moves).log =
                run.log ++ (calls.take k).map .success ++ back ∨
            outcome = .failed ∧ ∃ call, calls[k]? = some call ∧
              (run.follow backend moves).log =
                run.log ++ (calls.take k).map .success ++ ⟨.dispatch, call, false⟩ :: back) := by
  intro n calls pointer arrives
  have hn : 1 ≤ n := one_le_ceilDiv hleast run.settings.effectiveTick_pos
  have hlength : calls.length = n := by
    have hcalls := Event.calls_of_timed run.settings run.state haction hleast hmost hsum
    have h := congrArg List.length hcalls
    rwa [List.length_map, List.length_range] at h
  have hopen : run.outcome? = none := by simp [outcome?, hstage]
  have hsettled : ∀ moves outcome, (run.follow backend moves).outcome? = some outcome →
      arrives moves ∨ ∃ k < n, (run.follow backend moves).state.pointer = pointer k ∧
        ∃ back, (∀ a ∈ back, a.purpose = .drain) ∧
          (outcome = .cancelled ∧ run.Asked backend moves ∧
              (run.follow backend moves).log =
                run.log ++ (calls.take k).map .success ++ back ∨
            outcome = .failed ∧ ∃ call, calls[k]? = some call ∧
              (run.follow backend moves).log =
                run.log ++ (calls.take k).map .success ++ ⟨.dispatch, call, false⟩ :: back) := by
    intro moves outcome houtcome
    have hnonempty : calls ≠ [] := List.ne_nil_of_length_pos (by omega)
    rcases event_of_settled backend hstage hnonempty houtcome with
      ⟨earlier, hprefix, hs, hlog, hstate⟩ | ⟨k, hlt, hpointer, back, hdrain, hstopped⟩
    · rw [List.take_length] at hlog hstate
      exact .inl ⟨earlier, hprefix, hs, hlog, hstate⟩
    · refine .inr ⟨k, hlength ▸ hlt, hpointer, back, hdrain, ?_⟩
      rcases hstopped with ⟨rfl, hlog⟩ | hfailed
      · exact .inl ⟨rfl, asked_of_cancelled hopen houtcome, hlog⟩
      · exact .inr hfailed
  refine ⟨hn, hlength, ?_, ?_, ?_, ?_, hsettled⟩
  · intro hmode
    obtain ⟨hrelative, htotal, hsums⟩ :=
      Event.calls_of_timed_relative run.settings run.state haction hleast hmost hsum hmode
    refine ⟨hrelative, htotal, fun k hk => ⟨hsums k hk, ?_⟩⟩
    have htaken : ∀ call ∈ calls.take k, ∃ d : Point, call = .moveRelative d.x d.y :=
      fun call hcall => hrelative call (List.mem_of_mem_take hcall)
    exact congrArg InputState.pointer (InputState.replay_relative htaken)
  · intro hmode
    obtain ⟨habsolute, hlast, hunknown⟩ :=
      Event.calls_of_timed_absolute run.settings run.state haction hleast hmost hsum hmode
    exact ⟨habsolute, hlast, hunknown, rfl, fun k p => InputState.pointer_replay_absolute⟩
  · intro moves
    obtain ⟨m, hover⟩ := exists_nth_isOver backend id (run.follow backend moves)
    rw [nth_eq_follow, ← follow_append] at hover
    exact ⟨_, hover⟩
  · intro moves houtcome hunasked hok
    obtain ⟨outcome, houtcome⟩ := Option.ne_none_iff_exists'.mp houtcome
    rcases hsettled moves outcome houtcome with
      harrived | ⟨k, -, -, back, -, ⟨-, hasked, -⟩ | ⟨-, call, -, hlog⟩⟩
    · exact harrived
    · exact absurd hasked hunasked
    · apply absurd _ (hok call)
      rw [hlog, List.append_assoc, List.drop_left]
      exact List.mem_append_right _ (.head _)

/-- Three steps, which are all made unless the owner asks after the first one to cancel. -/
theorem glides_are_exact_in_three_steps :
    let event : Event := ⟨0, .move .relative 10 (-7) 40, 0⟩
    let run := (ofTimeline .standard [event] Rehearsal.smooth 0).step Rehearsal.backend 0
    let calls := event.calls run.settings run.state
    let whole : List Move := List.replicate 15 (.step 0)
    let cut : List Move := List.replicate 6 (.step 0) ++ [.cancel, .step 0]
    run.stage = .await ⟨none, [event]⟩ ∧ calls.length = 3 ∧
      Call.displacement calls = ⟨10, -7⟩ ∧
      Call.displacement (calls.take 1) = ⟨3, -2⟩ ∧ Call.displacement (calls.take 2) = ⟨7, -5⟩ ∧
      (run.follow Rehearsal.backend whole).outcome? = some .completed ∧
      (∃ earlier, earlier <+: whole ∧
        (run.follow Rehearsal.backend earlier).log = calls.map .success) ∧
      (run.follow Rehearsal.backend cut).outcome? = some .cancelled ∧
      (run.follow Rehearsal.backend cut).log = (calls.take 1).map .success ∧
      run.Asked Rehearsal.backend cut := by
  intro event run calls whole cut
  have hstage : run.stage = .await ⟨none, [event]⟩ := rfl
  obtain ⟨-, hlength, hrelative, -, -, -, hsettled⟩ :=
    glides_are_exact Rehearsal.backend hstage rfl (by decide) (by decide) (by decide)
  obtain ⟨-, hsum, hsums⟩ := hrelative rfl
  have hn : UInt64.toNat 40 ⌈/⌉ run.settings.effectiveTick.toNat = 3 := by
    have htick : run.settings.effectiveTick = 16 := by decide
    rw [Nat.ceilDiv_eq_add_pred_div, htick]
    decide
  rw [hn] at hlength hsums
  have hwhole : (run.follow Rehearsal.backend whole).outcome? = some .completed := by
    decide +kernel
  have hcut : (run.follow Rehearsal.backend cut).outcome? = some .cancelled := by decide +kernel
  have hone : (run.follow Rehearsal.backend cut).log = (calls.take 1).map .success := by
    decide +kernel
  refine ⟨hstage, hlength, hsum, (hsums 1 (by omega)).1.trans ?_, (hsums 2 (by omega)).1.trans ?_,
    hwhole, ?_, hcut, hone, ?_⟩
  · decide +kernel
  · decide +kernel
  · rcases hsettled whole _ hwhole with
      ⟨earlier, hprefix, -, hlog, -⟩ | ⟨-, -, -, -, -, ⟨hcancelled, -⟩ | ⟨hfailed, -⟩⟩
    · exact ⟨earlier, hprefix, hlog⟩
    · cases hcancelled
    · cases hfailed
  · rcases hsettled cut _ hcut with
      ⟨earlier, ⟨later, hlater⟩, -, hlog, -⟩ | ⟨-, -, -, -, -, ⟨-, hasked, -⟩ | ⟨hfailed, -⟩⟩
    · -- one call is less than all three
      have hfront := (run.follow Rehearsal.backend earlier).log_prefix_follow Rehearsal.backend later
      rw [← follow_append, hlater, hlog, hone] at hfront
      have hle := hfront.length_le
      change (calls.map Attempt.success).length ≤ _ at hle
      rw [List.length_map, List.length_map, List.length_take, hlength] at hle
      omega
    · exact hasked
    · cases hfailed

end Run

end TimedInput
