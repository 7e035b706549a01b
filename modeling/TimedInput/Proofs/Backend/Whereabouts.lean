import TimedInput.Backend.Printer
import TimedInput.Proofs.Playback.Glides

/-!
# Where the pointer is

A run keeps the position of the pointer in its input state, and the printer keeps one of its own.
The run takes the position over when it opens, and from then on the two are the same after every
call. So a move that takes time starts from where the printed moves before it end.
-/

namespace TimedInput

namespace Point

/-- Where a call leaves the pointer. -/
def after (p : Point) : Call → Point
  | .moveAbsolute x y => ⟨x, y⟩
  | .moveRelative dx dy => p + ⟨dx, dy⟩
  | _ => p

/-- Where calls leave the pointer, one after the other. -/
def afterAll (p : Point) (calls : List Call) : Point :=
  calls.foldl after p

end Point

theorem Printer.pointer_after (printer : Printer) (call : Call) :
    (printer.after call).pointer = printer.pointer.after call := by
  cases call <;> rfl

theorem InputState.pointer_after {s : InputState} {p : Point} (h : s.pointer = some p)
    (call : Call) : (s.after call).pointer = some (p.after call) := by
  cases call with
  | moveAbsolute x y => rfl
  | moveRelative dx dy =>
    change s.pointer.map (· + ⟨dx, dy⟩) = some (p + ⟨dx, dy⟩)
    rw [h, Option.map_some]
  | _ => exact h

/-- A printer keeps the position that the printed calls lead to. -/
theorem Backend.Led.pointer_eq {printer current : Printer} {calls : List Call}
    (h : Printer.backend.Led printer calls current) :
    current.pointer = printer.pointer.afterAll calls := by
  induction h with
  | nil => rfl
  | snoc h now call ih =>
    rw [Point.afterAll, List.foldl_append]
    exact (Printer.pointer_after _ call).trans (congrArg (Point.after · call) ih)

namespace Run

/-- The run knows the position of the pointer, and it is the position that its printer keeps. While
a call is under way the printer is ahead of the run by this call. -/
def Agrees (run : Run Printer) : Prop :=
  match run.stage with
  | .opening _ => run.log = []
  | .answer call ok _ _ =>
    ok = true ∧ (run.state.after call).pointer = some run.device.pointer
  | _ => run.state.pointer = some run.device.pointer

theorem Agrees.step {run : Run Printer} (h : run.Agrees) (now : Nat) :
    (run.step Printer.backend now).Agrees := by
  have ht := run.step_transition Printer.backend now
  generalize run.step Printer.backend now = next at ht
  unfold Agrees at h
  cases ht with
  | opened hs => rfl
  | cancelled hpolls =>
    obtain ⟨todo, hs, -⟩ := exists_of_polls hpolls
    simp only [hs] at h
    exact h
  | began hs =>
    simp only [hs] at h
    exact h
  | glided hs =>
    simp only [hs] at h
    exact h
  | exhausted hs =>
    simp only [hs] at h
    exact h
  | @called call calls next hs =>
    simp only [hs] at h
    refine ⟨rfl, ?_⟩
    change _ = some (run.device.after call).pointer
    rw [Printer.pointer_after]
    exact InputState.pointer_after h call
  | returned hs =>
    simp only [hs] at h
    exact h.2
  | failed hs =>
    simp only [hs] at h
    cases h.1
  | released hs =>
    simp only [hs] at h
    exact h.2
  | proceeded hs =>
    simp only [hs] at h
    exact h
  | published hs =>
    simp only [hs] at h
    exact h
  | settled hs =>
    simp only [Agrees, hs] at h ⊢
    exact h

variable (settings : Settings) (timeline : Timeline) (printer : Printer) (begun : Nat)

theorem agrees_follow (moves : List Move) :
    ((ofTimeline settings timeline printer begun).follow Printer.backend moves).Agrees := by
  apply follow_induction (P := Agrees)
  · intro run m h
    exact move_keeps (P := Agrees) h.step (fun asked => h) m
  · rfl

/-- A run on a printer that nothing else uses, wherever its pointer is when the run begins, and
however the run is stepped and cancelled. The printer keeps the position that the printed calls lead
to, and after every call the run knows this position. An absolute move that takes time is printed as
steps from there to its target, up to where the run is stopped, if it is. Positions are words, whose
sums wrap alike on both sides, so this holds at the edges of their range, too. -/
theorem printer_and_run_agree (moves : List Move) :
    let run := (ofTimeline settings timeline printer begun).follow Printer.backend moves
    let printed := run.log.map (·.call)
    run.Agrees ∧ run.device.pointer = printer.pointer.afterAll printed ∧
    ∀ event rest x y duration, run.stage = .await ⟨none, event :: rest⟩ →
      event.action = .move .absolute x y duration → duration ≠ 0 →
      let p := printer.pointer.afterAll printed
      let n := stepCount duration run.settings.effectiveTick
      let way := (List.range n).map
        (Glide.stepCall .absolute p (x.toInt - p.x.toInt) (y.toInt - p.y.toInt) n)
      ∀ more, ∃ k, ∃ back : List Attempt,
        (run.follow Printer.backend more).log.map (·.call) =
            printed ++ way.take k ++ back.map (·.call) ∧
          (k < n → ∀ a ∈ back, a.purpose = .drain) := by
  intro run printed
  have hagrees : run.Agrees := agrees_follow settings timeline printer begun moves
  have hpointer : run.device.pointer = printer.pointer.afterAll printed :=
    (tracked_follow Printer.backend settings timeline printer begun moves).pointer_eq
  refine ⟨hagrees, hpointer, ?_⟩
  intro event rest x y duration hstage haction hduration p n way more
  have hknown : run.state.pointer = some p := by
    simp only [Agrees, hstage] at hagrees
    rw [hagrees, hpointer]
  have hway : event.calls run.settings run.state = way := by
    rw [Event.calls_of_glide run.settings run.state haction hduration, Glide.callsOf_start?]
    simp only [MoveMode.origin, hknown, Option.getD_some]
    rfl
  have hlength : way.length = n := by rw [List.length_map, List.length_range]
  obtain ⟨k, back, hprinted, hback⟩ := exists_calls_since Printer.backend hstage more
  rw [hway] at hprinted hback
  rw [hlength] at hback
  exact ⟨k, back, hprinted, hback⟩

/-- After a move by a distance, a move in two steps starts where the first one ends. It is stopped
between its steps, and the pointer stays there. -/
theorem printer_and_run_agree_halfway :
    let event : Event := ⟨5, .move .absolute 150 43 32, 0⟩
    let timeline := [⟨0, .move .relative 10 (-7) 0, 0⟩, event]
    let printer : Printer := ⟨0, ⟨100, 50⟩⟩
    let fresh := ofTimeline .standard timeline printer 0
    let opening := List.replicate 5 (.step 0)
    let waiting := fresh.follow Printer.backend opening
    let stopped := fresh.follow Printer.backend
      (opening ++ List.replicate 6 (.step 40000000) ++ [.cancel, .step 50000000, .step 50000000])
    waiting.stage = .await ⟨none, [event]⟩ ∧
      (∀ more, ∃ k, ∃ back : List Attempt,
        (waiting.follow Printer.backend more).log.map (·.call) =
            [.moveRelative 10 (-7)] ++ [.moveAbsolute 130 43, .moveAbsolute 150 43].take k ++
              back.map (·.call) ∧
          (k < 2 → ∀ a ∈ back, a.purpose = .drain)) ∧
      stopped.log.map (·.call) = [.moveRelative 10 (-7), .moveAbsolute 130 43] ∧
      stopped.isOver = true ∧ stopped.state.pointer = some ⟨130, 43⟩ := by
  intro event timeline printer fresh opening waiting stopped
  have hstage : waiting.stage = .await ⟨none, [event]⟩ := rfl
  have hprinted : stopped.log.map (·.call) = [.moveRelative 10 (-7), .moveAbsolute 130 43] := by
    decide +kernel
  have hover : stopped.isOver = true := by decide +kernel
  refine ⟨hstage, ?_, hprinted, hover, ?_⟩
  · obtain ⟨-, -, hway⟩ := printer_and_run_agree .standard timeline printer 0 opening
    have hway := hway event [] 150 43 32 hstage rfl (by decide)
    have hbefore : (fresh.follow Printer.backend opening).log.map (·.call) =
        [.moveRelative 10 (-7)] := by
      decide +kernel
    have hp : printer.pointer.afterAll [.moveRelative 10 (-7)] = ⟨110, 43⟩ := by decide +kernel
    have hcount :
        stepCount 32 (fresh.follow Printer.backend opening).settings.effectiveTick = 2 := by
      decide +kernel
    have hsteps : (List.range 2).map (Glide.stepCall .absolute ⟨110, 43⟩ 40 0 2) =
        [.moveAbsolute 130 43, .moveAbsolute 150 43] := by
      decide +kernel
    rw [hbefore, hp, hcount] at hway
    rw [← hsteps]
    exact hway
  · obtain ⟨hagrees, hpointer, -⟩ := printer_and_run_agree .standard timeline printer 0
      (opening ++ List.replicate 6 (.step 40000000) ++ [.cancel, .step 50000000, .step 50000000])
    change stopped.Agrees at hagrees
    change stopped.device.pointer = printer.pointer.afterAll (stopped.log.map (·.call)) at hpointer
    obtain ⟨outcome, hended⟩ := exists_of_isOver hover
    simp only [Agrees, hended] at hagrees
    rw [hagrees, hpointer, hprinted]
    rfl

end Run

end TimedInput
