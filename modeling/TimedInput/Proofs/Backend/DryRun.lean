import TimedInput.Backend.Printer
import TimedInput.Proofs.Playback.Chronicle
import TimedInput.Proofs.Playback.HeldInput
import TimedInput.Proofs.Playback.Pace
import TimedInput.Proofs.Playback.Undisturbed

/-!
# Dry runs

A run on the printer. Its calls succeed at once, so it comes to its end, and what is in its
history is on paper. Whenever it has nothing to do it waits, so a request to cancel is noticed
at the instant at which it is made.
-/

namespace TimedInput

namespace Printer

/-- The answer to a call by a printer made at the given instant. -/
def reply (made now : Nat) (call : Call) : Reply :=
  { Reply.plain true with printed := (Printer.new made).line now call }

theorem perform_eq (now : Nat) (call : Call) (printer : Printer) :
    (backend.perform now call printer).1 = reply printer.made now call :=
  rfl

theorem passive_backend : backend.passive = backend :=
  rfl

@[simp] theorem made_perform (now : Nat) (call : Call) (printer : Printer) :
    (backend.perform now call printer).2.made = printer.made := by
  cases call <;> rfl

end Printer

/-- The entry is of a run whose printer was made at the given instant. -/
def Entry.IsPrinted (made : Nat) : Entry → Prop
  | .began _ _ => True
  | .called now _ call reply => reply = Printer.reply made now call
  | .stuck _ _ => False

namespace Run

/-- A run on a printer after some steps, none of them later than the clock. -/
structure Printing (made clock : Nat) (run : Run Printer) : Prop where
  device : run.device.made = made
  free : run.free ≤ clock
  outcome : run.outcome? ≠ some .failed
  answer : ∀ call calls next, run.stage ≠ .answer call false calls next
  entries : ∀ e ∈ run.history, e.IsPrinted made

variable {made clock now : Nat} {run : Run Printer}

theorem printing_ofTimeline (settings : Settings) (timeline : Timeline) (begun : Nat) :
    (ofTimeline settings timeline (Printer.new made) begun).Printing made begun :=
  ⟨rfl, Nat.le_refl begun, nofun, fun _ _ _ => nofun, nofun⟩

theorem Printing.drain (h : run.Printing made clock) {outcome : Outcome}
    (hne : outcome ≠ .failed) : (run.drain outcome).Printing made clock := by
  refine ⟨h.device, h.free, ?_, fun _ _ _ => nofun, h.entries⟩
  intro heq
  exact hne (Option.some.inj heq)

theorem Printing.step (h : run.Printing made clock) (hle : clock ≤ now) :
    (run.step Printer.backend now).Printing made now := by
  obtain ⟨hmade, hfree, houtcome, hanswer, hentries⟩ := h
  have hfree' : run.free ≤ now := Nat.le_trans hfree hle
  have ht := run.step_transition Printer.backend now
  generalize run.step Printer.backend now = next at ht
  unfold outcome? at houtcome
  cases ht with
  | opened => exact ⟨hmade, hfree', nofun, fun _ _ _ => nofun, hentries⟩
  | cancelled => exact Printing.drain ⟨hmade, hfree', houtcome, hanswer, hentries⟩ nofun
  | began =>
    refine ⟨hmade, hfree', nofun, fun _ _ _ => nofun, ?_⟩
    intro e he
    rcases List.mem_cons.mp he with rfl | he
    · trivial
    · exact hentries e he
  | glided => exact ⟨hmade, hfree', nofun, fun _ _ _ => nofun, hentries⟩
  | exhausted => exact Printing.drain ⟨hmade, hfree', houtcome, hanswer, hentries⟩ nofun
  | @called call calls next hs =>
    rw [hs] at houtcome
    refine ⟨?_, Nat.le_refl now, ?_, ?_, ?_⟩
    · rw [← hmade]
      exact Printer.made_perform now call run.device
    · cases next with
      | proceed todo => nofun
      | finish outcome => exact houtcome
    · intro call' calls' next' heq
      cases (Stage.answer.inj heq).2.1
    · intro e he
      rcases List.mem_cons.mp he with rfl | he
      · change (Printer.backend.perform now call run.device).1 = _
        rw [Printer.perform_eq, hmade]
      · exact hentries e he
  | returned => exact ⟨hmade, hfree', nofun, fun _ _ _ => nofun, hentries⟩
  | failed hs => exact absurd hs (hanswer _ _ _)
  | @released call ok calls outcome hs =>
    rw [hs] at houtcome
    cases ok with
    | false => exact absurd hs (hanswer _ _ _)
    | true => exact ⟨hmade, hfree', houtcome, fun _ _ _ => nofun, hentries⟩
  | proceeded => exact ⟨hmade, hfree', nofun, fun _ _ _ => nofun, hentries⟩
  | published hs =>
    rw [hs] at houtcome
    exact ⟨hmade, hfree', houtcome, fun _ _ _ => nofun, hentries⟩
  | settled => exact ⟨hmade, hfree', houtcome, hanswer, hentries⟩

theorem Unasked.playUntil (h : run.Unasked) (deadline : Option Nat) (clock : Nat) :
    (run.playUntil Printer.backend deadline clock).2.Unasked := by
  apply run.playUntil_induction Printer.backend (P := fun _ run => run.Unasked) _ deadline h
  intro _ now run _ _ h
  rw [← Printer.passive_backend]
  exact h.step now

/-- Nothing but a request to cancel keeps a run on a printer from being complete. -/
theorem Printing.completed (h : run.Printing made clock) (hunasked : run.Unasked)
    (hover : run.isOver = true) : run.stage = .ended .completed := by
  obtain ⟨outcome, hs⟩ := exists_of_isOver hover
  have hfailed := h.outcome
  have hcancelled := hunasked.2
  unfold outcome? at hfailed hcancelled
  rw [hs] at hfailed hcancelled
  cases outcome with
  | completed => exact hs
  | cancelled => exact absurd rfl hcancelled
  | failed => exact absurd rfl hfailed

/-- A run on a printer that has nothing to do waits for something. -/
theorem Printing.polls (h : run.Printing made clock) {pause : Nat} (hle : clock ≤ pause)
    (hlate : pause < max clock run.ready) : run.polls = true := by
  have hfree := h.free
  unfold ready awaited? at hlate
  unfold Run.polls
  cases hs : run.stage with
  | await todo =>
    obtain ⟨glide, rest⟩ := todo
    cases glide with
    | some glide => rfl
    | none =>
      cases rest with
      | nil =>
        simp only [hs] at hlate
        omega
      | cons event rest => rfl
  | _ =>
    simp only [hs] at hlate
    omega

/-- The calls at the end of a run are made and printed at once. -/
theorem playUntil_finish {calls : List Call} {outcome : Outcome}
    (hs : run.stage = .issue calls (.finish outcome)) (hmade : run.device.made = made)
    (hfree : run.free ≤ now) :
    ∃ last, run.playUntil Printer.backend none now = (now, last) ∧ last.stage = .ended outcome ∧
      last.history =
        (calls.map fun call => .called now .drain call (Printer.reply made now call)).reverse ++
          run.history := by
  induction calls generalizing run with
  | nil =>
    have hover : run.isOver = false := by simp [isOver, Stage.isOver, hs]
    have hready : run.ready ≤ now := by simpa [ready, awaited?, hs] using hfree
    have hstep : run.step Printer.backend now = { run with stage := .ended outcome } := by
      simp [step, hs]
    refine ⟨{ run with stage := .ended outcome }, ?_, rfl, rfl⟩
    rw [playUntil_of_ready _ hover hready (by simp), hstep, playUntil_of_isOver _ _ _ rfl]
  | cons call calls ih =>
    let begun := run.beginCall Printer.backend now call calls (.finish outcome)
    let next := begun.finishCall now call true calls (.finish outcome)
    have hover : run.isOver = false := by simp [isOver, Stage.isOver, hs]
    have hready : run.ready ≤ now := by simpa [ready, awaited?, hs] using hfree
    have hbegun : run.step Printer.backend now = begun := by simp [step, hs, begun]
    have hnext : begun.step Printer.backend now = next := rfl
    have hstage : next.stage = .issue calls (.finish outcome) := rfl
    have hmade' : next.device.made = made := by
      rw [← hmade]
      exact Printer.made_perform now call run.device
    obtain ⟨last, hplayed, hended, hhistory⟩ := ih hstage hmade' (Nat.le_refl now)
    refine ⟨last, ?_, hended, ?_⟩
    · rw [playUntil_of_ready _ hover hready (by simp), hbegun,
        playUntil_of_ready _ rfl (Nat.le_refl now) (by simp), hnext, hplayed]
    · have hadded : next.history =
          .called now .drain call (Printer.reply made now call) :: run.history := by
        rw [← hmade]
        rfl
      rw [hhistory, hadded]
      simp

/-- A request to cancel is noticed at once by a run that waits, and takes no time. -/
theorem Printing.playUntil_cancelled (h : run.Printing made clock) (hle : clock ≤ now)
    (hpolls : run.polls = true) :
    ∃ last, run.requestCancel.playUntil Printer.backend none now = (now, last) ∧
      last.stage = .ended .cancelled ∧
      last.history =
        (run.state.releases.map fun call =>
          .called now .drain call (Printer.reply made now call)).reverse ++ run.history := by
  let asked : Run Printer := { run with cancelRequested := true }
  have hasked : asked.polls = true := hpolls
  have hover : asked.isOver = false := isOver_of_polls hasked
  have hfree : asked.free ≤ now := Nat.le_trans h.free hle
  have hready : asked.ready ≤ now := by
    unfold ready
    split
    · exact hfree
    · exact hfree
  rw [requestCancel, if_neg (by simp [isOver_of_polls hpolls])]
  change ∃ last, asked.playUntil Printer.backend none now = (now, last) ∧ _
  rw [playUntil_of_ready _ hover hready (by simp), step_of_polls hasked rfl]
  exact playUntil_finish rfl h.device hfree

/-- What is on paper of a run, and where the run stands. -/
structure OnPaper (made clock : Nat) (run : Run Printer) : Prop where
  phase : run.Phase Printer.backend ⟨[], [], some .origin⟩
  printing : run.Printing made clock
  dated : run.Dated clock

theorem onPaper_ofTimeline (settings : Settings) (timeline : Timeline) (begun : Nat) :
    (ofTimeline settings timeline (Printer.new made) begun).OnPaper made begun :=
  ⟨.inl ⟨rfl, rfl, rfl⟩, printing_ofTimeline settings timeline begun, .nil, nofun⟩

theorem OnPaper.step (h : run.OnPaper made clock) (hle : clock ≤ now) :
    (run.step Printer.backend now).OnPaper made now :=
  ⟨h.phase.move (InputState.ordered_empty _) (.step now), h.printing.step hle, h.dated.step hle⟩

theorem OnPaper.playUntil (h : run.OnPaper made clock) (deadline : Option Nat) :
    (run.playUntil Printer.backend deadline clock).2.OnPaper made
      (run.playUntil Printer.backend deadline clock).1 :=
  run.playUntil_induction Printer.backend (fun _ _ _ hle _ h => h.step hle) deadline h

theorem OnPaper.later (h : run.OnPaper made clock) (hle : clock ≤ now) : run.OnPaper made now := by
  obtain ⟨hphase, hprinting, hdated⟩ := h
  refine ⟨hphase, { hprinting with free := Nat.le_trans hprinting.free hle }, hdated.ordered, ?_⟩
  exact fun e he => Nat.le_trans (hdated.past e he) hle

theorem OnPaper.requestCancel (h : run.OnPaper made clock) :
    run.requestCancel.OnPaper made clock := by
  have hphase := h.phase.move (InputState.ordered_empty _) .cancel
  change run.requestCancel.Phase _ _ at hphase
  unfold Run.requestCancel at *
  split
  · exact h
  · rename_i hover
    rw [if_neg hover] at hphase
    obtain ⟨hdevice, hfree, houtcome, hanswer, hentries⟩ := h.printing
    exact ⟨hphase, ⟨hdevice, hfree, houtcome, hanswer, hentries⟩, h.dated.ordered, h.dated.past⟩

/-- What was pressed on paper is released on paper. -/
theorem OnPaper.exists_release (h : run.OnPaper made clock) (hover : run.isOver = true)
    {sw : Switch} {before after : List Entry} {purpose : Purpose} {reply : Reply}
    (hpress : run.history.reverse = before ++ .called now purpose (sw.call .down) reply :: after) :
    ∃ later purpose reply, .called later purpose (sw.call .up) reply ∈ after ∧ now ≤ later := by
  have hmem : .called now purpose (sw.call .down) reply ∈ run.history := by
    rw [← List.mem_reverse, hpress]
    exact List.mem_append_right before List.mem_cons_self
  have hok : reply.ok = true := by
    rw [h.printing.entries _ hmem]
    rfl
  have hlog : run.log = before.filterMap Entry.attempt? ++
      ⟨purpose, sw.call .down, true⟩ :: after.filterMap Entry.attempt? := by
    simp only [log, attempts, hpress, List.filterMap_append, List.filterMap_cons, Entry.attempt?,
      hok]
  obtain ⟨-, front, back, heq, -, hdrain, hback⟩ := h.phase.of_over hover
  obtain ⟨hups, -⟩ := ups_of_down (InputState.ordered_empty _) (sw.position_empty _) hdrain hback
    (heq.symm.trans hlog)
  obtain ⟨a, ha⟩ := List.exists_mem_of_ne_nil _ hups
  obtain ⟨ha, hcall⟩ := List.mem_filter.mp ha
  obtain ⟨e, he, hattempt⟩ := List.mem_filterMap.mp ha
  have hordered := List.pairwise_reverse.mpr h.dated.ordered
  rw [hpress] at hordered
  cases e with
  | called later purpose' call reply' =>
    obtain rfl := Option.some.inj hattempt
    obtain rfl : call = sw.call .up := of_decide_eq_true hcall
    refine ⟨later, purpose', reply', he, ?_⟩
    exact (List.pairwise_cons.mp (List.pairwise_append.mp hordered).2.1).1 _ he
  | _ => cases hattempt

end Run

/-- An instant that a dry run does not reach, in nanoseconds. -/
def horizon : Nat :=
  2 ^ 86

theorem ofMilliseconds_le (ms : UInt64) : Instant.ofMilliseconds ms.toNat ≤ 2 ^ 84 := by
  have := ms.toNat_lt
  unfold Instant.ofMilliseconds
  omega

namespace Glide

/-- No step is due after the horizon. -/
def IsNear (glide : Glide) : Prop :=
  ∀ i ≤ glide.count, glide.due + stepOffset glide.count glide.duration i ≤ horizon

theorem IsNear.instant_le {glide : Glide} (h : glide.IsNear) : glide.instant ≤ horizon :=
  h (glide.taken + 1) glide.taken_lt

theorem IsNear.next {glide next : Glide} (h : glide.IsNear) (hnext : glide.next? = some next) :
    next.IsNear := by
  unfold next? at hnext
  split at hnext
  · cases hnext
    exact h
  · cases hnext

theorem isNear_of_start? {mode : MoveMode} {target : Point} {pointer : Option Point}
    {duration tick : UInt64} {due : Nat} {glide : Glide}
    (h : start? mode target pointer duration tick due = some glide) (hdue : due ≤ 2 ^ 84) :
    glide.IsNear := by
  by_cases hpos : 0 < stepCount duration tick
  · simp only [start?, dif_pos hpos, Option.some.injEq] at h
    subst h
    intro i hi
    have hoffset : stepOffset (stepCount duration tick) duration i ≤
        2 * (duration.toNat * 1000000) + 1 := stepOffset_le hpos hi
    have hduration := ofMilliseconds_le duration
    unfold Instant.ofMilliseconds at hduration
    change due + stepOffset (stepCount duration tick) duration i ≤ 2 ^ 86
    omega
  · simp only [start?, dif_neg hpos] at h
    cases h

end Glide

namespace Run

variable {clock : Nat} {run : Run Printer}

/-- What the run goes on with when its calls have come back. -/
def todo? (run : Run Printer) : Option Todo :=
  match run.stage with
  | .await todo | .issue _ (.proceed todo) | .answer _ _ _ (.proceed todo) => some todo
  | _ => none

/-- The run does not pass the horizon. -/
structure Near (clock : Nat) (run : Run Printer) : Prop where
  clock_le : clock ≤ horizon
  free_le : run.free ≤ horizon
  start_eq : run.start = 0
  opening : ∀ timeline, run.stage = .opening timeline → max clock run.free = 0
  glide : ∀ todo, run.todo? = some todo → ∀ g, todo.glide = some g → g.IsNear

theorem near_ofTimeline (settings : Settings) (timeline : Timeline) (printer : Printer) :
    (ofTimeline settings timeline printer 0).Near 0 :=
  ⟨Nat.zero_le _, Nat.zero_le _, rfl, fun _ _ => rfl, nofun⟩

theorem isNear_of_dispatch (hstart : run.start = 0) {event : Event} {glide : Glide}
    (h : (run.dispatch event).2 = some glide) : glide.IsNear := by
  unfold dispatch at h
  cases haction : event.action with
  | move mode x y duration =>
    simp only [haction] at h
    split at h
    · cases mode <;> cases h
    · apply Glide.isNear_of_start? h
      rw [hstart, Nat.zero_add]
      exact ofMilliseconds_le event.time
  | button press number => cases press <;> simp [haction] at h
  | key press code => cases press <;> simp [haction] at h
  | _ => simp [haction] at h

theorem Near.ready_le (h : run.Near clock) : run.ready ≤ horizon := by
  have hawaited : ∀ instant, run.awaited? = some instant → instant ≤ horizon := by
    intro instant hinstant
    unfold awaited? at hinstant
    split at hinstant
    · rename_i glide rest hs
      cases hinstant
      exact (h.glide ⟨some glide, rest⟩ (by rw [todo?, hs]) glide rfl).instant_le
    · rename_i event rest hs
      cases hinstant
      have htime := ofMilliseconds_le event.time
      rw [h.start_eq, horizon]
      omega
    · cases hinstant
  unfold ready
  split
  · rename_i instant hinstant
    split
    · exact h.free_le
    · exact Nat.max_le.mpr ⟨h.free_le, hawaited instant hinstant⟩
  · exact h.free_le

theorem Near.step (h : run.Near clock) :
    (run.step Printer.backend (max clock run.ready)).Near (max clock run.ready) := by
  have hnow : max clock run.ready ≤ horizon := Nat.max_le.mpr ⟨h.clock_le, h.ready_le⟩
  obtain ⟨-, hfree, hstart, hopening, hglide⟩ := h
  have hready : run.awaited? = none → run.ready = run.free := by
    intro hnone
    rw [ready, hnone]
  generalize hmax : max clock run.ready = now at hnow
  have ht := run.step_transition Printer.backend now
  generalize run.step Printer.backend now = next at ht
  unfold todo? at hglide
  cases ht with
  | @opened timeline hs =>
    have hzero : now = 0 := by
      rw [← hmax, hready (by rw [awaited?, hs])]
      exact hopening timeline hs
    refine ⟨hnow, hfree, hzero, nofun, ?_⟩
    intro todo htodo
    cases htodo
    exact nofun
  | cancelled => exact ⟨hnow, hfree, hstart, nofun, nofun⟩
  | began =>
    refine ⟨hnow, hfree, hstart, nofun, ?_⟩
    intro todo htodo
    cases htodo
    exact fun g hg => isNear_of_dispatch hstart hg
  | @glided glide rest hs =>
    rw [hs] at hglide
    refine ⟨hnow, hfree, hstart, nofun, ?_⟩
    intro todo htodo
    cases htodo
    exact fun g hg => (hglide _ rfl glide rfl).next hg
  | exhausted => exact ⟨hnow, hfree, hstart, nofun, nofun⟩
  | @called call calls next hs =>
    rw [hs] at hglide
    refine ⟨hnow, hnow, hstart, nofun, ?_⟩
    cases next with
    | proceed todo => exact hglide
    | finish outcome => exact nofun
  | returned hs =>
    rw [hs] at hglide
    exact ⟨hnow, hfree, hstart, nofun, hglide⟩
  | failed => exact ⟨hnow, hfree, hstart, nofun, nofun⟩
  | released => exact ⟨hnow, hfree, hstart, nofun, nofun⟩
  | proceeded hs =>
    rw [hs] at hglide
    exact ⟨hnow, hfree, hstart, nofun, hglide⟩
  | published => exact ⟨hnow, hfree, hstart, nofun, nofun⟩
  | settled hs =>
    refine ⟨hnow, hfree, hstart, ?_, hglide⟩
    intro timeline hopen
    cases hs.symm.trans hopen

/-- Whatever its times are, a dry run of a script does not pass the horizon. -/
theorem playUntil_le_horizon (settings : Settings) (timeline : Timeline) (printer : Printer)
    (deadline : Option Nat) :
    ((ofTimeline settings timeline printer 0).playUntil Printer.backend deadline 0).1 ≤ horizon :=
  (playUntil_induction_ready Printer.backend (fun _ _ h => h.step) deadline
    (near_ofTimeline settings timeline printer)).clock_le

end Run

end TimedInput
