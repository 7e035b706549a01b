import Mathlib.Order.Bounds.Basic
import TimedInput.Proofs.Playback.Course
import TimedInput.Proofs.Playback.Pace
import TimedInput.Proofs.Playback.Slices

/-!
# Punctuality

On a clock that passes no time but by calls and by waits, an event begins when it is due, or at
once when it is late by then, and so does every step of a glide. What has made a run late
once does not count any more when it has been waiting for something since.
-/

namespace TimedInput

variable {σ : Type}

namespace Entry

/-- The instant at which what happened is over. -/
def finish : Entry → Nat
  | .began instant _ | .stuck instant _ => instant
  | .called instant _ _ reply => instant + reply.cost

end Entry

/-- The instant at which all that has happened is over. -/
def finished (start : Nat) (entries : List Entry) : Nat :=
  (entries.getLast?.map Entry.finish).getD start

@[simp] theorem finished_snoc (start : Nat) (entries : List Entry) (e : Entry) :
    finished start (entries ++ [e]) = e.finish := by
  simp [finished]

/-- The event under way, and how many of its calls were begun. -/
def current? (entries : List Entry) : Option (Event × Nat) :=
  entries.foldl
    (fun current e =>
      match e with
      | .began _ event => some (event, 0)
      | .called _ .dispatch _ _ => current.map fun (event, i) => (event, i + 1)
      | _ => none)
    none

theorem current?_snoc_began (entries : List Entry) (instant : Nat) (event : Event) :
    current? (entries ++ [.began instant event]) = some (event, 0) := by
  simp [current?]

theorem current?_snoc_called {entries : List Entry} {event : Event} {i : Nat}
    (h : current? entries = some (event, i)) (instant : Nat) (call : Call) (reply : Reply) :
    current? (entries ++ [.called instant .dispatch call reply]) = some (event, i + 1) := by
  unfold current? at *
  rw [List.foldl_append, h]
  rfl

namespace Event

def due (event : Event) (start : Nat) : Nat :=
  start + Instant.ofMilliseconds event.time.toNat

/-- The instant that the call with the given number waits for: that of the event itself, or for a
move that takes time that of the next step. -/
def scheduled (settings : Settings) (start : Nat) (event : Event) (i : Nat) : Nat :=
  match event.action with
  | .move _ _ _ duration =>
    if duration = 0 then event.due start
    else
      event.due start +
        stepOffset (stepCount duration settings.effectiveTick) duration (i + 1)
  | _ => event.due start

end Event

def Glide.Follows (settings : Settings) (start : Nat) (event : Event) (glide : Glide) : Prop :=
  ∀ i, event.scheduled settings start i =
    glide.due + stepOffset glide.count glide.duration (i + 1)

theorem Glide.of_next? {glide next : Glide} (h : glide.next? = some next) :
    next.taken = glide.taken + 1 ∧ ∀ i, glide.due + stepOffset glide.count glide.duration (i + 1) =
      next.due + stepOffset next.count next.duration (i + 1) := by
  unfold next? at h
  split at h
  · cases h
    exact ⟨rfl, fun _ => rfl⟩
  · cases h

/-- It happened neither before it was due nor later than it could. -/
def Entry.Timely (settings : Settings) (start : Nat) (before : List Entry) : Entry → Prop
  | .began instant event =>
    (before = [] ∨ current? before ≠ none) ∧ instant = max (event.due start) (finished start before)
  | .called instant .dispatch _ _ =>
    ∃ event i, current? before = some (event, i) ∧
      instant = max (event.scheduled settings start i) (finished start before)
  | _ => True

/-- The calls, and then the steps of the glide, are what is left of the event under way, and the
calls are due. -/
structure Engaged (settings : Settings) (start : Nat) (entries : List Entry) (clock : Nat)
    (calls : List Call) (glide : Option Glide) (event : Event) (i : Nat) : Prop where
  current : current? entries = some (event, i)
  reached : ∀ j < calls.length, event.scheduled settings start (i + j) ≤ clock
  follows : ∀ g, glide = some g → g.taken = i + calls.length ∧ g.Follows settings start event

namespace Run

theorem scheduled_of_dispatch_ne_nil (run : Run σ) {event : Event}
    (h : (run.dispatch event).1 ≠ []) (i : Nat) :
    event.scheduled run.settings run.start i = event.due run.start := by
  unfold Event.scheduled
  cases haction : event.action with
  | move mode x y duration =>
    by_cases hduration : duration = 0
    · exact if_pos hduration
    · simp [dispatch, haction, hduration] at h
  | _ => rfl

theorem follows_of_dispatch (run : Run σ) {event : Event} {glide : Glide}
    (h : (run.dispatch event).2 = some glide) :
    (run.dispatch event).1 = [] ∧ glide.taken = 0 ∧
      glide.Follows run.settings run.start event := by
  unfold dispatch at *
  cases haction : event.action with
  | move mode x y duration =>
    by_cases hduration : duration = 0
    · cases mode <;> simp [haction, hduration] at h
    · simp only [haction, hduration, if_false, Glide.start?] at h ⊢
      split at h
      · cases h
        refine ⟨trivial, rfl, ?_⟩
        intro i
        simp [Event.scheduled, haction, hduration, Event.due]
      · cases h
  | button press number => cases press <;> simp [haction] at h
  | key press code => cases press <;> simp [haction] at h
  | _ => simp [haction] at h

/-- What the clock of a run shows when the run can go on without a wait. -/
def Standing (settings : Settings) (start clock : Nat) (run : Run σ) : Prop :=
  let entries := run.history.reverse
  let busy := max clock run.free
  match run.stage with
  | .opening _ => run.history = [] ∧ busy = start
  | .await todo =>
    (entries = [] ∨ current? entries ≠ none) ∧ busy = finished start entries ∧
      ∀ g, todo.glide = some g →
        ∃ event, current? entries = some (event, g.taken) ∧ g.Follows settings start event
  | .issue calls (.proceed todo) =>
    ∃ event i, Engaged settings start entries busy calls todo.glide event i ∧
      busy =
        if calls = [] then finished start entries
        else max (event.scheduled settings start i) (finished start entries)
  | .answer _ _ calls (.proceed todo) =>
    busy = finished start entries ∧
      ∃ event i, Engaged settings start entries busy calls todo.glide event i
  | _ => True

/-- Everything that the run has done was timely, and so will be what it does next. -/
structure Punctual (settings : Settings) (start clock : Nat) (run : Run σ) : Prop where
  settings_eq : run.settings = settings
  unasked : run.cancelRequested = false
  start_eq : run.start = start
  timely : ∀ before e after, run.history.reverse = before ++ e :: after →
    e.Timely settings start before
  standing : run.Standing settings start clock

variable {settings : Settings} {start clock : Nat} {run : Run σ}

theorem standing_issue (event : Event) (i : Nat) {calls : List Call} {glide : Option Glide}
    {rest : Timeline} (hstage : run.stage = .issue calls (.proceed ⟨glide, rest⟩))
    (hbusy : max clock run.free = finished start run.history.reverse)
    (h : Engaged settings start run.history.reverse (max clock run.free) calls glide event i) :
    run.Standing settings start clock := by
  unfold Standing
  simp only [hstage]
  refine ⟨event, i, h, ?_⟩
  split
  · exact hbusy
  · rename_i hne
    have hreached := h.reached 0 (List.length_pos_iff.mpr hne)
    rw [hbusy] at hreached ⊢
    exact (Nat.max_eq_right hreached).symm

namespace Punctual

variable (h : run.Punctual settings start clock)
include h

theorem began {event : Event} {rest : Timeline} (hs : run.stage = .await ⟨none, event :: rest⟩) :
    Punctual settings start (max clock run.ready)
      { run with
        stage := .issue (run.dispatch event).1 (.proceed ⟨(run.dispatch event).2, rest⟩)
        history := .began (max clock run.ready) event :: run.history } := by
  obtain ⟨hsettings, hunasked, hstart, htimely, hstanding⟩ := h
  simp only [Standing, hs] at hstanding
  obtain ⟨hcurrent, hbusy, -⟩ := hstanding
  have hready : run.ready = max run.free (event.due start) := by
    rw [ready, awaited?, hs, ← hstart]
    simp [hunasked, Event.due]
  generalize hnow : max clock run.ready = now
  have htime : now = max (event.due start) (finished start run.history.reverse) := by
    rw [← hnow, hready, ← hbusy]
    omega
  have hdue : event.due start ≤ now := htime ▸ Nat.le_max_left ..
  have hfree : max now run.free = now := by omega
  refine ⟨hsettings, hunasked, hstart, ?_, ?_⟩
  · rw [List.reverse_cons]
    exact forall_split_snoc htimely ⟨hcurrent, htime⟩
  apply standing_issue event 0 rfl
  · rw [List.reverse_cons, finished_snoc]
    exact hfree
  refine ⟨?_, ?_, ?_⟩
  · rw [List.reverse_cons]
    exact current?_snoc_began ..
  · intro j hj
    have hne : (run.dispatch event).1 ≠ [] := List.ne_nil_of_length_pos (by omega)
    rw [← hsettings, ← hstart, run.scheduled_of_dispatch_ne_nil hne, hstart]
    exact hdue.trans (Nat.le_max_left ..)
  · intro glide hglide
    obtain ⟨hnil, htaken, hfollows⟩ := run.follows_of_dispatch hglide
    rw [hnil, htaken, ← hsettings, ← hstart]
    exact ⟨rfl, hfollows⟩

/-- A step of a glide is due by the time of its event, not by when that has begun. -/
theorem glided {glide : Glide} {rest : Timeline} (hs : run.stage = .await ⟨some glide, rest⟩) :
    Punctual settings start (max clock run.ready)
      { run with stage := .issue [glide.call] (.proceed ⟨glide.next?, rest⟩) } := by
  obtain ⟨hsettings, hunasked, hstart, htimely, hstanding⟩ := h
  simp only [Standing, hs] at hstanding
  obtain ⟨-, hbusy, hglide⟩ := hstanding
  obtain ⟨event, hcurrent, hfollows⟩ := hglide glide rfl
  have hready : run.ready = max run.free (event.scheduled settings start glide.taken) := by
    rw [ready, awaited?, hs, hfollows]
    simp [hunasked, Glide.instant]
  generalize hnow : max clock run.ready = now
  have htime : now =
      max (event.scheduled settings start glide.taken) (finished start run.history.reverse) := by
    rw [← hnow, hready, ← hbusy]
    omega
  have hfree : max now run.free = now := by omega
  refine ⟨hsettings, hunasked, hstart, htimely, event, glide.taken, ⟨hcurrent, ?_, ?_⟩, ?_⟩
  · intro j hj
    obtain rfl : j = 0 := Nat.lt_one_iff.mp hj
    change _ ≤ max now run.free
    rw [hfree, htime]
    exact Nat.le_max_left ..
  · intro next hnext
    obtain ⟨htaken, hsame⟩ := Glide.of_next? hnext
    refine ⟨htaken, ?_⟩
    intro i
    rw [hfollows i, hsame]
  · exact hfree.trans htime

theorem called {call : Call} {calls : List Call} {next : Next}
    (hs : run.stage = .issue (call :: calls) next) (backend : Backend σ) :
    (run.beginCall backend.passive (max clock run.ready) call calls next).Punctual settings start
      (max clock run.ready) := by
  obtain ⟨hsettings, hunasked, hstart, htimely, hstanding⟩ := h
  have hready : run.ready = run.free := by rw [ready, awaited?, hs]
  have hasked : (run.beginCall backend.passive (max clock run.ready) call calls
      next).cancelRequested = false := by
    simp [beginCall, Backend.passive, hunasked]
  rw [hready] at hasked ⊢
  generalize hnow : max clock run.free = now at hasked ⊢
  let reply := (backend.passive.perform now call run.device).1
  have hentries : (run.beginCall backend.passive now call calls next).history.reverse =
      run.history.reverse ++ [.called now next.purpose call reply] := List.reverse_cons
  cases next with
  | finish outcome =>
    refine ⟨hsettings, hasked, hstart, ?_, trivial⟩
    rw [hentries]
    exact forall_split_snoc htimely trivial
  | proceed todo =>
    simp only [Standing, hs] at hstanding
    obtain ⟨event, i, ⟨hcurrent, hreached, hfollows⟩, hclock⟩ := hstanding
    rw [if_neg (List.cons_ne_nil call calls), hnow] at hclock
    rw [hnow] at hreached
    refine ⟨hsettings, hasked, hstart, ?_, ?_, event, i + 1, ?_, ?_, ?_⟩
    · rw [hentries]
      exact forall_split_snoc htimely ⟨event, i, hcurrent, hclock⟩
    · rw [hentries, finished_snoc]
      exact Nat.max_eq_right (Nat.le_add_right now reply.cost)
    · rw [hentries]
      exact current?_snoc_called hcurrent ..
    · intro j hj
      have hnext := hreached (j + 1) (Nat.succ_lt_succ hj)
      rw [Nat.add_right_comm, Nat.add_assoc]
      exact hnext.trans (Nat.le_max_left ..)
    · intro glide hglide
      obtain ⟨htaken, hsame⟩ := hfollows glide hglide
      refine ⟨htaken.trans ?_, hsame⟩
      rw [List.length_cons]
      omega

theorem step (backend : Backend σ) :
    (run.step backend.passive (max clock run.ready)).Punctual settings start
      (max clock run.ready) := by
  have ht := run.step_transition backend.passive (max clock run.ready)
  generalize run.step backend.passive (max clock run.ready) = next at ht
  have hinstant : run.awaited? = none →
      max clock run.free = max (max clock run.ready) run.free := by
    intro hnone
    have hready : run.ready = run.free := by rw [ready, hnone]
    rw [hready]
    omega
  have ⟨hsettings, hunasked, hstart, htimely, hstanding⟩ := h
  unfold Standing at hstanding
  cases ht with
  | opened hs =>
    simp only [hs] at hstanding
    obtain ⟨hhistory, hbusy⟩ := hstanding
    have hready : run.ready = run.free := by rw [ready, awaited?, hs]
    have hfree : run.free ≤ start := hbusy ▸ Nat.le_max_right ..
    rw [hready, hbusy]
    refine ⟨hsettings, hunasked, rfl, htimely, ?_⟩
    rw [Standing, hhistory]
    exact ⟨.inl rfl, Nat.max_eq_left hfree, nofun⟩
  | cancelled hpolls hcancel =>
    rw [hunasked] at hcancel
    cases hcancel
  | began hs => exact h.began hs
  | glided hs => exact h.glided hs
  | called hs => exact h.called hs backend
  | @returned call calls todo hs =>
    simp only [hs] at hstanding
    obtain ⟨hbusy, event, i, hcurrent, hreached, hfollows⟩ := hstanding
    rw [hinstant (by rw [awaited?, hs])] at hbusy hreached
    refine ⟨hsettings, hunasked, hstart, htimely, ?_⟩
    exact standing_issue event i rfl hbusy ⟨hcurrent, hreached, hfollows⟩
  | @released call ok calls outcome hs =>
    refine ⟨hsettings, hunasked, hstart, ?_, trivial⟩
    cases ok with
    | true => exact htimely
    | false =>
      change ∀ before e after, (Entry.stuck _ call :: run.history).reverse = _ → _
      rw [List.reverse_cons]
      exact forall_split_snoc htimely trivial
  | @proceeded todo hs =>
    simp only [hs] at hstanding
    obtain ⟨event, i, ⟨hcurrent, -, hfollows⟩, hbusy⟩ := hstanding
    rw [if_pos trivial, hinstant (by rw [awaited?, hs])] at hbusy
    refine ⟨hsettings, hunasked, hstart, htimely, .inr ?_, hbusy, ?_⟩
    · change current? run.history.reverse ≠ none
      simp [hcurrent]
    · intro glide hglide
      obtain ⟨htaken, hsame⟩ := hfollows glide hglide
      refine ⟨event, ?_, hsame⟩
      rw [htaken]
      exact hcurrent
  | settled hs =>
    refine ⟨hsettings, hunasked, hstart, htimely, ?_⟩
    simp only [Standing, hs]
  | _ => exact ⟨hsettings, hunasked, hstart, htimely, trivial⟩

end Punctual

def Charged (cost : Nat) (run : Run σ) : Prop :=
  ∀ instant purpose call reply, .called instant purpose call reply ∈ run.history →
    reply.cost = cost

theorem Charged.step {cost : Nat} (h : run.Charged cost) {backend : Backend σ} {now : Nat}
    (hcost : ∀ call, (backend.perform now call run.device).1.cost = cost) :
    (run.step backend now).Charged cost := by
  have ht := run.step_transition backend now
  generalize run.step backend now = next at ht
  intro instant purpose call reply hmem
  cases ht with
  | began hs =>
    rcases List.mem_cons.mp hmem with heq | hmem
    · cases heq
    · exact h _ _ _ _ hmem
  | called hs =>
    rcases List.mem_cons.mp hmem with heq | hmem
    · cases heq
      exact hcost ..
    · exact h _ _ _ _ hmem
  | @released call ok calls outcome hs =>
    cases ok with
    | true => exact h _ _ _ _ hmem
    | false =>
      rcases List.mem_cons.mp hmem with heq | hmem
      · cases heq
      · exact h _ _ _ _ hmem
  | _ => exact h _ _ _ _ hmem

section Fresh

variable (backend : Backend σ) {timeline : Timeline} {device : σ} {begun : Nat} {fresh : Run σ}
variable (hfresh : fresh = ofTimeline settings timeline device begun) (instants : Nat → Nat)
include hfresh

end Fresh

end Run

section Demands

variable {settings : Settings} {start cost : Nat} {entries : List Entry}

variable (htimely : ∀ before e after, entries = before ++ e :: after →
  e.Timely settings start before)
variable (hcost : ∀ instant purpose call reply, .called instant purpose call reply ∈ entries →
  reply.cost = cost)
variable (huntimed : ∀ instant event, .began instant event ∈ entries →
  ∀ i, event.scheduled settings start i = event.due start)
include htimely hcost huntimed

end Demands

namespace Run

end Run

end TimedInput
