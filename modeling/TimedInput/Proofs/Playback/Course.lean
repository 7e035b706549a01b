import TimedInput.Proofs.Playback.Cancellation
import TimedInput.Proofs.Playback.Failure
import TimedInput.Proofs.Playback.Footprint

/-!
# Courses

What a run comes to, told event by event. An event makes its calls, those of its glide
included, until one of them fails; a timeline is played by its events, one after the other; and
at the end everything is let go of. A run that nobody cancels takes this course, step by step,
whenever its steps are made. A course knows neither instants nor stages.
-/

namespace TimedInput

namespace Glide

/-- All the calls that are left of a glide. -/
def calls (glide : Glide) : List Call :=
  glide.call ::
    match _h : glide.next? with
    | none => []
    | some next => next.calls
termination_by glide.left
decreasing_by exact left_of_next? _h

/-- The calls of a move under way, if there is one. -/
def callsOf (glide : Option Glide) : List Call :=
  glide.elim [] calls

theorem calls_eq (glide : Glide) : glide.calls = glide.call :: callsOf glide.next? := by
  rw [calls]
  split
  · rename_i h
    rw [h]
    rfl
  · rename_i next h
    rw [h]
    rfl

theorem next?_undated_eq (glide : Glide) : glide.undated.next? = glide.next?.map undated := by
  by_cases h : glide.taken + 1 < glide.count <;> simp [next?, undated, h]

theorem calls_undated (glide : Glide) : glide.undated.calls = glide.calls := by
  rw [calls_eq, calls_eq, next?_undated_eq]
  cases h : glide.next? with
  | none => rfl
  | some next =>
    have hnext := next.calls_undated
    exact congrArg (glide.call :: ·) hnext
termination_by glide.left
decreasing_by exact left_of_next? h

theorem callsOf_undated (glide : Option Glide) : callsOf (glide.map undated) = callsOf glide := by
  cases glide with
  | none => rfl
  | some glide => exact glide.calls_undated

end Glide

/-- The calls that an event makes in a state as long as none of them fails. -/
def Event.calls (settings : Settings) (state : InputState) (event : Event) : List Call :=
  let idle : Run Unit := { Run.ofTimeline settings [] () 0 with state }
  (idle.dispatch event).1 ++ Glide.callsOf (idle.dispatch event).2

theorem Run.calls_dispatch {σ : Type} (run : Run σ) (event : Event) :
    (run.dispatch event).1 ++ Glide.callsOf (run.dispatch event).2 =
      event.calls run.settings run.state := by
  rw [← dispatch_outline_calls, ← Glide.callsOf_undated, ← dispatch_outline_glide,
    Glide.callsOf_undated]
  rfl

structure Course where
  log : List Attempt
  state : InputState
  fault : Option Call

namespace Course

def initial (first : InputState) : Course :=
  ⟨[], first, none⟩

/-- How a run ends that takes the course. -/
def outcome (course : Course) : Outcome :=
  if course.fault = none then .completed else .failed

variable (answer : List Call → Bool)

/-- Makes a call, unless one has failed already. -/
def perform (course : Course) (call : Call) : Course :=
  if course.fault ≠ none then course
  else if answer (course.log.map (·.call) ++ [call]) then
    { course with log := course.log ++ [.success call], state := course.state.after call }
  else { course with log := course.log ++ [⟨.dispatch, call, false⟩], fault := some call }

def performAll (course : Course) (calls : List Call) : Course :=
  calls.foldl (perform answer) course

def play (settings : Settings) (course : Course) (timeline : Timeline) : Course :=
  timeline.foldl
    (fun course event => course.performAll answer (event.calls settings course.state)) course

variable {answer}

theorem perform_of_ok {log : List Attempt} {state : InputState} {call : Call}
    (h : answer (log.map (·.call) ++ [call]) = true) :
    (mk log state none).perform answer call =
      ⟨log ++ [.success call], state.after call, none⟩ := by
  simp [perform, h]

theorem perform_of_failure {log : List Attempt} {state : InputState} {call : Call}
    (h : answer (log.map (·.call) ++ [call]) = false) :
    (mk log state none).perform answer call =
      ⟨log ++ [⟨.dispatch, call, false⟩], state, some call⟩ := by
  simp [perform, h]

theorem performAll_of_fault {course : Course} (h : course.fault ≠ none) (calls : List Call) :
    course.performAll answer calls = course := by
  induction calls with
  | nil => rfl
  | cons call calls ih =>
    have hcall : course.perform answer call = course := if_pos h
    rw [performAll, List.foldl_cons, hcall]
    exact ih

theorem play_of_fault {settings : Settings} {course : Course} (h : course.fault ≠ none)
    (timeline : Timeline) : course.play answer settings timeline = course := by
  induction timeline with
  | nil => rfl
  | cons event timeline ih =>
    rw [play, List.foldl_cons, performAll_of_fault h]
    exact ih

theorem play_append (settings : Settings) (course : Course) (timeline more : Timeline) :
    course.play answer settings (timeline ++ more) =
      (course.play answer settings timeline).play answer settings more :=
  List.foldl_append

theorem play_snoc (settings : Settings) (course : Course) (timeline : Timeline) (event : Event) :
    course.play answer settings (timeline ++ [event]) =
      (course.play answer settings timeline).performAll answer
        (event.calls settings (course.play answer settings timeline).state) :=
  play_append settings course timeline [event]

/-- What a course comes to if no call fails on the way. -/
theorem performAll_of_ok {course : Course} {calls : List Call}
    (h : (course.performAll answer calls).fault = none) :
    course.performAll answer calls =
      ⟨course.log ++ calls.map .success, course.state.replay (calls.map .success), none⟩ := by
  induction calls generalizing course with
  | nil =>
    obtain ⟨log, state, fault⟩ := course
    cases h
    simp [performAll]
  | cons call calls ih =>
    obtain ⟨log, state, fault⟩ := course
    obtain rfl : fault = none := by
      by_contra hfault
      rw [performAll_of_fault hfault] at h
      exact hfault h
    rw [performAll, List.foldl_cons] at h ⊢
    cases hok : answer (log.map (·.call) ++ [call]) with
    | true =>
      rw [perform_of_ok hok] at h ⊢
      refine (ih h).trans ?_
      simp
    | false =>
      rw [perform_of_failure hok] at h
      have hfault : (mk (log ++ [⟨.dispatch, call, false⟩]) state (some call)).fault ≠ none :=
        Option.some_ne_none call
      have hrest : performAll answer _ calls = _ := performAll_of_fault hfault calls
      rw [performAll] at hrest
      rw [hrest] at h
      cases h

end Course

namespace InputState

/-- Letting go of keys and buttons leaves the pointer where it is. -/
theorem pointer_after_release {s : InputState} {call : Call} {calls : List Call}
    (h : s.releases = call :: calls) : (s.after call).pointer = s.pointer := by
  have hmem : call ∈ s.switches.map (·.call .up) := by
    rw [← releases_eq, h]
    exact List.mem_cons_self
  obtain ⟨sw, -, rfl⟩ := List.mem_map.mp hmem
  cases sw <;> rfl

end InputState

namespace Run

variable {σ : Type}

def course (run : Run σ) : Course :=
  ⟨run.log, run.state, run.fault⟩

theorem events_began (run : Run σ) (stage : Stage) (now : Nat) (event : Event) :
    { run with stage, history := .began now event :: run.history }.events =
      run.events ++ [event] := by
  simp [events, Entry.event?]

theorem events_beginCall (backend : Backend σ) (run : Run σ) (now : Nat) (call : Call)
    (calls : List Call) (next : Next) :
    (run.beginCall backend now call calls next).events = run.events := by
  simp [events, beginCall, Entry.event?]

theorem events_step (backend : Backend σ) (run : Run σ) (now : Nat) :
    (run.step backend now).events = run.events ∨
      ∃ event rest, run.stage = .await ⟨none, event :: rest⟩ ∧
        (run.step backend now).events = run.events ++ [event] := by
  have ht := run.step_transition backend now
  generalize run.step backend now = next at ht
  cases ht with
  | @began event rest hs => exact .inr ⟨event, rest, hs, events_began ..⟩
  | called hs => exact .inl (events_beginCall ..)
  | released hs => exact .inl (events_released ..)
  | _ => exact .inl rfl

theorem events_prefix_nth (backend : Backend σ) (instants : Nat → Nat) (run : Run σ) {m n : Nat}
    (hmn : m ≤ n) :
    (run.nth backend instants m).events <+: (run.nth backend instants n).events := by
  induction n, hmn using Nat.le_induction with
  | base => exact List.prefix_rfl
  | succ n _ ih =>
    rw [nth]
    rcases (run.nth backend instants n).events_step backend (instants n) with
      hsame | ⟨event, rest, -, hmore⟩
    · rwa [hsame]
    · rw [hmore]
      exact ih.trans (List.prefix_append _ _)

/-- The events begin one after the other in the order of the timeline. -/
structure InOrder (run : Run σ) (timeline : Timeline) : Prop where
  begun : run.events <+: timeline
  opened : run.outcome? = none → run.events ++ run.stage.timeline = timeline
  exhausted : run.outcome? = some .completed → run.events = timeline

section Order

variable {run : Run σ} {timeline : Timeline}

theorem inOrder_of_open (hopen : run.outcome? = none)
    (hall : run.events ++ run.stage.timeline = timeline) : run.InOrder timeline := by
  refine ⟨⟨_, hall⟩, fun _ => hall, ?_⟩
  intro hcompleted
  rw [hopen] at hcompleted
  cases hcompleted

theorem inOrder_of_settled {outcome : Outcome} (hsettled : run.outcome? = some outcome)
    (hbegun : run.events <+: timeline) (hall : outcome = .completed → run.events = timeline) :
    run.InOrder timeline := by
  refine ⟨hbegun, ?_, ?_⟩
  · intro hopen
    rw [hsettled] at hopen
    cases hopen
  · intro hcompleted
    rw [hsettled] at hcompleted
    exact hall (Option.some.inj hcompleted)

theorem InOrder.step (h : run.InOrder timeline) (backend : Backend σ) (now : Nat) :
    (run.step backend now).InOrder timeline := by
  have ht := run.step_transition backend now
  generalize run.step backend now = next at ht
  -- as long as the run is open, its stage tells what is left
  have hleft : ∀ rest, run.outcome? = none → run.stage.timeline = rest →
      run.events ++ rest = timeline := by
    rintro rest hopen rfl
    exact h.opened hopen
  have hexhausted : ∀ outcome, run.outcome? = some outcome → outcome = .completed →
      run.events = timeline := by
    rintro outcome hsettled rfl
    exact h.exhausted hsettled
  cases ht with
  | opened hs =>
    have hall := hleft _ (by rw [outcome?, hs]) (congrArg Stage.timeline hs)
    exact inOrder_of_open rfl hall
  | cancelled =>
    exact inOrder_of_settled rfl h.begun (by simp)
  | @began event rest hs =>
    apply inOrder_of_open rfl
    have hall := hleft (event :: rest) (by rw [outcome?, hs]) (congrArg Stage.timeline hs)
    rw [events_began, List.append_assoc]
    exact hall
  | glided hs =>
    have hall := hleft _ (by rw [outcome?, hs]) (congrArg Stage.timeline hs)
    exact inOrder_of_open rfl hall
  | exhausted hs =>
    refine inOrder_of_settled rfl h.begun fun _ => ?_
    have hall := hleft [] (by rw [outcome?, hs]) (congrArg Stage.timeline hs)
    exact (List.append_nil _).symm.trans hall
  | @called call calls next hs =>
    cases next with
    | proceed todo =>
      have hall := hleft _ (by rw [outcome?, hs]) (congrArg Stage.timeline hs)
      apply inOrder_of_open rfl
      rw [events_beginCall]
      exact hall
    | finish outcome =>
      apply inOrder_of_settled rfl
      · rw [events_beginCall]
        exact h.begun
      · rw [events_beginCall]
        exact hexhausted outcome (by rw [outcome?, hs])
  | returned hs =>
    have hall := hleft _ (by rw [outcome?, hs]) (congrArg Stage.timeline hs)
    exact inOrder_of_open rfl hall
  | failed =>
    exact inOrder_of_settled rfl h.begun (by simp)
  | released hs =>
    apply inOrder_of_settled rfl
    · rw [events_released]
      exact h.begun
    · rw [events_released]
      exact hexhausted _ (by rw [outcome?, hs])
  | proceeded hs =>
    have hall := hleft _ (by rw [outcome?, hs]) (congrArg Stage.timeline hs)
    exact inOrder_of_open rfl hall
  | published hs => exact inOrder_of_settled rfl h.begun (hexhausted _ (by rw [outcome?, hs]))
  | settled => exact h

theorem InOrder.move (h : run.InOrder timeline) (backend : Backend σ) (m : Move) :
    (run.move backend m).InOrder timeline := by
  apply move_keeps (P := (InOrder · timeline)) (h.step backend)
  exact fun asked => ⟨h.begun, h.opened, h.exhausted⟩

end Order

section Plan

variable (backend : Backend σ) (answer : List Call → Bool) (settings : Settings)
variable (first : InputState) (timeline : Timeline)

/-- The run makes calls for its events, and no call has come back as a failure. What is still to
be called for the events that have begun brings it to where they lead. -/
structure Underway (run : Run σ) : Prop where
  settings_eq : run.settings = settings
  fault_eq : run.fault = none
  events_append : run.events ++ run.stage.timeline = timeline
  plan :
    let goal := (Course.initial first).play answer settings run.events
    match run.stage with
    | .opening _ =>
      run.events = [] ∧ run.log = [] ∧ run.state = .empty ∧
        first = ⟨[], [], backend.pointer run.device⟩
    | .await todo => run.course.performAll answer (Glide.callsOf todo.glide) = goal
    | .issue calls (.proceed todo) =>
      run.course.performAll answer (calls ++ Glide.callsOf todo.glide) = goal
    | .answer call ok calls (.proceed todo) =>
      ∃ log, run.log = log ++ [⟨.dispatch, call, ok⟩] ∧
        answer (log.map (·.call) ++ [call]) = ok ∧
        (Course.mk log run.state none).performAll answer
          (call :: (calls ++ Glide.callsOf todo.glide)) = goal
    | _ => False

end Plan

theorem Releasing.pointer_step {backend : Backend σ} {front : List Attempt} {held : InputState}
    {outcome : Outcome} {run : Run σ} (h : run.Releasing front held outcome) (now : Nat) :
    (run.step backend now).state.pointer = run.state.pointer := by
  obtain ⟨back, -, -, hstage⟩ := h
  have ht := run.step_transition backend now
  generalize run.step backend now = next at ht
  cases ht with
  | opened hs => simp [hs] at hstage
  | @released call ok calls outcome hs =>
    simp only [hs] at hstage
    exact InputState.pointer_after_release hstage.2.2
  | returned hs => simp [hs] at hstage
  | _ => rfl

/-- The run has taken the course and lets go of what is held at its end. -/
structure Resolved (course : Course) (run : Run σ) : Prop where
  releasing : run.Releasing course.log course.state course.outcome
  fault_eq : run.fault = course.fault
  pointer_eq : run.state.pointer = course.state.pointer

theorem Resolved.step {backend : Backend σ} {course : Course} {run : Run σ}
    (h : run.Resolved course) (now : Nat) : (run.step backend now).Resolved course := by
  obtain ⟨hreleasing, hfault, hpointer⟩ := h
  have hsettled : run.outcome? ≠ none := by simp [hreleasing.outcome?]
  refine ⟨hreleasing.step now, ?_, (hreleasing.pointer_step now).trans hpointer⟩
  rw [(step_of_settled backend hsettled now).1, hfault]

section Underway

variable {backend : Backend σ} {answer : List Call → Bool} {settings : Settings}
variable {first : InputState} {timeline : Timeline} {run : Run σ}

/-- With nothing left to call, the run is where its events lead. -/
theorem Underway.course_eq (h : run.Underway backend answer settings first timeline)
    {rest : Timeline} (hs : run.stage = .await ⟨none, rest⟩) :
    run.course = (Course.initial first).play answer settings run.events := by
  have hplan := h.plan
  simp only [hs] at hplan
  exact hplan

theorem Underway.step (h : run.Underway backend answer settings first timeline) {now : Nat}
    (hcancel : run.cancelRequested = false)
    (hanswer : ∀ call, (backend.perform now call run.device).1.ok =
      answer (run.log.map (·.call) ++ [call])) :
    (run.step backend now).Underway backend answer settings first timeline ∨
      (run.step backend now).Resolved
        ((Course.initial first).play answer settings timeline) := by
  have hcourse := @h.course_eq
  obtain ⟨hsettings, hfault, hevents, hplan⟩ := h
  have ht := run.step_transition backend now
  generalize run.step backend now = next at ht
  cases ht with
  | opened hs =>
    simp only [hs] at hplan hevents
    obtain ⟨hnil, hlog, hstate, hfirst⟩ := hplan
    refine .inl ⟨hsettings, hfault, hevents, ?_⟩
    change Course.mk run.log _ run.fault = (Course.initial first).play answer settings run.events
    rw [hnil, hlog, hstate, hfault, hfirst]
    rfl
  | cancelled hpolls hasked =>
    rw [hcancel] at hasked
    cases hasked
  | @began event rest hs =>
    have hgoal := hcourse hs
    rw [hs] at hevents
    refine .inl ⟨hsettings, hfault, ?_, ?_⟩
    · rw [events_began, List.append_assoc]
      exact hevents
    · change Course.performAll answer (Course.mk _ run.state run.fault)
        ((run.dispatch event).1 ++ Glide.callsOf (run.dispatch event).2) = _
      rw [log_began, events_began, Course.play_snoc, ← hgoal, run.calls_dispatch, hsettings]
      rfl
  | @glided glide rest hs =>
    simp only [hs] at hplan hevents
    refine .inl ⟨hsettings, hfault, hevents, ?_⟩
    rw [Glide.callsOf, Option.elim_some, glide.calls_eq] at hplan
    exact hplan
  | exhausted hs =>
    have hgoal := hcourse hs
    rw [hs] at hevents
    have hall : run.events = timeline := (List.append_nil _).symm.trans hevents
    rw [hall] at hgoal
    right
    rw [← hgoal]
    have houtcome : run.course.outcome = .completed := if_pos hfault
    refine ⟨?_, rfl, rfl⟩
    rw [houtcome]
    exact run.releasing_drain .completed
  | @called call calls next hs =>
    cases next with
    | finish outcome => simp [hs] at hplan
    | proceed todo =>
      simp only [hs] at hplan hevents
      rw [course, hfault] at hplan
      refine .inl ⟨hsettings, hfault, ?_, run.log, log_beginCall .., (hanswer call).symm, ?_⟩
      · rw [events_beginCall]
        exact hevents
      · rw [events_beginCall]
        exact hplan
  | @returned call calls todo hs =>
    simp only [hs] at hplan hevents
    obtain ⟨log, hlog, hok, hplan⟩ := hplan
    rw [Course.performAll, List.foldl_cons, Course.perform_of_ok hok] at hplan
    refine .inl ⟨hsettings, hfault, hevents, ?_⟩
    change Course.performAll answer (Course.mk run.log (run.state.after call) run.fault)
      (calls ++ Glide.callsOf todo.glide) = _
    rw [hlog, hfault]
    exact hplan
  | @failed call calls todo hs =>
    simp only [hs] at hplan hevents
    obtain ⟨log, hlog, hok, hplan⟩ := hplan
    rw [Course.performAll, List.foldl_cons, Course.perform_of_failure hok, ← hlog] at hplan
    have hfailed : (Course.mk run.log run.state (some call)).fault ≠ none :=
      Option.some_ne_none call
    -- no event changes anything any more
    have hgoal : (Course.initial first).play answer settings timeline =
        ⟨run.log, run.state, some call⟩ := by
      rw [← hevents, Course.play_append, ← hplan]
      change Course.play answer settings (Course.performAll answer _ _) _ = _
      rw [Course.performAll_of_fault hfailed, Course.play_of_fault hfailed]
    right
    rw [hgoal]
    refine ⟨?_, rfl, rfl⟩
    have houtcome : (Course.mk run.log run.state (some call)).outcome = .failed :=
      if_neg hfailed
    rw [houtcome]
    exact releasing_drain { run with fault := some call } .failed
  | released hs => simp [hs] at hplan
  | proceeded hs =>
    simp only [hs] at hplan hevents
    exact .inl ⟨hsettings, hfault, hevents, hplan⟩
  | published hs => simp [hs] at hplan
  | settled hs => simp [hs] at hplan

end Underway

/-- What is left of a course when everything was let go of. -/
theorem Resolved.of_over {course : Course} {run : Run σ} (h : run.Resolved course)
    (hover : run.isOver = true) :
    run.stage = .ended course.outcome ∧ run.state = ⟨[], [], course.state.pointer⟩ ∧
      ∃ back, run.log = course.log ++ back ∧ (∀ a ∈ back, a.purpose = .drain) ∧
        back.map (·.call) = course.state.releases := by
  obtain ⟨hreleasing, -, hpointer⟩ := h
  obtain ⟨hstage, hreleases, hback⟩ := hreleasing.of_over hover
  refine ⟨hstage, ?_, hback⟩
  have hempty := InputState.isEmpty_of_releases hreleases
  rw [← hpointer]
  generalize run.state = state at hempty
  obtain ⟨keys, buttons, pointer⟩ := state
  simp only [InputState.isEmpty, Bool.and_eq_true, List.isEmpty_iff] at hempty
  obtain ⟨rfl, rfl⟩ := hempty
  rfl

section Answers

/-- What holds of every member with those before it, and of a new last one, holds of all. -/
theorem forall_split_snoc {α : Type} {P : List α → α → Prop} {l : List α}
    (h : ∀ before a after, l = before ++ a :: after → P before a) {a : α} (ha : P l a) :
    ∀ before b after, l ++ [a] = before ++ b :: after → P before b := by
  intro before b after heq
  rcases List.eq_nil_or_concat' after with rfl | ⟨after, last, rfl⟩
  · obtain ⟨rfl, hb⟩ := List.append_inj' heq rfl
    cases hb
    exact ha
  · rw [← List.cons_append, ← List.append_assoc] at heq
    exact h before b after (List.append_inj' heq rfl).1

variable (answer : List Call → Bool)

/-- Every call of the log was answered as it is told by the calls up to it. -/
def Answered (log : List Attempt) : Prop :=
  ∀ before a after, log = before ++ a :: after →
    a.ok = answer (before.map (·.call) ++ [a.call])

variable {answer}

theorem Answered.snoc {log : List Attempt} (h : Answered answer log) {a : Attempt}
    (ha : a.ok = answer (log.map (·.call) ++ [a.call])) : Answered answer (log ++ [a]) :=
  forall_split_snoc h ha

theorem Answered.of_append {log more : List Attempt} (h : Answered answer (log ++ more)) :
    Answered answer log := by
  intro before a after heq
  apply h before a (after ++ more)
  rw [heq, List.append_assoc, List.cons_append]

/-- The answers follow from the calls. -/
theorem Answered.eq_of_calls {log other : List Attempt} (h : Answered answer log)
    (hother : Answered answer other) (hpurpose : log.map (·.purpose) = other.map (·.purpose))
    (hcalls : log.map (·.call) = other.map (·.call)) : log = other := by
  induction log using List.reverseRecOn generalizing other with
  | nil => exact (List.map_eq_nil_iff.mp hcalls.symm).symm
  | append_singleton log a ih =>
    rcases List.eq_nil_or_concat' other with rfl | ⟨other, b, rfl⟩
    · simp at hcalls
    · rw [List.map_append, List.map_append] at hpurpose hcalls
      obtain ⟨hpurpose, hpurpose'⟩ := List.append_inj' hpurpose rfl
      obtain ⟨hcalls, hcall⟩ := List.append_inj' hcalls rfl
      obtain rfl := ih h.of_append hother.of_append hpurpose hcalls
      have hok := h log a [] rfl
      have hok' := hother log b [] rfl
      obtain ⟨purpose, call, ok⟩ := a
      obtain ⟨purpose', call', ok'⟩ := b
      cases hpurpose'
      cases hcall
      rw [← hok'] at hok
      cases hok
      rfl

end Answers

section Fresh

variable {backend : Backend σ} {settings : Settings} {timeline : Timeline} {device : σ}
variable {begun : Nat} {fresh : Run σ} {answer : List Call → Bool}
variable (hfresh : fresh = ofTimeline settings timeline device begun)
variable (hanswer : ∀ calls current, backend.Led device calls current →
  ∀ now call, (backend.perform now call current).1.ok = answer (calls ++ [call]))
variable (instants : Nat → Nat)
include hfresh hanswer

theorem answered_nth (n : Nat) :
    Answered answer (fresh.nth backend.passive instants n).log := by
  induction n with
  | zero =>
    subst hfresh
    intro before a after heq
    simp [nth, ofTimeline, log, attempts] at heq
  | succ n ih =>
    have htracked := tracked_nth backend hfresh instants n
    rcases step_called_or_silent backend.passive (fresh.nth backend.passive instants n)
      (instants n) with ⟨call, calls, next, hstep⟩ | ⟨hlog, -⟩
    · rw [nth, hstep, log_beginCall]
      exact ih.snoc (hanswer _ _ htracked (instants n) call)
    · rw [nth, hlog]
      exact ih

/-- A run takes the course of its timeline, and then it lets go. -/
theorem underway_or_resolved (n : Nat) :
    let first : InputState := ⟨[], [], backend.pointer device⟩
    (fresh.nth backend.passive instants n).Underway backend.passive answer settings first timeline ∨
      (fresh.nth backend.passive instants n).Resolved
        ((Course.initial first).play answer settings timeline) := by
  intro first
  induction n with
  | zero =>
    subst hfresh
    exact .inl ⟨rfl, rfl, rfl, rfl, rfl, rfl, rfl⟩
  | succ n ih =>
    rcases ih with hunderway | hresolved
    · have htracked := tracked_nth backend hfresh instants n
      have hcancel := (unasked_nth backend hfresh instants n).1
      exact hunderway.step hcancel fun call => hanswer _ _ htracked (instants n) call
    · exact .inr (hresolved.step (instants n))

theorem resolved_of_isOver {n : Nat}
    (hover : (fresh.nth backend.passive instants n).isOver = true) :
    (fresh.nth backend.passive instants n).Resolved
      ((Course.initial ⟨[], [], backend.pointer device⟩).play answer settings timeline) := by
  rcases underway_or_resolved hfresh hanswer instants n with hunderway | hresolved
  · have hplan := hunderway.plan
    obtain ⟨outcome, hs⟩ := exists_of_isOver hover
    simp only [hs] at hplan
  · exact hresolved

theorem underway_of_open {n : Nat}
    (hopen : (fresh.nth backend.passive instants n).outcome? = none) :
    (fresh.nth backend.passive instants n).Underway backend.passive answer settings
      ⟨[], [], backend.pointer device⟩ timeline := by
  rcases underway_or_resolved hfresh hanswer instants n with hunderway | hresolved
  · exact hunderway
  · rw [hresolved.releasing.outcome?] at hopen
    cases hopen

/-- A run that has gone beyond some of its events has been between them and the others. -/
theorem exists_between {done rest : Timeline} (htimeline : timeline = done ++ rest) {k : Nat}
    (hk : done.length < (fresh.nth backend.passive instants k).events.length) :
    ∃ n, (fresh.nth backend.passive instants n).stage = .await ⟨none, rest⟩ ∧
      (fresh.nth backend.passive instants n).events = done := by
  induction k with
  | zero =>
    subst hfresh
    exact absurd hk (Nat.not_lt_zero _)
  | succ k ih =>
    by_cases hbefore : done.length < (fresh.nth backend.passive instants k).events.length
    · exact ih hbefore
    rw [nth] at hk
    rcases (fresh.nth backend.passive instants k).events_step backend.passive (instants k) with
      hsame | ⟨event, later, hs, hmore⟩
    · rw [hsame] at hk
      exact absurd hk hbefore
    · -- this event is the first one beyond
      rw [hmore, List.length_append, List.length_singleton] at hk
      have hopen : (fresh.nth backend.passive instants k).outcome? = none := by rw [outcome?, hs]
      have hevents := (underway_of_open hfresh hanswer instants hopen).events_append
      rw [hs, htimeline] at hevents
      obtain ⟨hdone, hrest⟩ := List.append_inj hevents (by omega)
      refine ⟨k, ?_, hdone⟩
      rw [hs]
      exact congrArg (fun rest => Stage.await ⟨none, rest⟩) hrest

/-- A run comes to be between any two of its events, unless it has failed before. -/
theorem exists_between_or_failed {done rest : Timeline} (htimeline : timeline = done ++ rest) :
    (∃ n, (fresh.nth backend.passive instants n).stage = .await ⟨none, rest⟩ ∧
      (fresh.nth backend.passive instants n).events = done) ∨
    (∃ n, (fresh.nth backend.passive instants n).fault ≠ none) ∧
      ∀ n, (fresh.nth backend.passive instants n).events <+: done := by
  obtain ⟨last, hover⟩ := exists_nth_isOver backend.passive instants fresh
  rcases turned_nth backend hfresh instants last with ⟨hopen, -⟩ | hturned
  · obtain ⟨outcome, hs⟩ := exists_of_isOver hover
    rw [outcome?, hs] at hopen
    cases hopen
  · cases hturned with
    | exhausted k hs _ _ =>
      have hopen : (fresh.nth backend.passive instants k).outcome? = none := by rw [outcome?, hs]
      have hevents := (underway_of_open hfresh hanswer instants hopen).events_append
      rw [hs] at hevents
      have hall : (fresh.nth backend.passive instants k).events = done ++ rest :=
        (List.append_nil _).symm.trans (hevents.trans htimeline)
      left
      cases rest with
      | nil => exact ⟨k, hs, hall.trans (List.append_nil done)⟩
      | cons event rest =>
        apply exists_between hfresh hanswer instants htimeline
        rw [hall, List.length_append, List.length_cons]
        omega
    | @failed k call calls todo hs _ _ hevents hfault _ =>
      by_cases hk : done.length < (fresh.nth backend.passive instants k).events.length
      · exact .inl (exists_between hfresh hanswer instants htimeline hk)
      · refine .inr ⟨⟨last, ?_⟩, fun n => ?_⟩
        · rw [hfault]
          exact Option.some_ne_none call
        · have hopen : (fresh.nth backend.passive instants k).outcome? = none := by
            rw [outcome?, hs]
          have hall := (underway_of_open hfresh hanswer instants hopen).events_append
          rw [htimeline, ← hevents] at hall
          have hlast : (fresh.nth backend.passive instants last).events <+: done := by
            apply List.prefix_of_prefix_length_le ⟨_, hall⟩ (List.prefix_append done rest)
            rw [hevents]
            omega
          rcases Nat.le_total n last with hn | hn
          · exact (events_prefix_nth backend.passive instants fresh hn).trans hlast
          · rwa [nth_of_isOver hover hn]

/-- Runs that take one course make the same calls with the same answers and end alike, whenever
they have begun and whenever their steps are made. -/
theorem eq_of_course {other : Run σ} {timeline' : Timeline} {begun' : Nat}
    (hother : other = ofTimeline settings timeline' device begun')
    (hcourse : (Course.initial ⟨[], [], backend.pointer device⟩).play answer settings timeline =
      (Course.initial ⟨[], [], backend.pointer device⟩).play answer settings timeline')
    (instants' : Nat → Nat) {m n : Nat}
    (hm : (fresh.nth backend.passive instants m).isOver = true)
    (hn : (other.nth backend.passive instants' n).isOver = true) :
    let run := fresh.nth backend.passive instants m
    let twin := other.nth backend.passive instants' n
    run.log = twin.log ∧ run.stage = twin.stage ∧ run.fault = twin.fault ∧
      run.state = twin.state := by
  intro run twin
  have hrun := resolved_of_isOver hfresh hanswer instants hm
  have htwin := resolved_of_isOver hother hanswer instants' hn
  rw [← hcourse] at htwin
  obtain ⟨hstage, hstate, back, hlog, hdrain, hcalls⟩ := hrun.of_over hm
  obtain ⟨hstage', hstate', back', hlog', hdrain', hcalls'⟩ := htwin.of_over hn
  have hpurposes : back.map (·.purpose) = back'.map (·.purpose) := by
    have hlength := congrArg List.length (hcalls.trans hcalls'.symm)
    rw [List.length_map, List.length_map] at hlength
    rw [List.map_congr_left hdrain, List.map_congr_left hdrain', List.map_const', List.map_const',
      hlength]
  refine ⟨?_, hstage.trans hstage'.symm, hrun.fault_eq.trans htwin.fault_eq.symm,
    hstate.trans hstate'.symm⟩
  apply Answered.eq_of_calls (answered_nth hfresh hanswer instants m)
    (answered_nth hother hanswer instants' n)
  · rw [hlog, hlog', List.map_append, List.map_append, hpurposes]
  · rw [hlog, hlog', List.map_append, List.map_append, hcalls, hcalls']

end Fresh

end Run

end TimedInput
