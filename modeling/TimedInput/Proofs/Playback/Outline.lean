import TimedInput.Proofs.Playback.Phase

/-!
# Outlines

The outline of a run forgets its device, the instants and whether the run was asked to
cancel. It keeps the calls and their answers, what is held and what comes next. A step
changes the outline in a way that depends only on the outline and on the answers of the
device, as long as no request to cancel is noticed. So two runs with the same answers have
the same outlines, whichever their clocks are.
-/

namespace TimedInput

variable {σ τ : Type}

/-- The calls have led the device from one state to the other, at whatever instants. -/
inductive Backend.Led (backend : Backend σ) (device : σ) : List Call → σ → Prop where
  | nil : Led backend device [] device
  | snoc {calls : List Call} {current : σ} (h : Led backend device calls current) (now : Nat)
    (call : Call) : Led backend device (calls ++ [call]) (backend.perform now call current).2

theorem Backend.Led.eq_of_nil {backend : Backend σ} {device current : σ}
    (h : backend.Led device [] current) : current = device := by
  generalize hcalls : ([] : List Call) = calls at h
  cases h with
  | nil => rfl
  | snoc => simp at hcalls

/-- Whether a call succeeds depends on the calls made so far, and on nothing else. -/
def Backend.AnswersByCalls (backend : Backend σ) (device : σ) : Prop :=
  ∃ answer : List Call → Bool, ∀ calls current, backend.Led device calls current →
    ∀ now call, (backend.perform now call current).1.ok = answer (calls ++ [call])

def Glide.undated (glide : Glide) : Glide :=
  { glide with due := 0 }

theorem Glide.start?_undated (mode : MoveMode) (target : Point) (pointer : Option Point)
    (duration tick : UInt64) (due other : Nat) :
    (start? mode target pointer duration tick due).map undated =
      (start? mode target pointer duration tick other).map undated := by
  by_cases h : 0 < stepCount duration tick <;> cases mode <;> simp [start?, undated, h]

theorem Glide.next?_undated (glide : Glide) :
    glide.undated.next?.map undated = glide.next?.map undated := by
  by_cases h : glide.taken + 1 < glide.count <;> simp [next?, undated, h]

def Todo.undated (todo : Todo) : Todo :=
  ⟨todo.glide.map Glide.undated, todo.rest⟩

@[simp] theorem Todo.undated_undated (todo : Todo) : todo.undated.undated = todo.undated := by
  obtain ⟨glide, rest⟩ := todo
  cases glide <;> rfl

def Next.undated : Next → Next
  | .proceed todo => .proceed todo.undated
  | .finish outcome => .finish outcome

@[simp] theorem Next.undated_undated (next : Next) : next.undated.undated = next.undated := by
  cases next <;> simp [undated]

@[simp] theorem Next.undated_purpose (next : Next) : next.undated.purpose = next.purpose := by
  cases next <;> rfl

def Stage.undated : Stage → Stage
  | .opening timeline => .opening timeline
  | .await todo => .await todo.undated
  | .issue calls next => .issue calls next.undated
  | .answer call ok calls next => .answer call ok calls next.undated
  | .ended outcome => .ended outcome

theorem Stage.undated_eq_ended {stage : Stage} {outcome : Outcome} :
    stage.undated = .ended outcome ↔ stage = .ended outcome := by
  cases stage <;> simp [undated]

def Entry.undated : Entry → Entry
  | .began _ event => .began 0 event
  | .called _ purpose call reply => .called 0 purpose call (.plain reply.ok)
  | .stuck _ call => .stuck 0 call

namespace Entry

@[simp] theorem undated_began (instant : Nat) (event : Event) :
    (began instant event).undated = began 0 event := rfl

@[simp] theorem undated_called (instant : Nat) (purpose : Purpose) (call : Call) (reply : Reply) :
    (called instant purpose call reply).undated = called 0 purpose call (.plain reply.ok) := rfl

@[simp] theorem undated_stuck (instant : Nat) (call : Call) :
    (stuck instant call).undated = stuck 0 call := rfl

@[simp] theorem undated_undated (entry : Entry) : entry.undated.undated = entry.undated := by
  cases entry <;> rfl

@[simp] theorem undated_attempt? (entry : Entry) : entry.undated.attempt? = entry.attempt? := by
  cases entry <;> rfl

end Entry

/-- The backend without a device that answers as it is told to. -/
def Backend.answering (pointer : Option Point) (ok : Call → Bool) : Backend Unit where
  perform _ call _ := (.plain (ok call), ())
  pointer _ := pointer

namespace Run

def outline (run : Run σ) : Run Unit :=
  { settings := run.settings
    stage := run.stage.undated
    device := ()
    state := run.state
    start := 0
    free := 0
    cancelRequested := false
    fault := run.fault
    history := run.history.map Entry.undated }

@[simp] theorem outline_log (run : Run σ) : run.outline.log = run.log := by
  simp [log, attempts, outline, List.filterMap_map]

@[simp] theorem outline_polls (run : Run σ) : run.outline.polls = run.polls := by
  unfold polls outline
  cases run.stage with
  | await todo =>
    obtain ⟨glide, rest⟩ := todo
    cases glide <;> cases rest <;> rfl
  | _ => rfl

@[simp] theorem outline_isOver (run : Run σ) : run.outline.isOver = run.isOver := by
  unfold isOver outline
  cases run.stage <;> rfl

section Twins

variable {run : Run σ} {twin : Run τ} (h : run.outline = twin.outline)
include h

theorem log_eq_of_outline : run.log = twin.log := by
  rw [← outline_log, h, outline_log]

theorem polls_eq_of_outline : run.polls = twin.polls := by
  rw [← outline_polls, h, outline_polls]

theorem isOver_eq_of_outline : run.isOver = twin.isOver := by
  rw [← outline_isOver, h, outline_isOver]

theorem state_eq_of_outline : run.state = twin.state :=
  congrArg (fun outline : Run Unit => outline.state) h

theorem stage_ended_of_outline {outcome : Outcome} :
    run.stage = .ended outcome ↔ twin.stage = .ended outcome := by
  have hstage : run.stage.undated = twin.stage.undated :=
    congrArg (fun outline : Run Unit => outline.stage) h
  rw [← Stage.undated_eq_ended, hstage, Stage.undated_eq_ended]

end Twins

theorem requestCancel_outline (run : Run σ) : run.requestCancel.outline = run.outline := by
  unfold requestCancel
  split <;> rfl

theorem dispatch_outline_calls (run : Run σ) (event : Event) :
    (run.outline.dispatch event).1 = (run.dispatch event).1 := by
  unfold dispatch
  cases event.action with
  | move mode x y duration => by_cases h : duration = 0 <;> cases mode <;> simp [h]
  | button press n => cases press <;> rfl
  | key press code => cases press <;> rfl
  | _ => rfl

theorem dispatch_outline_glide (run : Run σ) (event : Event) :
    (run.outline.dispatch event).2.map Glide.undated =
      (run.dispatch event).2.map Glide.undated := by
  unfold dispatch
  cases event.action with
  | move mode x y duration =>
    by_cases h : duration = 0
    · cases mode <;> simp [h]
    · simp only [h, if_false]
      apply Glide.start?_undated
  | button press n => cases press <;> rfl
  | key press code => cases press <;> rfl
  | _ => rfl

/-- The outline after a step is found by a step of the outline. -/
theorem outline_step {backend : Backend σ} {run : Run σ} (pointer : Option Point)
    {ok : Call → Bool} {now : Nat}
    (hcancel : run.polls = true → run.cancelRequested = false)
    (hpointer : ∀ timeline, run.stage = .opening timeline → backend.pointer run.device = pointer)
    (hok : ∀ call, (backend.perform now call run.device).1.ok = ok call) :
    (run.step backend now).outline =
      (run.outline.step (.answering pointer ok) 0).outline := by
  obtain ⟨settings, stage, device, state, start, free, cancelRequested, fault, history⟩ := run
  cases stage with
  | opening timeline =>
    have hp := hpointer timeline rfl
    simp [step, outline, Stage.undated, Todo.undated, Backend.answering, hp]
  | await todo =>
    obtain ⟨glide, rest⟩ := todo
    cases glide with
    | some glide =>
      obtain rfl : cancelRequested = false := hcancel rfl
      have hcall : glide.undated.call = glide.call := rfl
      simp [step, wake, outline, Stage.undated, Next.undated, Todo.undated, glide.next?_undated,
        hcall]
    | none =>
      cases rest with
      | nil => simp [step, wake, drain, outline, Stage.undated, Todo.undated, Next.undated]
      | cons event rest =>
        -- a glide that starts here is due at an instant that the outline does not keep
        obtain rfl : cancelRequested = false := hcancel rfl
        have hcalls := dispatch_outline_calls (⟨settings, .await ⟨none, event :: rest⟩, device,
          state, start, free, false, fault, history⟩ : Run σ) event
        have hglide := dispatch_outline_glide (⟨settings, .await ⟨none, event :: rest⟩, device,
          state, start, free, false, fault, history⟩ : Run σ) event
        simp only [outline, Stage.undated, Todo.undated, Option.map_none] at hcalls hglide
        simp [step, wake, outline, Stage.undated, Next.undated, Todo.undated,
          hcalls, hglide]
  | issue calls next =>
    cases calls with
    | cons call calls =>
      simp [step, beginCall, outline, Stage.undated, Backend.answering, hok, Reply.plain]
    | nil => cases next <;> simp [step, outline, Stage.undated, Next.undated]
  | answer call ok calls next =>
    cases next with
    | proceed todo =>
      cases ok <;> simp [step, finishCall, drain, outline, Stage.undated, Next.undated]
    | finish outcome =>
      cases ok <;> simp [step, finishCall, outline, Stage.undated, Next.undated]
  | ended outcome => simp [step, outline, Stage.undated]

/-- Two runs with the same outline still have the same outline when each has made a step, if the
devices would answer them alike. -/
theorem outline_step_eq {backend : Backend σ} {other : Backend τ} {run : Run σ} {twin : Run τ}
    {now later : Nat} (houtline : run.outline = twin.outline)
    (hcancel : run.polls = true → run.cancelRequested = false)
    (htwin : twin.cancelRequested = false)
    (hpointer : ∀ timeline, run.stage = .opening timeline →
      backend.pointer run.device = other.pointer twin.device)
    (hok : ∀ call, (backend.perform now call run.device).1.ok =
      (other.perform later call twin.device).1.ok) :
    (run.step backend now).outline = (twin.step other later).outline := by
  rw [outline_step (other.pointer twin.device) hcancel hpointer hok, houtline,
    ← outline_step (other.pointer twin.device) (fun _ => htwin) (fun _ _ => rfl) (fun _ => rfl)]

/-- A step makes one call, or it leaves the log and the device as they are. -/
theorem step_called_or_silent (backend : Backend σ) (run : Run σ) (now : Nat) :
    (∃ call calls next, run.step backend now = run.beginCall backend now call calls next) ∨
      (run.step backend now).log = run.log ∧ (run.step backend now).device = run.device := by
  have ht := run.step_transition backend now
  generalize run.step backend now = next at ht
  cases ht with
  | @called call calls next h => exact .inl ⟨call, calls, next, rfl⟩
  | began h => exact .inr ⟨log_began .., rfl⟩
  | released h => exact .inr ⟨log_released .., rfl⟩
  | _ => exact .inr ⟨rfl, rfl⟩

theorem log_prefix_step (backend : Backend σ) (run : Run σ) (now : Nat) :
    run.log <+: (run.step backend now).log := by
  obtain ⟨call, calls, next, heq⟩ | ⟨heq, -⟩ := run.step_called_or_silent backend now
  · rw [heq, log_beginCall]
    exact List.prefix_append _ _
  · exact heq ▸ List.prefix_refl run.log

theorem log_prefix_follow (backend : Backend σ) (run : Run σ) (moves : List Move) :
    run.log <+: (run.follow backend moves).log := by
  apply follow_induction (P := fun later => run.log <+: later.log) _ (List.prefix_refl _)
  intro later m h
  exact move_keeps (P := fun later => run.log <+: later.log)
    (fun now => h.trans (later.log_prefix_step backend now)) (fun asked => h) m

/-- The device of the run is where its calls have led it. -/
def Tracked (backend : Backend σ) (device : σ) (run : Run σ) : Prop :=
  backend.Led device (run.log.map (·.call)) run.device

theorem Tracked.step {backend : Backend σ} {device : σ} {run : Run σ}
    (h : run.Tracked backend device) (now : Nat) :
    (run.step backend now).Tracked backend device := by
  unfold Tracked at *
  obtain ⟨call, calls, next, heq⟩ | ⟨hlog, hdevice⟩ := run.step_called_or_silent backend now
  · rw [heq, log_beginCall, List.map_append]
    exact h.snoc now call
  · rw [hlog, hdevice]
    exact h

theorem tracked_follow (backend : Backend σ) (settings : Settings) (timeline : Timeline)
    (device : σ) (begun : Nat) (moves : List Move) :
    ((ofTimeline settings timeline device begun).follow backend moves).Tracked backend device := by
  apply follow_induction (P := Tracked backend device)
  · intro run m h
    exact move_keeps (P := Tracked backend device) h.step (fun asked => h) m
  · exact .nil

end Run

end TimedInput
