import TimedInput.Backend.Rehearsal
import TimedInput.Proofs.Playback.Phase

/-!
# The life of a player

The owner of a player and its worker act on it in any order. An owner that waits is told the
state at the moment when the wait ends, which can only be a moment at which nothing plays.
A history lists the acts with their answers from the creation of the player on.
-/

namespace TimedInput

variable {σ : Type}

namespace Player

/-- What the owner can ask of a player, and the one thing that its worker does. -/
inductive Act where
  | start (script : Script) (now : Nat)
  | cancel
  | wait
  | waitFor (span : Nat)
  | sleep (span : Nat)
  | getState
  | getError
  | getInputState
  | work (now : Nat)
  deriving DecidableEq, Repr

inductive Answer where
  | done
  | accepted (ok : Bool)
  | state (state : PlayState)
  | settled (ok : Bool)
  | error (text : Bytes)
  | inputState (state : InputState)
  deriving DecidableEq, Repr

/-- The answer to a start by which the player has begun to play. -/
def Answer.isAccepted : Answer → Bool
  | .accepted ok => ok
  | _ => false

/-- The player after an act and the answer to it. A wait cannot end while something plays. -/
def act? (backend : Backend σ) (settings : Settings) (player : Player σ) :
    Act → Option (Player σ × Answer)
  | .start script now =>
    let (next, ok) := player.start settings script now
    some (next, .accepted ok)
  | .cancel => some (player.cancel, .done)
  | .wait => if player.state = .running then none else some (player, .state player.state)
  | .waitFor _ => some (player, .settled (player.state != .running))
  | .sleep _ => some (player, .done)
  | .getState => some (player, .state player.state)
  | .getError => some (player, .error player.error)
  | .getInputState => some (player, .inputState player.inputState)
  | .work now => some (player.work backend now, .done)

/-- What has happened to a player since it was made, the earliest first. -/
inductive History (backend : Backend σ) (settings : Settings) (device : Option σ) :
    List (Act × Answer) → Player σ → Prop where
  | nil : History backend settings device [] (.idle device)
  | snoc {events : List (Act × Answer)} {player next : Player σ} {act : Act} {answer : Answer}
    (h : History backend settings device events player)
    (hact : player.act? backend settings act = some (next, answer)) :
    History backend settings device (events ++ [(act, answer)]) next

/-- The number of times that the player has begun to play. -/
def starts (events : List (Act × Answer)) : Nat :=
  events.countP (·.2.isAccepted)

@[simp] theorem starts_snoc (events : List (Act × Answer)) (act : Act) (answer : Answer) :
    starts (events ++ [(act, answer)]) =
      starts events + if answer.isAccepted = true then 1 else 0 := by
  simp [starts, List.countP_append, List.countP_singleton]

def log (player : Player σ) : List Attempt :=
  attempts player.history

@[simp] theorem state_started (run : Run σ) :
    (started run).state = .running ↔ run.isOver = false := by
  cases hs : run.stage with
  | ended outcome =>
    cases outcome <;> simp [state, Run.isOver, Stage.isOver, hs, PlayState.ofOutcome]
  | _ => simp [state, Run.isOver, Stage.isOver, hs]

theorem state_started_of_ended {run : Run σ} {outcome : Outcome}
    (h : run.stage = .ended outcome) : (started run).state = .ofOutcome outcome := by
  simp [state, h]

theorem isFinal_of_isOver {run : Run σ} (h : run.isOver = true) :
    (started run).state.isFinal = true := by
  obtain ⟨outcome, hs⟩ := Run.exists_of_isOver h
  rw [state_started_of_ended hs]
  cases outcome <;> rfl

/-- All that an act can do to a player. -/
inductive Change (backend : Backend σ) (settings : Settings) :
    Player σ → Act → Player σ → Answer → Prop where
  | accepted (device : σ) {script : Script} (now : Nat) (hvalid : script.isValid = true) :
    Change backend settings (.idle (some device)) (.start script now)
      (.started (Run.ofTimeline settings script.timeline device now)) (.accepted true)
  | dismissed (device : Option σ) :
    Change backend settings (.idle device) .cancel .dismissed .done
  | asked {run : Run σ} (hover : run.isOver = false) :
    Change backend settings (.started run) .cancel (.started run.requestCancel) .done
  | worked {run : Run σ} (now : Nat) (hover : run.isOver = false) :
    Change backend settings (.started run) (.work now) (.started (run.step backend now)) .done
  | kept {player : Player σ} {act : Act} {answer : Answer} (hanswer : answer.isAccepted = false) :
    Change backend settings player act player answer

theorem act?_change {backend : Backend σ} {settings : Settings} {player next : Player σ}
    {act : Act} {answer : Answer} (h : player.act? backend settings act = some (next, answer)) :
    Change backend settings player act next answer := by
  cases act with
  | start script now =>
    simp only [act?, Option.some.injEq, Prod.mk.injEq] at h
    obtain ⟨rfl, rfl⟩ := h
    cases player with
    | idle device =>
      cases device with
      | none => exact .kept rfl
      | some device =>
        by_cases hvalid : script.isValid = true
        · have h : Change backend settings _ _ _ _ := .accepted device now hvalid
          simpa [start, hvalid] using h
        · simpa [start, hvalid] using .kept rfl
    | dismissed => exact .kept rfl
    | started run => exact .kept rfl
  | cancel =>
    simp only [act?, Option.some.injEq, Prod.mk.injEq] at h
    obtain ⟨rfl, rfl⟩ := h
    cases player with
    | idle device => exact .dismissed device
    | dismissed => exact .kept rfl
    | started run =>
      by_cases hover : run.isOver = true
      · simpa [cancel, hover] using .kept rfl
      · rw [cancel_started]
        exact .asked (by simpa using hover)
  | wait =>
    by_cases hs : player.state = .running
    · simp [act?, hs] at h
    · simp only [act?, hs, if_false, Option.some.injEq, Prod.mk.injEq] at h
      obtain ⟨rfl, rfl⟩ := h
      exact .kept rfl
  | work now =>
    simp only [act?, Option.some.injEq, Prod.mk.injEq] at h
    obtain ⟨rfl, rfl⟩ := h
    cases player with
    | started run =>
      by_cases hover : run.isOver = true
      · simp only [work, Run.step_of_isOver hover]
        exact .kept rfl
      · exact .worked now (by simpa using hover)
    | _ => exact .kept rfl
  | _ =>
    simp only [act?, Option.some.injEq, Prod.mk.injEq] at h
    obtain ⟨rfl, rfl⟩ := h
    exact .kept rfl

end Player

namespace Run

/-- A call has failed if the run is to end as a failure, and not otherwise. -/
def Faulted (run : Run σ) : Prop :=
  run.fault.isSome = true ↔ run.outcome? = some .failed

theorem Faulted.step {backend : Backend σ} {run : Run σ} (h : run.Faulted) (now : Nat) :
    (run.step backend now).Faulted := by
  unfold Faulted outcome? at h
  have ht := run.step_transition backend now
  generalize run.step backend now = next at ht
  cases ht with
  | cancelled hpolls =>
    obtain ⟨todo, hs, -⟩ := exists_of_polls hpolls
    simp_all [Faulted, outcome?, drain]
  | @called call calls next hs => cases next <;> simp_all [Faulted, outcome?, beginCall]
  | settled hs => simpa [Faulted, outcome?] using h
  | _ => simp_all [Faulted, outcome?, drain]

theorem Faulted.requestCancel {run : Run σ} (h : run.Faulted) : run.requestCancel.Faulted := by
  unfold Run.requestCancel
  split <;> exact h

end Run

namespace Player

/-- What the events say of the player. -/
def Lived (device : Option σ) (events : List (Act × Answer)) : Player σ → Prop
  | .idle own => own = device ∧ starts events = 0
  | .dismissed => starts events = 0
  | .started run => device.isSome = true ∧ starts events = 1 ∧ run.Faulted

theorem History.lived {backend : Backend σ} {settings : Settings} {device : Option σ}
    {events : List (Act × Answer)} {player : Player σ}
    (h : History backend settings device events player) : Lived device events player := by
  induction h with
  | nil => exact ⟨rfl, rfl⟩
  | @snoc events player next act answer _ hact ih =>
    have hchange := act?_change hact
    cases hchange with
    | accepted own now hvalid =>
      obtain ⟨rfl, hstarts⟩ := ih
      refine ⟨rfl, by simp [hstarts, Answer.isAccepted], ?_⟩
      simp [Run.Faulted, Run.outcome?, Run.ofTimeline]
    | dismissed own => simpa [Lived, Answer.isAccepted] using ih.2
    | asked hover =>
      obtain ⟨hdevice, hstarts, hfaulted⟩ := ih
      exact ⟨hdevice, by simp [hstarts, Answer.isAccepted], hfaulted.requestCancel⟩
    | worked now hover =>
      obtain ⟨hdevice, hstarts, hfaulted⟩ := ih
      exact ⟨hdevice, by simp [hstarts, Answer.isAccepted], hfaulted.step now⟩
    | kept hanswer =>
      have hstarts : starts (events ++ [(act, answer)]) = starts events := by simp [hanswer]
      cases player <;> simpa only [Lived, hstarts] using ih

theorem Lived.starts_le_one {device : Option σ} {events : List (Act × Answer)}
    {player : Player σ} (h : Lived device events player) : starts events ≤ 1 := by
  cases player with
  | idle own => exact h.2.le.trans (Nat.zero_le 1)
  | dismissed => exact (le_of_eq h).trans (Nat.zero_le 1)
  | started run => exact h.2.1.le

theorem Lived.exists_run {device : Option σ} {events : List (Act × Answer)} {player : Player σ}
    (h : Lived device events player) (hstarts : 0 < starts events) :
    ∃ run, player = .started run := by
  cases player with
  | idle own => exact absurd h.2 hstarts.ne'
  | dismissed => exact absurd h hstarts.ne'
  | started run => exact ⟨run, rfl⟩

theorem failure_ne_nil (call : Call) : call.failure ≠ [] := by
  have hopen : ascii "(" ≠ [] := by decide
  simp [Call.failure, hopen]

/-- There is a reason of failure in the state of failure and in no other. -/
theorem Lived.error_ne_nil_iff {device : Option σ} {events : List (Act × Answer)}
    {player : Player σ} (h : Lived device events player) :
    player.error ≠ [] ↔ player.state = .failed := by
  cases player with
  | idle own => simp [error, state]
  | dismissed => simp [error, state]
  | started run =>
    obtain ⟨-, -, hfaulted⟩ := h
    cases hs : run.stage with
    | ended outcome =>
      -- a failure names the call that failed, so its text is not empty
      have hover : run.isOver = true := by simp [Run.isOver, Stage.isOver, hs]
      have hoption : ((run.fault.map Call.failure).getD [] ≠ []) ↔ run.fault.isSome = true := by
        cases run.fault <;> simp [failure_ne_nil]
      simp only [error, hover, if_true]
      rw [hoption, state_started_of_ended hs]
      refine hfaulted.trans ?_
      cases outcome <;> simp [Run.outcome?, hs, PlayState.ofOutcome]
    | _ => simp [error, state, Run.isOver, Stage.isOver, hs]

/-- The state goes from idle to running and from there to a final state, or from idle to cancelled,
and a final state is never left. -/
theorem state_of_change {backend : Backend σ} {settings : Settings} {player next : Player σ}
    {act : Act} {answer : Answer} (h : Change backend settings player act next answer) :
    next.state = player.state ∨
      (player.state = .idle ∧ next.state = .running ∧ answer = .accepted true) ∨
      (player.state = .idle ∧ next.state = .cancelled ∧ act = .cancel) ∨
      (player.state = .running ∧ next.state.isFinal = true ∧ ∃ now, act = .work now) := by
  cases h with
  | accepted device now hvalid => exact .inr (.inl ⟨rfl, rfl, rfl⟩)
  | dismissed device => exact .inr (.inr (.inl ⟨rfl, rfl, rfl⟩))
  | @asked run hover =>
    refine .inl ?_
    rw [(state_started run).mpr hover, state_started]
    simpa [Run.isOver] using hover
  | @worked run now hover =>
    cases hnext : (run.step backend now).isOver with
    | false =>
      refine .inl ?_
      rw [(state_started run).mpr hover, state_started, hnext]
    | true =>
      exact .inr (.inr (.inr ⟨(state_started run).mpr hover, isFinal_of_isOver hnext, now, rfl⟩))
  | kept => exact .inl rfl

theorem eq_of_isFinal {backend : Backend σ} {settings : Settings} {player next : Player σ}
    {act : Act} {answer : Answer} (h : Change backend settings player act next answer)
    (hfinal : player.state.isFinal = true) : next = player := by
  cases h with
  | accepted device now hvalid => cases hfinal
  | dismissed device => cases hfinal
  | asked hover =>
    rw [(state_started _).mpr hover] at hfinal
    cases hfinal
  | worked now hover =>
    rw [(state_started _).mpr hover] at hfinal
    cases hfinal
  | kept => rfl

/-- What the player tells about its run changes only in the step that ends it. -/
theorem told_of_change {backend : Backend σ} {settings : Settings} {player next : Player σ}
    {act : Act} {answer : Answer} (h : Change backend settings player act next answer) :
    (next.error = player.error ∧ next.inputState = player.inputState) ∨
      player.state = .running ∧ next.state.isFinal = true := by
  cases h with
  | @asked run hover =>
    have hasked : run.requestCancel.isOver = false := by simpa [Run.isOver] using hover
    exact .inl (by simp [error, inputState, hover, hasked])
  | @worked run now hover =>
    cases hnext : (run.step backend now).isOver with
    | false => exact .inl (by simp [error, inputState, hover, hnext])
    | true => exact .inr ⟨(state_started run).mpr hover, isFinal_of_isOver hnext⟩
  | _ => exact .inl ⟨rfl, rfl⟩

/-- Only the work on a run makes calls. -/
theorem log_of_change {backend : Backend σ} {settings : Settings} {player next : Player σ}
    {act : Act} {answer : Answer} (h : Change backend settings player act next answer) :
    next.log = player.log ∨ player.state = .running ∧ ∃ now, act = .work now := by
  cases h with
  | @asked run hover => exact .inl run.requestCancel_log
  | @worked run now hover => exact .inr ⟨(state_started run).mpr hover, now, rfl⟩
  | _ => exact .inl rfl

theorem act?_eq_of_not_working {backend other : Backend σ} {settings : Settings}
    {player : Player σ} {act : Act} (h : player.state = .running → ∀ now, act ≠ .work now) :
    player.act? other settings act = player.act? backend settings act := by
  cases act with
  | work now =>
    cases player with
    | started run =>
      have hover : run.isOver = true := by
        by_contra hover
        exact h ((state_started run).mpr (by simpa using hover)) now rfl
      simp only [act?, work, Run.step_of_isOver hover]
    | _ => rfl
  | _ => rfl

/-- A player begins to play if it is idle, has a device and is given a script without errors. -/
theorem start_accepted_iff {settings : Settings} {device : Option σ}
    {events : List (Act × Answer)} {player : Player σ} (h : Lived device events player)
    (script : Script) (now : Nat) :
    (player.start settings script now).2 = true ↔
      player.state = .idle ∧ device.isSome = true ∧ script.isValid = true := by
  cases player with
  | idle own =>
    obtain ⟨rfl, -⟩ := h
    cases own <;> cases hvalid : script.isValid <;> simp [start, state, hvalid]
  | dismissed => simp [start, state]
  | started run =>
    have hstate : (started run).state ≠ .idle := by
      cases hs : run.stage with
      | ended outcome => cases outcome <;> simp [state, hs, PlayState.ofOutcome]
      | _ => simp [state, hs]
    simp [start, hstate]

theorem wait_answer {backend : Backend σ} {settings : Settings} {player next : Player σ}
    {answer : Answer} (h : player.act? backend settings .wait = some (next, answer)) :
    answer = .state player.state ∧ player.state ≠ .running := by
  by_cases hrunning : player.state = .running
  · simp [act?, hrunning] at h
  · simp only [act?, hrunning, if_false, Option.some.injEq, Prod.mk.injEq] at h
    exact ⟨h.2.symm, hrunning⟩

theorem start_refused {settings : Settings} {player : Player σ} {script : Script} {now : Nat}
    (h : (player.start settings script now).2 = false) :
    (player.start settings script now).1 = player := by
  cases player with
  | idle own =>
    cases own with
    | none => rfl
    | some device => cases hvalid : script.isValid <;> simp_all [start]
  | _ => rfl

/-- One more act, after whatever has happened to a player. The state moves from idle to running and
on to a final state, or from idle to cancelled, and what is final stays as it is. A start is
accepted exactly if the player is idle and has a device and the script has no errors, so at most
once, and one that is refused changes nothing. Calls are made only by the work on a run, after an
accepted start and before the state is final; no other act depends on the backend. The error and
the input state change only in the step that makes the state final, and there is an error exactly
if that state is failure. A wait that follows an accepted start answers with a final state. -/
theorem life_cycle {backend : Backend σ} {settings : Settings} {device : Option σ}
    {events : List (Act × Answer)} {player next : Player σ} {act : Act} {answer : Answer}
    (hhistory : History backend settings device events player)
    (hact : player.act? backend settings act = some (next, answer)) :
    (next.state = player.state ∨
      (player.state = .idle ∧ next.state = .running ∧ answer = .accepted true) ∨
      (player.state = .idle ∧ next.state = .cancelled ∧ act = .cancel) ∨
      (player.state = .running ∧ next.state.isFinal = true ∧ ∃ now, act = .work now)) ∧
    (player.state.isFinal = true → next = player) ∧
    (∀ script now, act = .start script now →
      (answer = .accepted true ↔
        player.state = .idle ∧ device.isSome = true ∧ script.isValid = true) ∧
      (answer = .accepted true ∨ answer = .accepted false ∧ next = player)) ∧
    starts (events ++ [(act, answer)]) ≤ 1 ∧
    (next.log = player.log ∨ player.state = .running ∧ ∃ now, act = .work now) ∧
    ((player.state = .running → ∀ now, act ≠ .work now) →
      ∀ other : Backend σ, player.act? other settings act = some (next, answer)) ∧
    (player.state = .running → starts events = 1) ∧
    ((next.error = player.error ∧ next.inputState = player.inputState) ∨
      player.state = .running ∧ next.state.isFinal = true) ∧
    (next.error ≠ [] ↔ next.state = .failed) ∧
    (act = .wait → 0 < starts events →
      answer = .state player.state ∧ player.state.isFinal = true) := by
  have hlived := hhistory.lived
  have hnext := (hhistory.snoc hact).lived
  have hchange := act?_change hact
  refine ⟨state_of_change hchange, eq_of_isFinal hchange, ?_, ?_, log_of_change hchange, ?_, ?_,
    told_of_change hchange, hnext.error_ne_nil_iff, ?_⟩
  · rintro script now rfl
    simp only [act?, Option.some.injEq, Prod.mk.injEq] at hact
    obtain ⟨rfl, rfl⟩ := hact
    refine ⟨?_, ?_⟩
    · rw [Answer.accepted.injEq]
      exact start_accepted_iff hlived script now
    · cases hok : (player.start settings script now).2 with
      | true => exact .inl rfl
      | false => exact .inr ⟨rfl, start_refused hok⟩
  · exact hnext.starts_le_one
  · intro hnot other
    rw [act?_eq_of_not_working hnot, hact]
  · intro hrunning
    cases player with
    | started run => exact hlived.2.1
    | _ => cases hrunning
  · rintro rfl hstarts
    obtain ⟨run, rfl⟩ := hlived.exists_run hstarts
    obtain ⟨hanswer, hsettled⟩ := wait_answer hact
    refine ⟨hanswer, isFinal_of_isOver ?_⟩
    by_contra hover
    exact hsettled ((state_started run).mpr (by simpa using hover))

theorem life_cycle_wait_after_start :
    let events : List (Act × Answer) :=
      [(.start .empty 0, .accepted true), (.work 0, .done), (.work 0, .done), (.work 0, .done)]
    ∃ player, History Rehearsal.backend .standard (some .smooth) events player ∧
      player.act? Rehearsal.backend .standard .wait = some (player, .state .completed) ∧
      player.state.isFinal = true := by
  intro events
  let run := (Run.ofTimeline .standard [] Rehearsal.smooth 0).follow Rehearsal.backend
    [.step 0, .step 0, .step 0]
  have hhistory : History Rehearsal.backend .standard (some .smooth) events (.started run) :=
    .snoc (.snoc (.snoc (.snoc .nil rfl) rfl) rfl) rfl
  have hwait : (started run).act? Rehearsal.backend .standard .wait =
      some (.started run, .state .completed) := rfl
  obtain ⟨-, -, -, -, -, -, -, -, -, hfinal⟩ := life_cycle hhistory hwait
  exact ⟨.started run, hhistory, hwait, (hfinal rfl (by decide)).2⟩

end Player

end TimedInput
