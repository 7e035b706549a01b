import TimedInput.Proofs.Playback.Phase

/-!
# The switches of a run

A run moves only the switches that the actions of its timeline name. An action that lets go of
whatever is held, and the release at the end, find nothing else to let go of.
-/

namespace TimedInput

/-- The switch that an action names. -/
def Action.switch? : Action → Option Switch
  | .button _ number => some (.button number)
  | .key _ code => some (.key code)
  | _ => none

/-- The call moves no switch outside the scope. -/
def Call.Within (scope : Switch → Prop) (call : Call) : Prop :=
  ∀ (sw : Switch) (press : Press), call = sw.call press → scope sw

namespace Stage

/-- The calls that were decided on and have not come back. -/
def calls : Stage → List Call
  | .issue calls _ => calls
  | .answer call _ calls _ => call :: calls
  | _ => []

/-- The events that have not begun. -/
def timeline : Stage → Timeline
  | .opening timeline => timeline
  | .await todo => todo.rest
  | .issue _ (.proceed todo) => todo.rest
  | .answer _ _ _ (.proceed todo) => todo.rest
  | _ => []

end Stage

namespace Run

variable {σ : Type} {scope : Switch → Prop}

theorem within_releases {s : InputState} (hheld : ∀ sw : Switch, sw.Held s → scope sw) {call : Call}
    (hcall : call ∈ s.releases) : call.Within scope := by
  rintro sw press rfl
  rw [InputState.releases_eq] at hcall
  obtain ⟨other, hother, heq⟩ := List.mem_map.mp hcall
  obtain ⟨rfl, -⟩ := Switch.call_inj heq
  exact hheld other (InputState.mem_switches.mp hother)

/-- An event moves the switch that it names, or it lets go of what is held. -/
theorem within_dispatch {run : Run σ} (hheld : ∀ sw : Switch, sw.Held run.state → scope sw)
    {event : Event} (hevent : ∀ sw, event.action.switch? = some sw → scope sw) {call : Call}
    (hcall : call ∈ (run.dispatch event).1) : call.Within scope := by
  rintro sw press rfl
  unfold dispatch at hcall
  cases haction : event.action with
  | unknown => simp [haction] at hcall
  | move mode x y duration =>
    by_cases hd : duration = 0
    · cases mode <;> cases sw <;> cases press <;> simp [haction, hd, Switch.call] at hcall
    · simp [haction, hd] at hcall
  | button way number =>
    rw [haction] at hevent
    have hsame : sw.call press = (Switch.button number).call way := by
      cases way <;> simp only [haction] at hcall <;> split at hcall <;>
        simp_all [Switch.call]
    exact hevent sw (congrArg some (Switch.call_inj hsame).1.symm)
  | key way code =>
    rw [haction] at hevent
    have hsame : sw.call press = (Switch.key code).call way := by
      cases way <;> simp only [haction] at hcall <;> split at hcall <;>
        simp_all [Switch.call]
    exact hevent sw (congrArg some (Switch.call_inj hsame).1.symm)
  | release target =>
    have hmem : sw.call press ∈ run.state.releases := by
      simp only [haction, List.mem_append] at hcall
      rcases hcall with hcall | hcall
      · split at hcall
        · exact List.mem_append_left _ hcall
        · cases hcall
      · split at hcall
        · exact List.mem_append_right _ hcall
        · cases hcall
    exact within_releases hheld hmem sw press rfl
  | text payload =>
    simp only [haction, List.mem_map] at hcall
    obtain ⟨c, -, heq⟩ := hcall
    cases sw <;> cases press <;> simp [Switch.call] at heq

/-- Everything that a run holds, has done and has still to do is within the scope. -/
structure Confined (scope : Switch → Prop) (run : Run σ) : Prop where
  ordered : run.state.Ordered
  held : ∀ sw : Switch, sw.Held run.state → scope sw
  log : ∀ a ∈ run.log, a.call.Within scope
  calls : ∀ call ∈ run.stage.calls, call.Within scope
  events : ∀ event ∈ run.stage.timeline, ∀ sw, event.action.switch? = some sw → scope sw

theorem Confined.drain {run : Run σ} (h : run.Confined scope) (outcome : Outcome) :
    (run.drain outcome).Confined scope :=
  ⟨h.ordered, h.held, h.log, fun _ hcall => within_releases h.held hcall, nofun⟩

theorem Confined.step {backend : Backend σ} {run : Run σ} (h : run.Confined scope) (now : Nat) :
    (run.step backend now).Confined scope := by
  obtain ⟨hordered, hheld, hlog, hcalls, hevents⟩ := h
  have ht := run.step_transition backend now
  generalize run.step backend now = next at ht
  -- a call that comes back makes nothing held but its own switch
  have hafter : ∀ {call : Call} {calls : List Call}, run.stage.calls = call :: calls →
      ∀ sw : Switch, sw.Held (run.state.after call) → scope sw := by
    intro call calls hs sw hsw
    rcases (Switch.held_after hordered sw call).mp hsw with hcall | ⟨hsw, -⟩
    · exact hcalls call (hs ▸ List.mem_cons_self) sw .down hcall
    · exact hheld sw hsw
  cases ht with
  | opened hs =>
    rw [hs] at hevents
    refine ⟨⟨hordered.keys, hordered.buttons⟩, ?_, hlog, nofun, hevents⟩
    intro sw hsw
    apply hheld sw
    cases sw <;> exact hsw
  | cancelled => exact Confined.drain ⟨hordered, hheld, hlog, hcalls, hevents⟩ .cancelled
  | @began event rest hs =>
    rw [hs] at hevents
    refine ⟨hordered, hheld, ?_, ?_, ?_⟩
    · rw [log_began]
      exact hlog
    · intro call hcall
      exact within_dispatch hheld (hevents event List.mem_cons_self) hcall
    · intro other hother
      exact hevents other (List.mem_cons_of_mem event hother)
  | glided hs =>
    rw [hs] at hevents
    refine ⟨hordered, hheld, hlog, ?_, hevents⟩
    intro call hcall sw press heq
    rw [List.mem_singleton.mp hcall] at heq
    exact absurd heq (call_ne_of_glide _ sw press)
  | exhausted => exact Confined.drain ⟨hordered, hheld, hlog, hcalls, hevents⟩ .completed
  | @called call calls next hs =>
    rw [hs] at hcalls hevents
    refine ⟨hordered, hheld, ?_, hcalls, ?_⟩
    · rw [log_beginCall]
      intro a ha
      rcases List.mem_append.mp ha with ha | ha
      · exact hlog a ha
      · rw [List.mem_singleton.mp ha]
        exact hcalls call List.mem_cons_self
    · cases next <;> exact hevents
  | @returned call calls todo hs =>
    rw [hs] at hcalls hevents hafter
    refine ⟨hordered.after call, hafter rfl, hlog, ?_, hevents⟩
    intro other hother
    exact hcalls other (List.mem_cons_of_mem call hother)
  | @failed call calls todo hs =>
    have hfailed : Confined scope { run with fault := some call } :=
      ⟨hordered, hheld, hlog, hcalls, hevents⟩
    exact hfailed.drain .failed
  | @released call ok calls outcome hs =>
    rw [hs] at hcalls hafter
    refine ⟨hordered.after call, hafter rfl, ?_, ?_, nofun⟩
    · rw [log_released]
      exact hlog
    · intro other hother
      exact hcalls other (List.mem_cons_of_mem call hother)
  | proceeded hs =>
    rw [hs] at hevents
    exact ⟨hordered, hheld, hlog, nofun, hevents⟩
  | published => exact ⟨hordered, hheld, hlog, nofun, nofun⟩
  | settled => exact ⟨hordered, hheld, hlog, hcalls, hevents⟩

theorem Confined.move {backend : Backend σ} {run : Run σ} (h : run.Confined scope) (m : Move) :
    (run.move backend m).Confined scope := by
  apply move_keeps (P := (Confined scope ·)) h.step
  obtain ⟨hordered, hheld, hlog, hcalls, hevents⟩ := h
  exact fun asked => ⟨hordered, hheld, hlog, hcalls, hevents⟩

theorem confined_ofTimeline (settings : Settings) {timeline : Timeline} (device : σ) (begun : Nat)
    (h : ∀ event ∈ timeline, ∀ sw, event.action.switch? = some sw → scope sw) :
    (ofTimeline settings timeline device begun).Confined scope := by
  refine ⟨InputState.ordered_empty none, ?_, nofun, nofun, h⟩
  intro sw hsw
  cases sw <;> cases hsw

/-- A switch that the timeline does not name is never moved, whatever the calls answer and whenever
the run is cancelled. -/
theorem within_timeline (backend : Backend σ) (settings : Settings) (timeline : Timeline)
    (device : σ) (begun : Nat) (moves : List Move) :
    ∀ a ∈ ((ofTimeline settings timeline device begun).follow backend moves).log,
      a.call.Within fun sw => ∃ event ∈ timeline, event.action.switch? = some sw := by
  have hconfined : (ofTimeline settings timeline device begun).Confined
      fun sw => ∃ event ∈ timeline, event.action.switch? = some sw := by
    apply confined_ofTimeline
    exact fun event hevent sw hsw => ⟨event, hevent, hsw⟩
  exact (follow_induction (fun _ m h => h.move m) hconfined moves).log

end Run

end TimedInput
