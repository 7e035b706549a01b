import Mathlib.Data.Finset.Basic
import TimedInput.Proofs.Playback.Course

/-!
# Redundant events

What is held between two events is found by folding over the events so far: a press down adds
its switch, a press up takes it away, and a release takes away what its target selects. An
event that would change nothing by this rule makes no calls, so a run that has one more such event
takes the same course.
-/

namespace TimedInput

def ReleaseTarget.selects (target : ReleaseTarget) : Switch → Bool
  | .key _ => target.includesKeys
  | .button _ => target.includesMouse

theorem Switch.call_eq_iff {a b : Switch} {p q : Press} : a.call p = b.call q ↔ a = b ∧ p = q := by
  constructor
  · exact Switch.call_inj
  · rintro ⟨rfl, rfl⟩
    rfl

namespace Action

/-- What is held after an action. -/
def hold (held : Finset Switch) : Action → Finset Switch
  | .key .down code => insert (.key code) held
  | .key .up code => held.erase (.key code)
  | .button .down number => insert (.button number) held
  | .button .up number => held.erase (.button number)
  | .release target => held.filter fun sw => target.selects sw = false
  | .unknown | .move .. | .text _ => held

/-- What is held already is to be pressed, or what is not held is to be let go of. -/
def IsRedundant (held : Finset Switch) : Action → Prop
  | .key .down code => .key code ∈ held
  | .key .up code => .key code ∉ held
  | .button .down number => .button number ∈ held
  | .button .up number => .button number ∉ held
  | .release target => ∀ sw ∈ held, target.selects sw = false
  | .unknown | .move .. | .text _ => False

end Action

/-- What is held after the events, if nothing is held before them. -/
def Timeline.held (timeline : Timeline) : Finset Switch :=
  timeline.foldl (fun held event => event.action.hold held) ∅

theorem Timeline.held_snoc (timeline : Timeline) (event : Event) :
    held (timeline ++ [event]) = event.action.hold timeline.held :=
  List.foldl_append

theorem Glide.call_ne_of_mem_calls (glide : Glide) :
    ∀ call ∈ glide.calls, ∀ (sw : Switch) (press : Press), call ≠ sw.call press := by
  intro call hcall sw press
  rw [calls_eq] at hcall
  rcases List.mem_cons.mp hcall with rfl | hcall
  · exact Run.call_ne_of_glide glide sw press
  · cases h : glide.next? with
    | none =>
      rw [h] at hcall
      cases hcall
    | some next =>
      rw [h] at hcall
      exact next.call_ne_of_mem_calls call hcall sw press
termination_by glide.left
decreasing_by exact left_of_next? h

theorem Glide.call_ne_of_mem_callsOf (glide : Option Glide) :
    ∀ call ∈ callsOf glide, ∀ (sw : Switch) (press : Press), call ≠ sw.call press := by
  cases glide with
  | none => exact nofun
  | some glide => exact glide.call_ne_of_mem_calls

namespace InputState

variable {s : InputState}

/-- Calls that move no switch leave everything as it is held. -/
theorem held_replay_of_idle (hs : s.Ordered) {calls : List Call}
    (h : ∀ call ∈ calls, ∀ (sw : Switch) (press : Press), call ≠ sw.call press) (sw : Switch) :
    sw.Held (s.replay (calls.map .success)) ↔ sw.Held s := by
  have hnil : presses sw (calls.map .success) = [] := by
    apply List.eq_nil_iff_forall_not_mem.mpr
    intro press hpress
    obtain ⟨a, ha, -, heq⟩ := mem_presses.mp hpress
    obtain ⟨call, hcall, rfl⟩ := List.mem_map.mp ha
    exact h call hcall sw press heq
  rw [← Switch.position_eq_down, position_replay hs, hnil, ← Switch.position_eq_down]
  rfl

theorem held_replay_ups (hs : s.Ordered) (chosen : List Switch) (sw : Switch) :
    sw.Held (s.replay ((chosen.map (·.call .up)).map .success)) ↔ sw.Held s ∧ sw ∉ chosen := by
  induction chosen generalizing s with
  | nil => simp
  | cons other chosen ih =>
    rw [List.map_cons, List.map_cons, replay_cons, attempt_success, ih (hs.after _),
      Switch.held_after hs, List.mem_cons, not_or]
    simp only [ne_eq, Switch.call_eq_iff, reduceCtorEq, and_false, false_or, and_true, and_assoc,
      eq_comm]

/-- A switch is moved, or it is there already. -/
theorem held_replay_optional (hs : s.Ordered) {moved : Switch} {press : Press}
    {calls : List Call}
    (h : (calls = [] ∧ (moved.Held s ↔ press = .down)) ∨ calls = [moved.call press])
    (sw : Switch) :
    sw.Held (s.replay (calls.map .success)) ↔ if sw = moved then press = .down else sw.Held s := by
  rcases h with ⟨rfl, hheld⟩ | rfl
  · split
    · rename_i hsw
      rw [hsw]
      exact hheld
    · rfl
  · rw [List.map_singleton, replay_cons, attempt_success, replay_nil, Switch.held_after hs]
    by_cases hsw : sw = moved
    · cases press <;> simp [hsw, Switch.call_eq_iff]
    · simp [hsw, Switch.call_eq_iff, Ne.symm hsw]

end InputState

namespace Event

variable (settings : Settings) {s : InputState} {event : Event}

theorem calls_button {press : Press} {number : Int32} (h : event.action = .button press number) :
    (event.calls settings s = [] ∧ ((Switch.button number).Held s ↔ press = .down)) ∨
      event.calls settings s = [(Switch.button number).call press] := by
  by_cases hheld : number ∈ s.buttons <;> cases press <;>
    simp [calls, Run.dispatch, h, hheld, Glide.callsOf, Switch.Held, Switch.call]

theorem calls_key {press : Press} {code : KeyCode} (h : event.action = .key press code) :
    (event.calls settings s = [] ∧ ((Switch.key code).Held s ↔ press = .down)) ∨
      event.calls settings s = [(Switch.key code).call press] := by
  by_cases hheld : code ∈ s.keys <;> cases press <;>
    simp [calls, Run.dispatch, h, hheld, Glide.callsOf, Switch.Held, Switch.call]

theorem calls_release {target : ReleaseTarget} (h : event.action = .release target) :
    event.calls settings s = (s.switches.filter target.selects).map (·.call .up) := by
  have hkeys : (s.keys.map Switch.key).filter target.selects =
      if target.includesKeys then s.keys.map .key else [] := by
    rw [List.filter_map]
    cases hincluded : target.includesKeys <;>
      simp [Function.comp_def, ReleaseTarget.selects, hincluded]
  have hbuttons : (s.buttons.map Switch.button).filter target.selects =
      if target.includesMouse then s.buttons.map .button else [] := by
    rw [List.filter_map]
    cases hincluded : target.includesMouse <;>
      simp [Function.comp_def, ReleaseTarget.selects, hincluded]
  rw [InputState.switches, List.filter_append, hkeys, hbuttons, List.map_append]
  simp only [calls, Run.dispatch, h, Glide.callsOf, Option.elim_none, List.append_nil,
    InputState.keyReleases_eq, InputState.buttonReleases_eq]
  split <;> split <;> rfl

theorem call_ne_of_move {mode : MoveMode} {x y : Int32} {duration : UInt64}
    (h : event.action = .move mode x y duration) :
    ∀ call ∈ event.calls settings s, ∀ (sw : Switch) (press : Press), call ≠ sw.call press := by
  intro call hcall sw press
  simp only [calls, Run.dispatch, h] at hcall
  by_cases hduration : duration = 0
  · cases mode <;> cases sw <;> cases press <;>
      simp_all [Glide.callsOf, Switch.call]
  · simp only [hduration, if_false, List.nil_append] at hcall
    exact Glide.call_ne_of_mem_callsOf _ call hcall sw press

theorem call_ne_of_text {payload : Bytes} (h : event.action = .text payload) :
    ∀ call ∈ event.calls settings s, ∀ (sw : Switch) (press : Press), call ≠ sw.call press := by
  intro call hcall sw press
  simp only [calls, Run.dispatch, h, Glide.callsOf, Option.elim_none, List.append_nil] at hcall
  obtain ⟨c, -, rfl⟩ := List.mem_map.mp hcall
  cases sw <;> cases press <;> simp [Switch.call]

theorem held_calls (hs : s.Ordered) {held : Finset Switch} (hheld : ∀ sw, sw ∈ held ↔ sw.Held s)
    (sw : Switch) :
    sw.Held (s.replay ((event.calls settings s).map .success)) ↔
      sw ∈ event.action.hold held := by
  cases haction : event.action with
  | unknown =>
    have hnil : event.calls settings s = [] := by
      simp [calls, Run.dispatch, haction, Glide.callsOf]
    rw [hnil]
    exact (hheld sw).symm
  | move mode x y duration =>
    rw [InputState.held_replay_of_idle hs (call_ne_of_move settings haction)]
    exact (hheld sw).symm
  | button press number =>
    rw [InputState.held_replay_optional hs (calls_button settings haction)]
    cases press <;> by_cases hsw : sw = .button number <;> simp [Action.hold, hsw, hheld]
  | key press code =>
    rw [InputState.held_replay_optional hs (calls_key settings haction)]
    cases press <;> by_cases hsw : sw = .key code <;> simp [Action.hold, hsw, hheld]
  | release target =>
    rw [calls_release settings haction, InputState.held_replay_ups hs, List.mem_filter,
      InputState.mem_switches]
    simp only [Action.hold, Finset.mem_filter, hheld, not_and, Bool.not_eq_true]
    exact ⟨fun h => ⟨h.1, h.2 h.1⟩, fun h => ⟨h.1, fun _ => h.2⟩⟩
  | text payload =>
    rw [InputState.held_replay_of_idle hs (call_ne_of_text settings haction)]
    exact (hheld sw).symm

theorem calls_of_isRedundant {held : Finset Switch} (hheld : ∀ sw, sw ∈ held ↔ sw.Held s)
    (h : event.action.IsRedundant held) : event.calls settings s = [] := by
  cases haction : event.action with
  | button press number =>
    rw [haction] at h
    have hiff := hheld (.button number)
    cases press <;>
      simp_all [Action.IsRedundant, Switch.Held, calls, Run.dispatch, Glide.callsOf]
  | key press code =>
    rw [haction] at h
    have hiff := hheld (.key code)
    cases press <;>
      simp_all [Action.IsRedundant, Switch.Held, calls, Run.dispatch, Glide.callsOf]
  | release target =>
    rw [haction] at h
    rw [calls_release settings haction, List.map_eq_nil_iff, List.filter_eq_nil_iff]
    intro sw hsw
    rw [h sw ((hheld sw).mpr (InputState.mem_switches.mp hsw))]
    exact Bool.false_ne_true
  | _ =>
    rw [haction] at h
    exact h.elim

end Event

namespace Course

variable {answer : List Call → Bool} {settings : Settings} {first : InputState}

theorem held_play (hfirst : first.Ordered) (hempty : ∀ sw : Switch, ¬sw.Held first)
    {timeline : Timeline} (h : ((initial first).play answer settings timeline).fault = none) :
    ((initial first).play answer settings timeline).state.Ordered ∧
      ∀ sw : Switch, sw ∈ timeline.held ↔
        sw.Held ((initial first).play answer settings timeline).state := by
  induction timeline using List.reverseRecOn with
  | nil =>
    refine ⟨hfirst, fun sw => iff_of_false (Finset.notMem_empty sw) (hempty sw)⟩
  | append_singleton timeline event ih =>
    rw [play_snoc] at h ⊢
    have hbefore : ((initial first).play answer settings timeline).fault = none := by
      by_contra hfault
      rw [performAll_of_fault hfault] at h
      exact hfault h
    obtain ⟨hordered, hheld⟩ := ih hbefore
    rw [performAll_of_ok h]
    refine ⟨hordered.replay _, fun sw => ?_⟩
    rw [Timeline.held_snoc]
    exact (Event.held_calls settings hordered hheld sw).symm

/-- A redundant event changes nothing, whatever follows it. -/
theorem play_of_isRedundant (hfirst : first.Ordered) (hempty : ∀ sw : Switch, ¬sw.Held first)
    {before : Timeline} {event : Event} (h : event.action.IsRedundant before.held)
    (after : Timeline) :
    (initial first).play answer settings (before ++ event :: after) =
      (initial first).play answer settings (before ++ after) := by
  have hevent : (initial first).play answer settings (before ++ [event]) =
      (initial first).play answer settings before := by
    rw [play_snoc]
    by_cases hfault : ((initial first).play answer settings before).fault = none
    · obtain ⟨-, hheld⟩ := held_play hfirst hempty hfault
      rw [Event.calls_of_isRedundant settings hheld h]
      rfl
    · exact performAll_of_fault hfault _
  rw [List.append_cons, play_append, hevent, play_append]

end Course

namespace Run

/-- The run of a timeline that nobody cancels, on a backend whose answers depend on the calls made
so far. It comes to be between any two events, unless a call for the events before has failed; then
it never begins another event. Whenever it is between two events, it holds what the events before
say. With one event more that is redundant where it stands, or with one less, it makes the same
calls and ends in the same way, whenever the steps are made. -/
theorem redundancy_law {σ : Type} {backend : Backend σ} (settings : Settings) {device : σ}
    (hanswers : backend.AnswersByCalls device) (timeline : Timeline) (begun : Nat)
    (instants : Nat → Nat) :
    let plain := (ofTimeline settings timeline device begun).nth backend.passive instants
    (∀ done rest, timeline = done ++ rest →
      (∃ n, (plain n).stage = .await ⟨none, rest⟩ ∧ (plain n).events = done) ∨
        (∃ n, (plain n).fault ≠ none) ∧ ∀ n, (plain n).events <+: done) ∧
    (∀ n rest, (plain n).stage = .await ⟨none, rest⟩ →
      timeline = (plain n).events ++ rest ∧
        (plain n).state.keys.Pairwise (· < ·) ∧ (plain n).state.buttons.Pairwise (· < ·) ∧
        ∀ sw : Switch, sw.Held (plain n).state ↔ sw ∈ Timeline.held (plain n).events) ∧
    (∃ m, (plain m).isOver = true) ∧
    ∀ before event after, timeline = before ++ event :: after →
      event.action.IsRedundant (Timeline.held before) → ∀ begun' instants',
        let other := (ofTimeline settings (before ++ after) device begun').nth backend.passive
          instants'
        (∃ n, (other n).isOver = true) ∧
        ∀ m n, (plain m).isOver = true → (other n).isOver = true →
          (plain m).log = (other n).log ∧
          (Player.started (plain m)).state = (Player.started (other n)).state ∧
          (Player.started (plain m)).error = (Player.started (other n)).error ∧
          (Player.started (plain m)).inputState = (Player.started (other n)).inputState := by
  intro plain
  obtain ⟨answer, hanswer⟩ := hanswers
  have hfirst := InputState.ordered_empty (backend.pointer device)
  have hempty : ∀ sw : Switch, ¬sw.Held ⟨[], [], backend.pointer device⟩ := by
    intro sw
    cases sw <;> exact List.not_mem_nil
  refine ⟨?_, ?_, exists_nth_isOver .., ?_⟩
  · intro done rest htimeline
    exact exists_between_or_failed rfl hanswer instants htimeline
  · intro n rest hs
    have hopen : (plain n).outcome? = none := by rw [outcome?, hs]
    have hunderway := underway_of_open rfl hanswer instants hopen
    have hevents := hunderway.events_append
    rw [hs] at hevents
    have hcourse := hunderway.course_eq hs
    have hfault := congrArg Course.fault hcourse
    rw [course, hunderway.fault_eq] at hfault
    obtain ⟨hordered, hheld⟩ := Course.held_play hfirst hempty hfault.symm
    rw [← hcourse] at hordered hheld
    exact ⟨hevents.symm, hordered.keys, hordered.buttons, fun sw => (hheld sw).symm⟩
  · rintro before event after rfl hredundant begun' instants' other
    refine ⟨exists_nth_isOver .., fun m n hm hn => ?_⟩
    have hcourse : (Course.initial ⟨[], [], backend.pointer device⟩).play answer settings
          (before ++ event :: after) =
        (Course.initial ⟨[], [], backend.pointer device⟩).play answer settings
          (before ++ after) :=
      Course.play_of_isRedundant hfirst hempty hredundant after
    obtain ⟨hlog, hstage, hfault, hstate⟩ :=
      eq_of_course rfl hanswer instants rfl hcourse instants' hm hn
    refine ⟨hlog, ?_, ?_, ?_⟩
    · simp only [Player.state]
      rw [hstage]
    · rw [Player.error, Player.error, if_pos hm, if_pos hn, hfault]
    · rw [Player.inputState, Player.inputState, if_pos hm, if_pos hn, hstate]

theorem redundancy_law_pressed_twice :
    let before : Timeline := [⟨0, .key .down ⟨97⟩, 0⟩]
    let again : Event := ⟨7, .key .down ⟨97⟩, 1⟩
    let after : Timeline := [⟨3, .key .up ⟨97⟩, 2⟩]
    let plain := (ofTimeline .standard (before ++ again :: after) Rehearsal.smooth 0).nth
      Rehearsal.backend.passive id
    let other := (ofTimeline .standard (before ++ after) Rehearsal.smooth 0).nth
      Rehearsal.backend.passive id
    again.action.IsRedundant before.held ∧ (plain 20).isOver = true ∧ (other 20).isOver = true ∧
      (plain 20).log = (other 20).log := by
  intro before again after plain other
  have hredundant : again.action.IsRedundant before.held := Finset.mem_insert_self _ _
  have hover : (plain 20).isOver = true := by decide +kernel
  have hover' : (other 20).isOver = true := by decide +kernel
  obtain ⟨-, -, -, hlaw⟩ := redundancy_law .standard (Rehearsal.answersByCalls .smooth)
    (before ++ again :: after) 0 id
  obtain ⟨-, hsame⟩ := hlaw before again after rfl hredundant 0 id
  exact ⟨hredundant, hover, hover', (hsame 20 20 hover hover').1⟩

end Run

end TimedInput
