import TimedInput.Proofs.Playback.Glides
import TimedInput.Proofs.Playback.Redundancy
import TimedInput.Proofs.Script.Resolution

/-!
# Retiming

How long a move takes, and how often a glide makes a step, decides where the pointer is on the
way and nothing else. Every run without failures is compared with the course of the same events
without durations, in which each move is a single call.
-/

namespace TimedInput

namespace Call

def isMove : Call → Bool
  | .moveAbsolute .. | .moveRelative .. => true
  | _ => false

end Call

theorem Switch.isMove_call (sw : Switch) (press : Press) : (sw.call press).isMove = false := by
  cases sw <;> cases press <;> rfl

/-- The calls that do not move the pointer. -/
def still (log : List Attempt) : List Attempt :=
  log.filter fun a => !a.call.isMove

@[simp] theorem still_append (log more : List Attempt) :
    still (log ++ more) = still log ++ still more :=
  List.filter_append ..

theorem still_of_moves {calls : List Call} (h : ∀ call ∈ calls, call.isMove = true) :
    still (calls.map .success) = [] := by
  apply List.filter_eq_nil_iff.mpr
  intro a ha
  obtain ⟨call, hcall, rfl⟩ := List.mem_map.mp ha
  simp [Attempt.success, h call hcall]

namespace Action

def untimed : Action → Action
  | .move mode x y _ => .move mode x y 0
  | action => action

/-- Where the pointer is after an action, as far as that is known. -/
def place (pointer : Option Point) : Action → Option Point
  | .move .absolute x y _ => some ⟨x, y⟩
  | .move .relative x y _ => pointer.map (· + ⟨x, y⟩)
  | _ => pointer

theorem place_untimed (action : Action) (pointer : Option Point) :
    action.untimed.place pointer = action.place pointer := by
  cases action with
  | move mode x y duration => cases mode <;> rfl
  | _ => rfl

end Action

/-- The event with a move that takes no time. -/
def Event.untimed (event : Event) : Event :=
  { event with action := event.action.untimed }

def Timeline.place (timeline : Timeline) (pointer : Option Point) : Option Point :=
  timeline.foldl (fun pointer event => event.action.place pointer) pointer

theorem Timeline.place_untimed (timeline : Timeline) (pointer : Option Point) :
    place (timeline.map Event.untimed) pointer = timeline.place pointer := by
  rw [place, List.foldl_map, place]
  congr 1
  funext pointer event
  exact event.action.place_untimed pointer

theorem Timeline.place_snoc (timeline : Timeline) (event : Event) (pointer : Option Point) :
    place (timeline ++ [event]) pointer = event.action.place (timeline.place pointer) :=
  List.foldl_append

namespace InputState

variable {s : InputState} {calls : List Call}

theorem replay_absolute {p : Point}
    (h : ∀ call ∈ calls, ∃ q : Point, call = .moveAbsolute q.x q.y)
    (hlast : calls.getLast? = some (.moveAbsolute p.x p.y)) :
    s.replay (calls.map .success) = s.setPointer p := by
  induction calls generalizing s with
  | nil => cases hlast
  | cons call calls ih =>
    obtain ⟨q, rfl⟩ := h call List.mem_cons_self
    rw [List.map_cons, replay_cons, attempt_success]
    cases calls with
    | nil =>
      obtain ⟨hx, hy⟩ : q.x = p.x ∧ q.y = p.y := by simpa using hlast
      rw [hx, hy]
      rfl
    | cons next calls =>
      rw [List.getLast?_cons_cons] at hlast
      exact ih (fun call hcall => h call (List.mem_cons_of_mem _ hcall)) hlast

theorem pointer_replay_still (h : ∀ call ∈ calls, call.isMove = false) :
    (s.replay (calls.map .success)).pointer = s.pointer := by
  induction calls generalizing s with
  | nil => rfl
  | cons call calls ih =>
    have hcall := h call List.mem_cons_self
    rw [List.map_cons, replay_cons, attempt_success,
      ih fun call hcall => h call (List.mem_cons_of_mem _ hcall)]
    cases call with
    | moveAbsolute x y => cases hcall
    | moveRelative dx dy => cases hcall
    | _ => rfl

end InputState

namespace Event

variable (settings other : Settings) (s : InputState) {event : Event}

theorem calls_of_instant {mode : MoveMode} {x y : Int32}
    (haction : event.action = .move mode x y 0) :
    event.calls settings s =
      match mode with
      | .absolute => [.moveAbsolute x y]
      | .relative => [.moveRelative x y] := by
  cases mode <;> simp [calls, Run.dispatch, haction, Glide.callsOf]

variable (haction : ∀ mode x y duration, event.action ≠ .move mode x y duration)
include haction

theorem not_isMove_of_mem_calls : ∀ call ∈ event.calls settings s, call.isMove = false := by
  intro call hcall
  cases h : event.action with
  | unknown => simp [calls, Run.dispatch, h, Glide.callsOf] at hcall
  | move mode x y duration => exact absurd h (haction mode x y duration)
  | button press number =>
    rcases calls_button settings (s := s) h with ⟨hnil, -⟩ | hone
    · rw [hnil] at hcall
      cases hcall
    · rw [hone] at hcall
      rw [List.mem_singleton.mp hcall]
      exact Switch.isMove_call ..
  | key press code =>
    rcases calls_key settings (s := s) h with ⟨hnil, -⟩ | hone
    · rw [hnil] at hcall
      cases hcall
    · rw [hone] at hcall
      rw [List.mem_singleton.mp hcall]
      exact Switch.isMove_call ..
  | release target =>
    rw [calls_release settings h] at hcall
    obtain ⟨sw, -, rfl⟩ := List.mem_map.mp hcall
    exact Switch.isMove_call ..
  | text payload =>
    simp only [calls, Run.dispatch, h, Glide.callsOf, Option.elim_none, List.append_nil] at hcall
    obtain ⟨c, -, rfl⟩ := List.mem_map.mp hcall
    rfl

theorem calls_untimed_other : event.untimed.calls other s = event.calls settings s := by
  cases h : event.action with
  | move mode x y duration => exact absurd h (haction mode x y duration)
  | button press number =>
    cases press <;> simp [calls, Run.dispatch, untimed, Action.untimed, h]
  | key press code =>
    cases press <;> simp [calls, Run.dispatch, untimed, Action.untimed, h]
  | _ => simp [calls, Run.dispatch, untimed, Action.untimed, h]

omit haction

variable (hduration : event.action.duration.toNat < 2 ^ 63)
variable (htick : settings.tick.toNat < 2 ^ 63)
include hduration htick

/-- Whether a move takes time or not, it brings about the same, but for the calls on the way. -/
theorem calls_untimed :
    let calls := event.calls settings s
    let bare := event.untimed.calls other s
    still (calls.map .success) = still (bare.map .success) ∧
      s.replay (calls.map .success) = s.replay (bare.map .success) ∧
      (s.replay (calls.map .success)).pointer = event.action.place s.pointer := by
  intro calls bare
  cases haction : event.action with
  | move mode x y duration =>
    rw [haction] at hduration
    have huntimed : event.untimed.action = .move mode x y 0 := congrArg Action.untimed haction
    have hbare : bare = _ := calls_of_instant other s huntimed
    by_cases hzero : duration = 0
    · rw [hzero] at haction
      have hcalls : calls = _ := calls_of_instant settings s haction
      rw [hcalls, hbare]
      cases mode <;> exact ⟨rfl, rfl, rfl⟩
    · -- a glide makes moves only, and what they come to is known from its steps
      have hleast : 1 ≤ duration.toNat := by
        have hne : duration.toNat ≠ 0 := fun h => hzero (UInt64.toNat_inj.mp h)
        omega
      have hsum : duration.toNat + settings.effectiveTick.toNat - 1 < 2 ^ 64 := by
        have hle := settings.effectiveTick_le
        change duration.toNat < 2 ^ 63 at hduration
        omega
      cases mode with
      | absolute =>
        obtain ⟨hmoves, hlast, -⟩ :=
          calls_of_timed_absolute settings s haction hleast hduration hsum rfl
        have hstill : still (calls.map .success) = [] := by
          apply still_of_moves
          intro call hcall
          obtain ⟨p, rfl⟩ := hmoves call hcall
          rfl
        rw [hstill, hbare, InputState.replay_absolute (p := ⟨x, y⟩) hmoves hlast]
        exact ⟨rfl, rfl, rfl⟩
      | relative =>
        obtain ⟨hmoves, hsum, -⟩ :=
          calls_of_timed_relative settings s haction hleast hduration hsum rfl
        have hstill : still (calls.map .success) = [] := by
          apply still_of_moves
          intro call hcall
          obtain ⟨d, rfl⟩ := hmoves call hcall
          rfl
        rw [hstill, hbare, InputState.replay_relative hmoves, hsum]
        exact ⟨rfl, rfl, rfl⟩
  | _ =>
    have hother : ∀ mode x y duration, event.action ≠ .move mode x y duration := by
      simp [haction]
    have hbare : bare = calls := calls_untimed_other settings other s hother
    rw [hbare]
    refine ⟨rfl, rfl, ?_⟩
    exact InputState.pointer_replay_still (not_isMove_of_mem_calls settings s hother)

end Event

namespace Course

def granted : List Call → Bool :=
  fun _ => true

/-- The course of the events without durations. -/
def bare (first : InputState) (timeline : Timeline) : Course :=
  (initial first).play granted .standard (timeline.map Event.untimed)

theorem fault_performAll_granted {course : Course} (h : course.fault = none) (calls : List Call) :
    (course.performAll granted calls).fault = none := by
  induction calls generalizing course with
  | nil => exact h
  | cons call calls ih =>
    obtain ⟨log, state, fault⟩ := course
    cases h
    rw [performAll, List.foldl_cons, perform_of_ok rfl]
    exact ih rfl

theorem fault_play_granted (settings : Settings) (first : InputState) (timeline : Timeline) :
    ((initial first).play granted settings timeline).fault = none := by
  induction timeline using List.reverseRecOn with
  | nil => rfl
  | append_singleton timeline event ih =>
    rw [play_snoc]
    exact fault_performAll_granted ih _

theorem play_granted_snoc (settings : Settings) (first : InputState) (timeline : Timeline)
    (event : Event) :
    let course := (initial first).play granted settings timeline
    let calls := event.calls settings course.state
    (initial first).play granted settings (timeline ++ [event]) =
      ⟨course.log ++ calls.map .success, course.state.replay (calls.map .success), none⟩ := by
  intro course calls
  have hfault := fault_play_granted settings first (timeline ++ [event])
  rw [play_snoc] at hfault ⊢
  exact performAll_of_ok hfault

theorem bare_snoc (first : InputState) (timeline : Timeline) (event : Event) :
    let course := bare first timeline
    let calls := event.untimed.calls .standard course.state
    bare first (timeline ++ [event]) =
      ⟨course.log ++ calls.map .success, course.state.replay (calls.map .success), none⟩ := by
  intro course calls
  rw [bare, List.map_append, List.map_singleton, play_granted_snoc]
  rfl

variable {settings : Settings} (first : InputState) {timeline : Timeline}
variable (hdurations : ∀ event ∈ timeline, event.action.duration.toNat < 2 ^ 63)
variable (htick : settings.tick.toNat < 2 ^ 63)
include hdurations htick

theorem play_eq_bare :
    let course := (initial first).play granted settings timeline
    still course.log = still (bare first timeline).log ∧
      course.state = (bare first timeline).state ∧
      course.state.pointer = timeline.place first.pointer := by
  induction timeline using List.reverseRecOn with
  | nil => simp [bare, play, initial, Timeline.place]
  | append_singleton timeline event ih =>
    obtain ⟨hlog, hstate, hpointer⟩ :=
      ih fun event hevent => hdurations event (List.mem_append_left _ hevent)
    obtain ⟨hstill, hreplay, hplace⟩ := Event.calls_untimed settings .standard
      ((initial first).play granted settings timeline).state (hdurations event (by simp)) htick
    rw [play_granted_snoc, bare_snoc]
    refine ⟨?_, ?_, ?_⟩
    · rw [still_append, still_append, hlog, hstill, hstate]
    · rw [hreplay, hstate]
    · rw [hplace, hpointer, Timeline.place_snoc]

end Course

variable {σ τ : Type}

/-- Whatever was called before, the next call succeeds. -/
def Backend.NeverFails (backend : Backend σ) (device : σ) : Prop :=
  ∀ calls current, backend.Led device calls current →
    ∀ now call, (backend.perform now call current).1.ok = true

theorem Backend.NeverFails.granted {backend : Backend σ} {device : σ}
    (h : backend.NeverFails device) (calls : List Call) (current : σ)
    (hled : backend.Led device calls current) (now : Nat) (call : Call) :
    (backend.perform now call current).1.ok = Course.granted (calls ++ [call]) :=
  h calls current hled now call

theorem Rehearsal.neverFails_smooth : backend.NeverFails .smooth := by
  intro calls current h now call
  have hcurrent : current.failing = [] ∧ current.failingAt = [] := by
    induction h with
    | nil => exact ⟨rfl, rfl⟩
    | snoc _ now call ih => exact ih
  simp [backend, perform, hcurrent]

namespace Run

section Fresh

variable {backend : Backend σ} {settings : Settings} {timeline : Timeline} {device : σ}
variable {begun : Nat} {fresh : Run σ}
variable (hfresh : fresh = ofTimeline settings timeline device begun)
variable (hnever : backend.NeverFails device) (instants : Nat → Nat)
include hfresh hnever

theorem fault_nth_of_neverFails (n : Nat) :
    (fresh.nth backend.passive instants n).fault = none := by
  rcases underway_or_resolved hfresh hnever.granted instants n with
    hunderway | hresolved
  · exact hunderway.fault_eq
  · exact hresolved.fault_eq.trans (Course.fault_play_granted ..)

theorem exists_between_of_neverFails (k : Nat) :
    ∃ n, (fresh.nth backend.passive instants n).stage = .await ⟨none, timeline.drop k⟩ := by
  rcases exists_between_or_failed hfresh hnever.granted instants
    (List.take_append_drop k timeline).symm with ⟨n, hs, -⟩ | ⟨⟨n, hfault⟩, -⟩
  · exact ⟨n, hs⟩
  · exact absurd (fault_nth_of_neverFails hfresh hnever instants n) hfault

variable (hdurations : ∀ event ∈ timeline, event.action.duration.toNat < 2 ^ 63)
variable (htick : settings.tick.toNat < 2 ^ 63)
include hdurations htick

theorem state_between {n k : Nat}
    (hs : (fresh.nth backend.passive instants n).stage = .await ⟨none, timeline.drop k⟩) :
    let first : InputState := ⟨[], [], backend.pointer device⟩
    let run := fresh.nth backend.passive instants n
    run.state = (Course.bare first (timeline.take k)).state ∧
      run.state.pointer = Timeline.place (timeline.take k) first.pointer := by
  intro first run
  have hopen : run.outcome? = none := by rw [outcome?, hs]
  have hunderway := underway_of_open hfresh hnever.granted instants hopen
  have hevents : run.events = timeline.take k := by
    have h := hunderway.events_append
    rw [hs, Stage.timeline] at h
    exact List.append_cancel_right (h.trans (List.take_append_drop k timeline).symm)
  have hcourse := hunderway.course_eq hs
  rw [hevents] at hcourse
  have hstate := congrArg Course.state hcourse
  obtain ⟨-, hbare, hpointer⟩ := Course.play_eq_bare first
    (fun event hevent => hdurations event (List.mem_of_mem_take hevent)) htick
  exact ⟨hstate.trans hbare, (congrArg InputState.pointer hstate).trans hpointer⟩

theorem end_of_neverFails {n : Nat}
    (hover : (fresh.nth backend.passive instants n).isOver = true) :
    let first : InputState := ⟨[], [], backend.pointer device⟩
    let bare := Course.bare first timeline
    let run := fresh.nth backend.passive instants n
    run.stage = .ended .completed ∧ run.state = ⟨[], [], timeline.place first.pointer⟩ ∧
      still run.log = still bare.log ++ bare.state.releases.map (⟨.drain, ·, true⟩) := by
  intro first bare run
  have hresolved := resolved_of_isOver hfresh hnever.granted instants hover
  obtain ⟨hstage, hstate, back, hlog, hdrain, hcalls⟩ := hresolved.of_over hover
  obtain ⟨hstill, hbare, hpointer⟩ := Course.play_eq_bare first hdurations htick
  refine ⟨?_, ?_, ?_⟩
  · exact hstage.trans (congrArg Stage.ended (if_pos (Course.fault_play_granted ..)))
  · exact hstate.trans (congrArg (InputState.mk [] []) hpointer)
  · have hanswered := answered_nth hfresh hnever.granted instants n
    have hsuccess : ∀ a ∈ back, a = ⟨.drain, a.call, true⟩ := by
      intro a ha
      obtain ⟨before, after, heq⟩ := List.append_of_mem (hlog ▸ List.mem_append_right _ ha)
      obtain ⟨purpose, call, ok⟩ := a
      obtain rfl : purpose = .drain := hdrain _ ha
      obtain rfl : ok = true := hanswered _ _ _ heq
      rfl
    have hback : back = (back.map (·.call)).map (⟨.drain, ·, true⟩) := by
      rw [List.map_map]
      exact (List.map_id back).symm.trans (List.map_congr_left hsuccess)
    have hswitches : still back = back := by
      apply List.filter_eq_self.mpr
      intro a ha
      have hmem : a.call ∈
          (Course.play Course.granted settings (.initial first) timeline).state.releases := by
        rw [← hcalls]
        exact List.mem_map_of_mem ha
      rw [InputState.releases_eq] at hmem
      obtain ⟨sw, -, hsw⟩ := List.mem_map.mp hmem
      rw [← hsw, sw.isMove_call]
      rfl
    rw [hlog, still_append, hstill, hswitches, hback, hcalls, hbare]

end Fresh

/-- Two runs on backends that never fail play timelines that differ at most in how long their moves
take, with any tick, at any instants, from the same position of the pointer. Between any two
events both come to the same state, where the pointer is as the events so far say; and both are
complete in the end, in the same state, and have made the same calls but for the moves. -/
theorem retiming_law (backend : Backend σ) (other : Backend τ) {device : σ} {device' : τ}
    (hnever : backend.NeverFails device) (hnever' : other.NeverFails device')
    (hpointer : backend.pointer device = other.pointer device')
    (settings settings' : Settings) (htick : settings.tick.toNat < 2 ^ 63)
    (htick' : settings'.tick.toNat < 2 ^ 63) (timeline timeline' : Timeline)
    (hdurations : ∀ event ∈ timeline, event.action.duration.toNat < 2 ^ 63)
    (hdurations' : ∀ event ∈ timeline', event.action.duration.toNat < 2 ^ 63)
    (hsame : timeline.map Event.untimed = timeline'.map Event.untimed)
    (begun begun' : Nat) (instants instants' : Nat → Nat) :
    let plain := (ofTimeline settings timeline device begun).nth backend.passive instants
    let twin := (ofTimeline settings' timeline' device' begun').nth other.passive instants'
    (∀ k,
      (∃ m, (plain m).stage = .await ⟨none, timeline.drop k⟩) ∧
      (∃ n, (twin n).stage = .await ⟨none, timeline'.drop k⟩) ∧
      ∀ m n, (plain m).stage = .await ⟨none, timeline.drop k⟩ →
        (twin n).stage = .await ⟨none, timeline'.drop k⟩ →
        (plain m).state = (twin n).state ∧
          (plain m).state.pointer =
            Timeline.place (timeline.take k) (backend.pointer device)) ∧
    (∃ m, (plain m).isOver = true) ∧ (∃ n, (twin n).isOver = true) ∧
    ∀ m n, (plain m).isOver = true → (twin n).isOver = true →
      (plain m).stage = .ended .completed ∧ (twin n).stage = .ended .completed ∧
        still (plain m).log = still (twin n).log ∧ (plain m).state = (twin n).state ∧
        (plain m).state = ⟨[], [], timeline.place (backend.pointer device)⟩ := by
  intro plain twin
  -- both timelines are the same without durations, event by event
  have hbare : ∀ k, Course.bare ⟨[], [], backend.pointer device⟩ (timeline.take k) =
      Course.bare ⟨[], [], other.pointer device'⟩ (timeline'.take k) := by
    intro k
    rw [Course.bare, Course.bare, List.map_take, List.map_take, hsame, hpointer]
  refine ⟨?_, exists_nth_isOver .., exists_nth_isOver .., ?_⟩
  · intro k
    refine ⟨exists_between_of_neverFails rfl hnever instants k,
      exists_between_of_neverFails rfl hnever' instants' k, ?_⟩
    intro m n hm hn
    obtain ⟨hstate, hplace⟩ := state_between rfl hnever instants hdurations htick hm
    obtain ⟨hstate', -⟩ := state_between rfl hnever' instants' hdurations' htick' hn
    rw [← hbare] at hstate'
    exact ⟨hstate.trans hstate'.symm, hplace⟩
  · intro m n hm hn
    obtain ⟨hstage, hstate, hstill⟩ := end_of_neverFails rfl hnever instants hdurations htick hm
    obtain ⟨hstage', hstate', hstill'⟩ :=
      end_of_neverFails rfl hnever' instants' hdurations' htick' hn
    have hplace : timeline.place (backend.pointer device) =
        timeline'.place (other.pointer device') := by
      rw [← timeline.place_untimed, ← timeline'.place_untimed, hsame, hpointer]
    have hwhole : Course.bare ⟨[], [], backend.pointer device⟩ timeline =
        Course.bare ⟨[], [], other.pointer device'⟩ timeline' := by
      rw [Course.bare, Course.bare, hsame, hpointer]
    rw [← hwhole] at hstill'
    rw [← hplace] at hstate'
    exact ⟨hstage, hstage', hstill.trans hstill'.symm, hstate.trans hstate'.symm, hstate⟩

theorem retiming_law_drag :
    let drag := fun duration : UInt64 => ([⟨0, .move .absolute 100 50 0, 0⟩,
      ⟨10, .button .down 0, 1⟩, ⟨20, .move .relative 30 (-7) duration, 2⟩,
      ⟨500, .button .up 0, 3⟩] : Timeline)
    let plain := (ofTimeline ⟨16, false⟩ (drag 40) Rehearsal.smooth 0).nth
      Rehearsal.backend.passive id 29
    let twin := (ofTimeline ⟨1000, false⟩ (drag 0) Rehearsal.smooth 0).nth
      Rehearsal.backend.passive id 19
    plain.isOver = true ∧ twin.isOver = true ∧ still plain.log = still twin.log ∧
      plain.state = ⟨[], [], some ⟨130, 43⟩⟩ ∧ twin.state = ⟨[], [], some ⟨130, 43⟩⟩ := by
  intro drag plain twin
  have hover : plain.isOver = true := by decide +kernel
  have hover' : twin.isOver = true := by decide +kernel
  obtain ⟨-, -, -, hend⟩ := retiming_law Rehearsal.backend Rehearsal.backend
    Rehearsal.neverFails_smooth Rehearsal.neverFails_smooth rfl ⟨16, false⟩ ⟨1000, false⟩
    (by decide) (by decide) (drag 40) (drag 0) (by decide) (by decide) rfl 0 0 id id
  obtain ⟨-, -, hstill, hsame, hstate⟩ := hend 29 19 hover hover'
  exact ⟨hover, hover', hstill, hstate, hsame.symm.trans hstate⟩

end Run

end TimedInput
