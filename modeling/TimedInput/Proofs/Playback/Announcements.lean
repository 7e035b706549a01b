import TimedInput.Playback.Player
import TimedInput.Proofs.Playback.Retiming
import TimedInput.Proofs.Text.Decimal
import TimedInput.Proofs.Text.Splitting
import TimedInput.Script.Comment

/-!
# Announcements

A verbose run announces each event when it dispatches it. What it prints is one text for each of
these events, the line that tells of the event, but a text that is printed is cut at 2047 bytes.
A longer line loses its line feed, and the next one is printed behind it.
-/

namespace TimedInput

namespace Bytes

/-- Neither NUL nor a line feed: printed as it is, within one line. -/
def Inline (s : Bytes) : Prop :=
  ∀ b ∈ s, b ≠ 0 ∧ b ≠ Comment.newline

instance (s : Bytes) : Decidable s.Inline :=
  List.decidableBAll (fun b => b ≠ 0 ∧ b ≠ Comment.newline) s

theorem untilNul_of_not_mem {s : Bytes} (h : 0 ∉ s) : s.untilNul = s := by
  apply List.takeWhile_eq_self_iff.mpr
  rintro b hb
  rw [bne_iff_ne]
  rintro rfl
  exact h hb

namespace Inline

variable {s t : Bytes}

theorem append (hs : s.Inline) (ht : t.Inline) : (s ++ t).Inline :=
  fun b hb => (List.mem_append.mp hb).elim (hs b) (ht b)

theorem not_mem_newline (h : s.Inline) : Comment.newline ∉ s :=
  fun hmem => (h _ hmem).2 rfl

theorem not_mem_nul (h : s.Inline) : 0 ∉ s :=
  fun hmem => (h _ hmem).1 rfl

theorem of_inBase {base n : Nat} (h : base ≤ 14) : (Numeral.inBase base 97 n).Inline := by
  intro b hb
  obtain ⟨d, hd, rfl⟩ := Numeral.exists_figure_of_mem_inBase hb
  have hfigures : ∀ d < 16, Numeral.figure 97 d ≠ 0 ∧ Numeral.figure 97 d ≠ Comment.newline := by
    decide
  exact hfigures d (by omega)

theorem ofNat (n : Nat) : (Numeral.ofNat n).Inline :=
  of_inBase (by decide)

theorem ofInt (i : Int) : (Numeral.ofInt i).Inline := by
  cases i with
  | ofNat n => exact ofNat n
  | negSucc n => exact append (s := [45]) (by decide) (ofNat (n + 1))

end Inline

end Bytes

open Bytes (Inline)

theorem KeyCode.inline_name (code : KeyCode) : code.name.Inline := by
  have htable : ∀ key ∈ Key.table, key.name.Inline := by decide +kernel
  unfold name
  split
  · rename_i key hkey
    exact htable key (List.mem_of_find?_eq_some hkey)
  · exact .append (by decide) (.of_inBase (Nat.le_refl 14))

/-- The text that an action types, if it types one, can be shown within a line. -/
def Action.Showable (action : Action) : Prop :=
  ∀ payload, action = .text payload → payload.Inline

theorem Action.Showable.text {payload : Bytes} (h : payload.Inline) : (text payload).Showable :=
  fun _ heq => text.inj heq ▸ h

theorem Action.inline_describe {action : Action} (h : action.Showable) :
    action.describe.Inline := by
  cases action with
  | unknown => exact nofun
  | move mode x y duration =>
    have hword : (moveWord mode).Inline := by cases mode <;> decide
    have hspace : (ascii " ").Inline := by decide
    exact .append (.append (.append (.append (.append (.append hword hspace) (.ofInt _)) hspace)
      (.ofInt _)) hspace) (.ofNat _)
  | button press number =>
    have hword : (ascii "Mouse" ++ pressWord press ++ ascii " ").Inline := by
      cases press <;> decide
    exact .append hword (.ofInt _)
  | key press code =>
    have hword : (ascii "Key" ++ pressWord press ++ ascii " ").Inline := by cases press <;> decide
    exact .append hword code.inline_name
  | release target =>
    refine .append (by decide) ?_
    unfold ReleaseTarget.name
    split
    · decide
    · split <;> decide
  | text payload => exact .append (.append (by decide) (h payload rfl)) (by decide)

namespace Event

/-- What a line tells of an event. -/
def account (event : Event) : Bytes :=
  ascii "At " ++ Numeral.ofNat event.time.toNat ++ ascii "ms: " ++ event.action.describe

def line (event : Event) : Bytes :=
  event.account ++ [Comment.newline]

variable {event : Event} (h : event.action.Showable)
include h

theorem inline_account : event.account.Inline :=
  .append (.append (.append (by decide) (.ofNat _)) (by decide)) (Action.inline_describe h)

/-- What is printed of an event is its line, unless that is too long. -/
theorem announcement_eq : Entry.announcement event = event.line.take 2047 := by
  have hline : 0 ∉ event.line := by
    rw [line, List.mem_append, not_or]
    exact ⟨(inline_account h).not_mem_nul, by decide⟩
  rw [Entry.announcement, Bytes.untilNul_of_not_mem (Action.inline_describe h).not_mem_nul]
  change event.line.untilNul.clip 2047 = _
  rw [Bytes.untilNul_of_not_mem hline]
  rfl

/-- What is printed of an event has a line feed if its line is not too long. -/
theorem count_newline_announcement :
    (Entry.announcement event).count Comment.newline =
      if event.account.length ≤ 2046 then 1 else 0 := by
  have haccount := (inline_account h).not_mem_newline
  rw [announcement_eq h, line, List.take_append]
  split
  · rename_i hfits
    rw [List.take_of_length_le (by omega), List.take_of_length_le (by simp; omega),
      List.count_append, List.count_eq_zero.mpr haccount]
    rfl
  · rename_i hlong
    have hcut : Comment.newline ∉ event.account.take 2047 :=
      fun hmem => haccount (List.mem_of_mem_take hmem)
    rw [show 2047 - event.account.length = 0 by omega, List.take_zero, List.append_nil,
      List.count_eq_zero.mpr hcut]

end Event

namespace Run

variable {σ : Type}

/-- The event that a move dispatches, if it dispatches one: the event that the run waits for, unless
it was asked to cancel. -/
def dispatches? (run : Run σ) : Move → Option Event
  | .cancel => none
  | .step _ =>
    match run.stage with
    | .await ⟨none, event :: _⟩ => if run.cancelRequested then none else some event
    | _ => none

/-- The events that are dispatched in a schedule, one after the other. -/
def dispatches (backend : Backend σ) (run : Run σ) : List Move → List Event
  | [] => []
  | m :: moves => (run.dispatches? m).toList ++ (run.move backend m).dispatches backend moves

variable {backend : Backend σ} {run : Run σ}

theorem events_move (backend : Backend σ) (run : Run σ) (m : Move) :
    (run.move backend m).events = run.events ++ (run.dispatches? m).toList := by
  cases m with
  | cancel =>
    change run.requestCancel.events = run.events ++ []
    obtain ⟨asked, hasked⟩ := run.exists_requestCancel_eq
    rw [hasked, List.append_nil]
    rfl
  | step now =>
    change (run.step backend now).events = _
    have ht := run.step_transition backend now
    generalize run.step backend now = next at ht
    unfold dispatches?
    cases ht with
    | cancelled hpolls hcancel =>
      obtain ⟨⟨glide, rest⟩, hs, -⟩ := exists_of_polls hpolls
      cases glide <;> cases rest <;> simp [hs, hcancel, events, drain]
    | began hs hcancel =>
      rw [events_began]
      simp [hs, hcancel]
    | called hs => simp [hs, events_beginCall]
    | released hs => simp [hs, events_released]
    | _ hs => simp [hs, events, drain]

theorem events_follow (backend : Backend σ) (run : Run σ) (moves : List Move) :
    (run.follow backend moves).events = run.events ++ run.dispatches backend moves := by
  induction moves generalizing run with
  | nil => exact (List.append_nil _).symm
  | cons m moves ih => rw [follow_cons, ih, events_move, dispatches, List.append_assoc]

/-- A run that was asked to cancel dispatches no event any more. -/
theorem dispatches_of_cancelRequested (h : run.cancelRequested = true) (moves : List Move) :
    run.dispatches backend moves = [] := by
  induction moves generalizing run with
  | nil => rfl
  | cons m moves ih =>
    have hnone : run.dispatches? m = none := by
      unfold dispatches?
      split
      · rfl
      · split <;> simp [h]
    have hnext : (run.move backend m).cancelRequested = true := cancelRequested_follow h [m]
    rw [dispatches, hnone, ih hnext]
    rfl

theorem dispatches_append (backend : Backend σ) (run : Run σ) (moves more : List Move) :
    run.dispatches backend (moves ++ more) =
      run.dispatches backend moves ++ (run.follow backend moves).dispatches backend more := by
  induction moves generalizing run with
  | nil => rfl
  | cons m moves ih => rw [List.cons_append, dispatches, ih, dispatches, List.append_assoc]; rfl

/-- The call is one of those of the event that began last. -/
def Owes (run : Run σ) (call : Call) : Prop :=
  ∃ event s, run.events.getLast? = some event ∧ call ∈ event.calls run.settings s

theorem Owes.congr {next : Run σ} {call : Call} (h : run.Owes call)
    (hevents : next.events = run.events) (hsettings : next.settings = run.settings) :
    next.Owes call := by
  obtain ⟨event, s, hlast, hcall⟩ := h
  exact ⟨event, s, hevents ▸ hlast, hsettings ▸ hcall⟩

end Run

/-- The calls of the event under way that have not come back, those of its glide included. -/
def Stage.due : Stage → List Call
  | .await todo => Glide.callsOf todo.glide
  | .issue calls (.proceed todo) => calls ++ Glide.callsOf todo.glide
  | .answer call _ calls (.proceed todo) => call :: (calls ++ Glide.callsOf todo.glide)
  | _ => []

namespace Run

variable {σ : Type} {backend : Backend σ} {run : Run σ}

/-- What a run calls, and what it may fail by, belongs to the event that began last. -/
structure Attributed (run : Run σ) : Prop where
  due : ∀ call ∈ run.stage.due, run.Owes call
  sound : run.outcome? = none → run.fault = none
  fault : ∀ call, run.fault = some call → run.Owes call

theorem attributed_of_open (hfault : run.fault = none)
    (hdue : ∀ call ∈ run.stage.due, run.Owes call) : run.Attributed := by
  refine ⟨hdue, fun _ => hfault, ?_⟩
  intro call hcall
  rw [hfault] at hcall
  cases hcall

theorem attributed_of_settled {outcome : Outcome} (hsettled : run.outcome? = some outcome)
    (hfault : ∀ call, run.fault = some call → run.Owes call) : run.Attributed := by
  refine ⟨?_, ?_, hfault⟩
  · intro call hcall
    unfold outcome? at hsettled
    split at hsettled <;> simp_all [Stage.due]
  · intro hopen
    rw [hsettled] at hopen
    cases hopen

theorem Attributed.step (h : run.Attributed) (backend : Backend σ) (now : Nat) :
    (run.step backend now).Attributed := by
  obtain ⟨hdue, hsound, hfault⟩ := h
  have ht := run.step_transition backend now
  generalize run.step backend now = next at ht
  cases ht with
  | opened hs =>
    rw [hs] at hdue
    exact attributed_of_open (hsound (by rw [outcome?, hs])) hdue
  | cancelled => exact attributed_of_settled rfl hfault
  | @began event rest hs =>
    -- The only step after which the calls are those of another event.
    refine attributed_of_open ?_ fun call hcall => ?_
    · exact hsound (by rw [outcome?, hs])
    change call ∈ (run.dispatch event).1 ++ Glide.callsOf (run.dispatch event).2 at hcall
    rw [run.calls_dispatch] at hcall
    refine ⟨event, run.state, ?_, hcall⟩
    rw [events_began, List.getLast?_concat]
  | @glided glide rest hs =>
    rw [hs, Stage.due, Glide.callsOf, Option.elim_some, glide.calls_eq] at hdue
    exact attributed_of_open (hsound (by rw [outcome?, hs])) hdue
  | exhausted => exact attributed_of_settled rfl hfault
  | @called call calls next hs =>
    have hsame : ∀ {other : Call}, run.Owes other →
        (run.beginCall backend now call calls next).Owes other :=
      fun h => h.congr (events_beginCall ..) rfl
    rw [hs] at hdue
    cases next with
    | proceed todo =>
      exact attributed_of_open (hsound (by rw [outcome?, hs]))
        fun other hother => hsame (hdue other hother)
    | finish outcome =>
      exact attributed_of_settled rfl fun other hother => hsame (hfault other hother)
  | returned hs =>
    rw [hs] at hdue
    exact attributed_of_open (hsound (by rw [outcome?, hs]))
      fun other hother => hdue other (List.mem_cons_of_mem _ hother)
  | @failed call calls todo hs =>
    rw [hs] at hdue
    apply attributed_of_settled rfl
    intro other hother
    obtain rfl := Option.some.inj hother
    exact hdue call List.mem_cons_self
  | released hs =>
    exact attributed_of_settled rfl
      fun other hother => (hfault other hother).congr (events_released ..) rfl
  | proceeded hs =>
    rw [hs] at hdue
    exact attributed_of_open (hsound (by rw [outcome?, hs])) hdue
  | published => exact attributed_of_settled rfl hfault
  | settled => exact ⟨hdue, hsound, hfault⟩

theorem Attributed.move (h : run.Attributed) (m : Move) : (run.move backend m).Attributed := by
  apply move_keeps (P := Attributed) (h.step backend)
  exact fun asked => ⟨h.due, h.sound, h.fault⟩

/-- Nothing was printed by a call, and of what was let go of only failures are complained of. -/
structure Quiet (run : Run σ) : Prop where
  called : ∀ instant purpose call reply, .called instant purpose call reply ∈ run.history →
    reply.printed = []
  stuck : ∀ instant call, .stuck instant call ∈ run.history → ⟨.drain, call, false⟩ ∈ run.log
  answered : ∀ call ok calls outcome, run.stage = .answer call ok calls (.finish outcome) →
    ⟨.drain, call, ok⟩ ∈ run.log

theorem Quiet.step (h : run.Quiet) {backend : Backend σ}
    (hsilent : ∀ now call device, (backend.perform now call device).1.printed = []) (now : Nat) :
    (run.step backend now).Quiet := by
  obtain ⟨hcalled, hstuck, hanswered⟩ := h
  have ht := run.step_transition backend now
  generalize run.step backend now = next at ht
  cases ht with
  | began hs =>
    refine ⟨?_, ?_, fun _ _ _ _ => nofun⟩
    · intro instant purpose call reply hmem
      rcases List.mem_cons.mp hmem with heq | hmem
      · cases heq
      · exact hcalled _ _ _ _ hmem
    · intro instant call hmem
      rw [log_began]
      rcases List.mem_cons.mp hmem with heq | hmem
      · cases heq
      · exact hstuck _ _ hmem
  | @called call calls next hs =>
    refine ⟨?_, ?_, ?_⟩
    · intro instant purpose other reply hmem
      rcases List.mem_cons.mp hmem with heq | hmem
      · cases heq
        exact hsilent ..
      · exact hcalled _ _ _ _ hmem
    · intro instant other hmem
      rw [log_beginCall]
      rcases List.mem_cons.mp hmem with heq | hmem
      · cases heq
      · exact List.mem_append_left _ (hstuck _ _ hmem)
    · intro other ok rest outcome heq
      rw [log_beginCall]
      obtain ⟨rfl, rfl, -, rfl⟩ := Stage.answer.inj heq
      exact List.mem_append_right _ List.mem_cons_self
  | @released call ok calls outcome hs =>
    -- The complaint comes one step after the call, which is in the log by then.
    have hfailed : ok = false → ⟨.drain, call, false⟩ ∈ run.log := by
      rintro rfl
      exact hanswered call false calls outcome hs
    refine ⟨?_, ?_, fun _ _ _ _ => nofun⟩
    · intro instant purpose other reply hmem
      cases ok with
      | true => exact hcalled _ _ _ _ hmem
      | false =>
        rcases List.mem_cons.mp hmem with heq | hmem
        · cases heq
        · exact hcalled _ _ _ _ hmem
    · intro instant other hmem
      rw [log_released]
      cases ok with
      | true => exact hstuck _ _ hmem
      | false =>
        rcases List.mem_cons.mp hmem with heq | hmem
        · cases heq
          exact hfailed rfl
        · exact hstuck _ _ hmem
  | settled => exact ⟨hcalled, hstuck, hanswered⟩
  | _ => exact ⟨hcalled, hstuck, fun _ _ _ _ => nofun⟩

theorem Quiet.move (h : run.Quiet) {backend : Backend σ}
    (hsilent : ∀ now call device, (backend.perform now call device).1.printed = []) (m : Move) :
    (run.move backend m).Quiet := by
  apply move_keeps (P := Quiet) (h.step hsilent)
  exact fun asked => ⟨h.called, h.stuck, h.answered⟩

/-- If all that is let go of succeeds, nothing but announcements is printed. -/
theorem Quiet.printed_eq (h : run.Quiet)
    (hdrain : ∀ a ∈ run.log, a.purpose = .drain → a.ok = true) :
    (Player.started run).printed true = run.events.flatMap Entry.announcement := by
  rw [Player.printed, events, List.filterMap_eq_flatMap_toList, List.flatMap_assoc]
  refine List.flatMap_congr fun e he => ?_
  have hmem : e ∈ run.history := List.mem_reverse.mp he
  cases e with
  | began instant event => exact (List.append_nil _).symm
  | called instant purpose call reply => exact h.called _ _ _ _ hmem
  | stuck instant call => cases hdrain _ (h.stuck _ _ hmem) rfl

/-- What happens to a fresh run keeps what is printed to announcements, in the order of the
timeline. -/
theorem announcing_follow (backend : Backend σ)
    (hsilent : ∀ now call device, (backend.perform now call device).1.printed = [])
    (settings : Settings) (timeline : Timeline) (device : σ) (begun : Nat) (moves : List Move) :
    let run := (ofTimeline settings timeline device begun).follow backend moves
    run.InOrder timeline ∧ run.Attributed ∧ run.Quiet := by
  intro run
  refine follow_induction (P := fun run => run.InOrder timeline ∧ run.Attributed ∧ run.Quiet) ?_
    ?_ moves
  · rintro run m ⟨horder, hattributed, hquiet⟩
    exact ⟨horder.move backend m, hattributed.move m, hquiet.move hsilent m⟩
  · refine ⟨⟨List.nil_prefix, fun _ => rfl, nofun⟩, ⟨nofun, fun _ => rfl, nofun⟩, ?_⟩
    exact ⟨nofun, nofun, fun _ _ _ _ => nofun⟩

end Run

namespace Event

variable {events : List Event} (h : ∀ event ∈ events, event.action.Showable)
include h

theorem announcements_eq :
    events.flatMap Entry.announcement = events.flatMap fun event => event.line.take 2047 :=
  List.flatMap_congr fun event hevent => announcement_eq (h event hevent)

theorem count_newline_announcements :
    (events.flatMap Entry.announcement).count Comment.newline =
      events.countP (·.account.length ≤ 2046) := by
  induction events with
  | nil => rfl
  | cons event events ih =>
    have hrest := ih fun other hother => h other (List.mem_cons_of_mem event hother)
    rw [List.flatMap_cons, List.count_append, hrest, List.countP_cons,
      count_newline_announcement (h event List.mem_cons_self), Nat.add_comm]
    simp

theorem count_newline_lines :
    (events.flatMap line).count Comment.newline = events.length := by
  induction events with
  | nil => rfl
  | cons event events ih =>
    have hrest := ih fun other hother => h other (List.mem_cons_of_mem event hother)
    have hevent := (inline_account (h event List.mem_cons_self)).not_mem_newline
    rw [List.flatMap_cons, List.count_append, hrest, line, List.count_append,
      List.count_eq_zero.mpr hevent, List.length_cons]
    simp [Nat.add_comm]

/-- Lines are printed as they are exactly if none of them is too long. -/
theorem announcements_eq_lines_iff :
    events.flatMap Entry.announcement = events.flatMap line ↔
      ∀ event ∈ events, event.account.length ≤ 2046 := by
  constructor
  · intro heq
    have hcount := congrArg (List.count Comment.newline) heq
    rw [count_newline_announcements h, count_newline_lines h, List.countP_eq_length] at hcount
    simpa using hcount
  · intro hfits
    rw [announcements_eq h]
    refine List.flatMap_congr fun event hevent => ?_
    apply List.take_of_length_le
    have := hfits event hevent
    rw [line, List.length_append, List.length_singleton]
    omega

end Event

namespace Run

/-- A verbose run plays events whose texts can be shown within a line, on a backend that prints
nothing, and nothing that it lets go of fails. The events that it dispatches are a front part of
the timeline: those that it does not wait for any more, and all of them once it is completed. No
event is dispatched after a request to cancel, not even the one that is waited for; and if a call
fails, it is one of those of the event dispatched last. What is printed is one text for each of
these events, its line as far as it goes into 2047 bytes. So there are as many line feeds as lines
that are not longer, and what is printed is the lines one after the other, and is parted into
them, exactly if none is longer. -/
theorem announcement_law {σ : Type} (backend : Backend σ)
    (hsilent : ∀ now call device, (backend.perform now call device).1.printed = [])
    {settings : Settings} (hverbose : settings.verbose = true) {timeline : Timeline}
    (hshowable : ∀ event ∈ timeline, event.action.Showable) (device : σ) (begun : Nat)
    (moves : List Move) :
    let fresh := ofTimeline settings timeline device begun
    let run := fresh.follow backend moves
    let dispatched := fresh.dispatches backend moves
    let printed := (Player.started run).printed settings.verbose
    (∀ a ∈ run.log, a.purpose = .drain → a.ok = true) →
    (dispatched <+: timeline ∧
      (run.outcome? = none → dispatched ++ run.stage.timeline = timeline) ∧
      (run.outcome? = some .completed → dispatched = timeline) ∧
      (run.cancelRequested = true →
        ∀ more, fresh.dispatches backend (moves ++ more) = dispatched) ∧
      ∀ call, run.fault = some call →
        ∃ event s, dispatched.getLast? = some event ∧ call ∈ event.calls run.settings s) ∧
    printed = (dispatched.flatMap fun event => event.line.take 2047) ∧
    printed.count Comment.newline = dispatched.countP (·.account.length ≤ 2046) ∧
    (printed = dispatched.flatMap Event.line ↔
      ∀ event ∈ dispatched, event.account.length ≤ 2046) ∧
    ((∀ event ∈ dispatched, event.account.length ≤ 2046) →
      Bytes.splitOn [Comment.newline] printed = dispatched.map Event.account ++ [[]]) := by
  intro fresh run dispatched printed hdrain
  obtain ⟨⟨hbegun, hopened, hexhausted⟩, ⟨-, -, hfault⟩, hquiet⟩ :=
    announcing_follow backend hsilent settings timeline device begun moves
  have hevents : run.events = dispatched := events_follow backend fresh moves
  have hdispatched : ∀ event ∈ dispatched, event.action.Showable :=
    fun event hevent => hshowable event (hbegun.subset (hevents ▸ hevent))
  have hprinted : printed = dispatched.flatMap Entry.announcement := by
    rw [← hevents, ← hquiet.printed_eq hdrain]
    exact congrArg (Player.started run).printed hverbose
  have hiff := Event.announcements_eq_lines_iff hdispatched
  refine ⟨⟨hevents ▸ hbegun, hevents ▸ hopened, hevents ▸ hexhausted, ?_, hevents ▸ hfault⟩, ?_,
    ?_, ?_, ?_⟩
  · intro hcancel more
    rw [dispatches_append, dispatches_of_cancelRequested hcancel, List.append_nil]
  · rw [hprinted, Event.announcements_eq hdispatched]
  · rw [hprinted, Event.count_newline_announcements hdispatched]
  · rw [hprinted]
    exact hiff
  · intro hfits
    have hinline : ∀ account ∈ dispatched.map Event.account, Comment.newline ∉ account :=
      List.forall_mem_map.mpr fun event hevent =>
        (Event.inline_account (hdispatched event hevent)).not_mem_newline
    have hsplit := Bytes.splitOn_flatMap_snoc hinline
    rw [List.flatMap_map] at hsplit
    rw [hprinted, hiff.mpr hfits]
    exact hsplit

/-- Two of three events are announced, since the run is cancelled while it waits for the last. -/
theorem announcement_law_cancelled :
    let timeline : Timeline :=
      [⟨0, .text (ascii "a"), 0⟩, ⟨5, .button .down 1, 1⟩, ⟨9, .text (ascii "b"), 2⟩]
    let fresh := ofTimeline ⟨16, true⟩ timeline Rehearsal.smooth 0
    let moves := List.replicate 9 (.step 0) ++ .cancel :: List.replicate 4 (.step 7)
    let run := fresh.follow Rehearsal.backend moves
    run.isOver = true ∧ run.outcome? = some .cancelled ∧
      (Player.started run).printed true = ascii "At 0ms: Text \"a\"\nAt 5ms: MouseDown 1\n" ∧
      fresh.dispatches Rehearsal.backend moves = timeline.take 2 := by
  intro timeline fresh moves run
  have hshowable : ∀ event ∈ timeline, event.action.Showable := by
    exact List.forall_mem_cons.mpr ⟨.text (by decide), List.forall_mem_cons.mpr
      ⟨nofun, List.forall_mem_singleton.mpr (.text (by decide))⟩⟩
  have hdrain : ∀ a ∈ run.log, a.purpose = .drain → a.ok = true := by decide +kernel
  have hdispatched : fresh.dispatches Rehearsal.backend moves = timeline.take 2 := by
    decide +kernel
  obtain ⟨-, -, -, hiff, -⟩ := announcement_law Rehearsal.backend (fun _ _ _ => rfl) rfl hshowable
    Rehearsal.smooth 0 moves hdrain
  have hprinted := hiff.mpr (by
    rw [hdispatched]
    decide +kernel)
  refine ⟨by decide +kernel, by decide +kernel, hprinted.trans ?_, hdispatched⟩
  rw [hdispatched]
  decide +kernel

/-- The line of a text of 2032 bytes loses its line feed, and the line of the next event is
printed behind it. -/
theorem long_text_joins_lines :
    let long : Event := ⟨0, .text (List.replicate 2032 97), 0⟩
    let short : Event := ⟨5, .text (ascii "b"), 1⟩
    let fresh := ofTimeline ⟨16, true⟩ [long, short] Rehearsal.smooth 0
    ∃ n,
      let run := fresh.nth Rehearsal.backend.passive id n
      let printed := (Player.started run).printed true
      run.events = [long, short] ∧ printed = long.account ++ short.line ∧
        printed ≠ [long, short].flatMap Event.line := by
  intro long short fresh
  -- Two thousand calls are too many to evaluate, but the run is known to get past both events.
  have hfresh : fresh = ofTimeline ⟨16, true⟩ [long, short] Rehearsal.smooth 0 := rfl
  obtain ⟨n, hs⟩ := exists_between_of_neverFails hfresh Rehearsal.neverFails_smooth id 2
  refine ⟨n, ?_⟩
  intro run printed
  have hdrain : ∀ a ∈ run.log, a.purpose = .drain → a.ok = true := by
    have hplayed := (phase_nth Rehearsal.backend hfresh id n).played_of_await hs
    exact fun a ha _ => (hplayed.dispatched a ha).2
  obtain ⟨horder, hprinted⟩ : run.InOrder [long, short] ∧
      printed = run.events.flatMap Entry.announcement := by
    simp only [printed, run, nth_eq_follow] at hdrain ⊢
    obtain ⟨horder, -, hquiet⟩ :=
      announcing_follow Rehearsal.backend.passive (fun _ _ _ => rfl) ⟨16, true⟩ [long, short]
        Rehearsal.smooth 0 _
    exact ⟨horder, hquiet.printed_eq hdrain⟩
  have hevents : run.events = [long, short] := by
    have hall := horder.opened (by rw [outcome?, hs])
    rw [hs] at hall
    exact (List.append_nil _).symm.trans hall
  have hshowable : ∀ event ∈ [long, short], event.action.Showable := by
    have hlong : Inline (List.replicate 2032 97) := by
      intro b hb
      rw [List.eq_of_mem_replicate hb]
      decide
    exact List.forall_mem_cons.mpr ⟨.text hlong, List.forall_mem_singleton.mpr (.text (by decide))⟩
  have hlines : printed = long.account ++ short.line := by
    rw [hprinted, hevents, Event.announcements_eq hshowable]
    decide +kernel
  refine ⟨hevents, hlines, ?_⟩
  rw [hlines]
  decide +kernel

end Run

end TimedInput
