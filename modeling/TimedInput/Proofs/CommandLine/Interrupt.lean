import Mathlib
import TimedInput.Proofs.Backend.Paper
import TimedInput.Proofs.CommandLine.Plans
import TimedInput.Proofs.Playback.Lifecycle

/-!
# Interrupts

A dry run that is interrupted is compared with the one that is not. The program looks for an
interrupt only when a slice has passed. If the run is over by then, the interrupt has no effect;
otherwise the program ends there and then, with the releases of what is held at that instant.
-/

namespace TimedInput.CommandLine

theorem slice_ne_zero : slice ≠ 0 := by
  decide

/-- The end of the first slice that does not end before the interrupt. -/
def noticed (interrupt : Nat) : Nat :=
  ((interrupt - 1) / slice + 1) * slice

theorem le_noticed (interrupt : Nat) : interrupt ≤ noticed interrupt := by
  have hlt := Nat.lt_div_mul_add (a := interrupt - 1) (Nat.pos_of_ne_zero slice_ne_zero)
  rw [noticed, Nat.succ_mul]
  omega

theorem isLeast_noticed (interrupt : Nat) :
    IsLeast {p | 0 < p ∧ slice ∣ p ∧ interrupt ≤ p} (noticed interrupt) := by
  have hpos : 0 < slice := Nat.pos_of_ne_zero slice_ne_zero
  refine ⟨⟨Nat.mul_pos (Nat.succ_pos _) hpos, Nat.dvd_mul_left .., le_noticed interrupt⟩, ?_⟩
  rintro p ⟨hp, ⟨k, rfl⟩, hle⟩
  have hk : (interrupt - 1) / slice < k := by
    rw [Nat.div_lt_iff_lt_mul hpos, Nat.mul_comm k]
    omega
  rw [noticed, Nat.mul_comm slice]
  exact Nat.mul_le_mul_right slice hk

/-- What happens in a dry run, the earliest first. -/
def entries (settings : Settings) (script : Script) (interrupt : Option Nat) : List Entry :=
  ((dryRun settings script).supervise slice interrupt).player.history.reverse

/-- What is printed in a dry run, and when, the earliest first. -/
def lines (settings : Settings) (script : Script) (interrupt : Option Nat) : List (Nat × Bytes) :=
  (entries settings script interrupt).map (Entry.shown settings.verbose)

/-- The run of a script before its first step. -/
def opening (settings : Settings) (script : Script) : Run Printer :=
  .ofTimeline settings script.timeline (.new 0) 0

/-- The run of a script to its end, and when it ends. -/
def whole (settings : Settings) (script : Script) : Nat × Run Printer :=
  (opening settings script).playUntil Printer.backend none 0

/-- The run of a script as far as it comes before an interrupt is noticed. -/
def cut (settings : Settings) (script : Script) (interrupt : Nat) : Nat × Run Printer :=
  (opening settings script).playUntil Printer.backend (some (noticed interrupt)) 0

theorem onPaper_whole (settings : Settings) (script : Script) :
    (whole settings script).2.OnPaper 0 (whole settings script).1 :=
  (Run.onPaper_ofTimeline settings script.timeline 0).playUntil none

theorem isOver_whole (settings : Settings) (script : Script) :
    (whole settings script).2.isOver = true :=
  Run.isOver_playUntil ..

theorem whole_le_horizon (settings : Settings) (script : Script) :
    (whole settings script).1 ≤ horizon :=
  Run.playUntil_le_horizon ..

theorem stage_whole (settings : Settings) (script : Script) :
    (whole settings script).2.stage = .ended .completed := by
  have hunasked : (opening settings script).Unasked := ⟨rfl, nofun⟩
  exact (onPaper_whole settings script).printing.completed (hunasked.playUntil none 0)
    (isOver_whole settings script)

theorem onPaper_cut (settings : Settings) (script : Script) (interrupt : Nat) :
    (cut settings script interrupt).2.OnPaper 0 (cut settings script interrupt).1 :=
  (Run.onPaper_ofTimeline settings script.timeline 0).playUntil _

theorem history_cut (settings : Settings) (script : Script) (interrupt : Nat) :
    (cut settings script interrupt).2.history =
      (whole settings script).2.history.filter (·.instant ≤ noticed interrupt) :=
  Run.history_playUntil (Run.onPaper_ofTimeline settings script.timeline 0).dated (Nat.zero_le _)

/-- What is not over when the interrupt is noticed waits for something. -/
theorem polls_cut {settings : Settings} {script : Script} {interrupt : Nat}
    (h : noticed interrupt < (whole settings script).1) :
    (cut settings script interrupt).2.polls = true := by
  have hclock : (cut settings script interrupt).1 ≤ noticed interrupt :=
    Run.playUntil_le _ _ (Nat.zero_le _)
  have hover : (cut settings script interrupt).2.isOver ≠ true := by
    intro hover
    have := (Run.isOver_playUntil_iff _ (Nat.zero_le _) _).mp hover
    exact Nat.not_le_of_lt h this
  have hlate := (Run.isOver_or_late Printer.backend (noticed interrupt) 0
    (opening settings script)).resolve_left hover
  exact (onPaper_cut settings script interrupt).printing.polls hclock hlate

section DryRun

variable (settings : Settings) {script : Script} (hvalid : script.isValid = true)
include hvalid

theorem dryRun_eq :
    dryRun settings script =
      ⟨Printer.backend, settings, 0, .started (opening settings script)⟩ := by
  simp [dryRun, Session.new, Session.start, Player.start, hvalid, opening]

theorem supervise_dryRun_none :
    (dryRun settings script).supervise slice none =
      ⟨Printer.backend, settings, (whole settings script).1,
        .started (whole settings script).2⟩ := by
  rw [Session.supervise_none slice_ne_zero, dryRun_eq settings hvalid]
  rfl

theorem isSettled_sleep_dryRun (interrupt : Nat) :
    ((dryRun settings script).sleep (noticed interrupt)).isSettled = true ↔
      (whole settings script).1 ≤ noticed interrupt := by
  have hspan : noticed interrupt ≠ 0 := (isLeast_noticed interrupt).1.1.ne'
  rw [dryRun_eq settings hvalid, Session.isSettled_sleep_iff rfl hspan, Nat.zero_add]
  rfl

theorem supervise_dryRun_some (interrupt : Nat) :
    (dryRun settings script).supervise slice (some interrupt) =
      if (whole settings script).1 ≤ noticed interrupt then
        (dryRun settings script).supervise slice none
      else ((dryRun settings script).sleep (noticed interrupt)).cancel.supervise slice
        (some interrupt) := by
  have hclock : (dryRun settings script).clock = 0 := by rw [dryRun_eq settings hvalid]
  let n := (interrupt - 1) / slice
  have hlate : n = 0 ∨ (dryRun settings script).clock + n * slice < interrupt := by
    have hle : n * slice ≤ interrupt - 1 := Nat.div_mul_le_self ..
    rcases Nat.eq_zero_or_pos interrupt with rfl | hinterrupt
    · exact .inl (Nat.zero_div slice)
    · right
      omega
  have hle : interrupt ≤ (dryRun settings script).clock + (n + 1) * slice := by
    rw [hclock, Nat.zero_add]
    exact le_noticed interrupt
  rw [Session.supervise_some slice_ne_zero hlate hle, Session.supervise_none slice_ne_zero]
  simp only [← isSettled_sleep_dryRun settings hvalid interrupt]
  rfl

theorem cancel_sleep_dryRun (interrupt : Nat) :
    ((dryRun settings script).sleep (noticed interrupt)).cancel =
      ⟨Printer.backend, settings, noticed interrupt,
        .started (cut settings script interrupt).2.requestCancel⟩ := by
  have hspan : noticed interrupt ≠ 0 := (isLeast_noticed interrupt).1.1.ne'
  rw [dryRun_eq settings hvalid]
  simp only [Session.sleep, hspan, if_false, Session.play, Nat.zero_add, Session.cancel,
    Player.cancel_started]
  rfl

/-- A run that is not over when the interrupt is noticed ends there and then, and releases what is
held. -/
theorem supervise_dryRun_of_lt {interrupt : Nat}
    (h : noticed interrupt < (whole settings script).1) :
    let cut := (cut settings script interrupt).2
    ∃ last, (dryRun settings script).supervise slice (some interrupt) =
        ⟨Printer.backend, settings, noticed interrupt, .started last⟩ ∧
      last.stage = .ended .cancelled ∧ last.OnPaper 0 (noticed interrupt) ∧
      last.history =
        (cut.state.releases.map fun call => .called (noticed interrupt) .drain call
          (Printer.reply 0 (noticed interrupt) call)).reverse ++ cut.history := by
  intro cut
  have hpaper : cut.OnPaper 0 (noticed interrupt) :=
    (onPaper_cut settings script interrupt).later (Run.playUntil_le _ _ (Nat.zero_le _))
  have hpolls : cut.polls = true := polls_cut h
  obtain ⟨last, hplayed, hended, hhistory⟩ :=
    hpaper.printing.playUntil_cancelled (Nat.le_refl _) hpolls
  let asked : Session Printer :=
    ⟨Printer.backend, settings, noticed interrupt, .started cut.requestCancel⟩
  have hwait : asked.wait = ⟨Printer.backend, settings, noticed interrupt, .started last⟩ := by
    simp only [Session.wait, Session.play, asked, hplayed]
  have hsettled : (asked.sleep slice).isSettled = true := by
    have hover : asked.isSettled = false := by
      simpa [asked, Run.isOver] using Run.isOver_of_polls hpolls
    rw [Session.isSettled_sleep_iff hover slice_ne_zero, hwait]
    exact Nat.le_add_right _ _
  refine ⟨last, ?_, hended, ?_, hhistory⟩
  · rw [supervise_dryRun_some settings hvalid, if_neg (Nat.not_le_of_lt h),
      cancel_sleep_dryRun settings hvalid,
      Session.supervise_of_settles slice_ne_zero hsettled, hwait]
  · have hlast := hpaper.requestCancel.playUntil none
    rwa [hplayed] at hlast

theorem exists_supervise_dryRun (interrupt : Option Nat) :
    ∃ clock run, (dryRun settings script).supervise slice interrupt =
        ⟨Printer.backend, settings, clock, .started run⟩ ∧
      run.isOver = true ∧ run.OnPaper 0 clock ∧ clock ≤ horizon := by
  have hplain : ∃ clock run, (dryRun settings script).supervise slice none =
      ⟨Printer.backend, settings, clock, .started run⟩ ∧
        run.isOver = true ∧ run.OnPaper 0 clock ∧ clock ≤ horizon :=
    ⟨_, _, supervise_dryRun_none settings hvalid, isOver_whole .., onPaper_whole ..,
      whole_le_horizon ..⟩
  cases interrupt with
  | none => exact hplain
  | some interrupt =>
    rcases Nat.lt_or_ge (noticed interrupt) (whole settings script).1 with h | h
    · obtain ⟨last, hlast, hended, hpaper, -⟩ := supervise_dryRun_of_lt settings hvalid h
      exact ⟨_, _, hlast, by simp [Run.isOver, Stage.isOver, hended], hpaper,
        h.le.trans (whole_le_horizon settings script)⟩
    · rw [supervise_dryRun_some settings hvalid, if_pos h]
      exact hplain

theorem filter_entries (interrupt : Nat) :
    (entries settings script none).filter (·.instant ≤ noticed interrupt) =
      (cut settings script interrupt).2.history.reverse := by
  rw [entries, supervise_dryRun_none settings hvalid, List.filter_reverse, history_cut]
  rfl

theorem filter_lines (interrupt : Nat) :
    (lines settings script none).filter (·.1 ≤ noticed interrupt) =
      (cut settings script interrupt).2.history.reverse.map (Entry.shown settings.verbose) := by
  rw [← filter_entries settings hvalid, lines, List.filter_map]
  rfl

/-- A switch is held when the interrupt is noticed if the last line that names it tells of a
press. -/
theorem held_cut {interrupt : Nat} (h : noticed interrupt < (whole settings script).1) :
    let before := (lines settings script none).filter (·.1 ≤ noticed interrupt)
    (cut settings script interrupt).2.state.Ordered ∧
      ∀ sw : Switch, sw.Held (cut settings script interrupt).2.state ↔
        (sw.notices before).getLast? = some .down := by
  intro before
  have hfirst := InputState.ordered_empty (some .origin)
  have hpaper := onPaper_cut settings script interrupt
  have hplayed := hpaper.phase.of_polls (polls_cut h)
  have hclock : (cut settings script interrupt).1 ≤ noticed interrupt :=
    Run.playUntil_le _ _ (Nat.zero_le _)
  have hnear := hpaper.printed_near
    (hclock.trans (h.le.trans (whole_le_horizon settings script)))
  have hbefore : before = _ := filter_lines settings hvalid interrupt
  rw [hplayed.state_eq]
  refine ⟨hfirst.replay _, ?_⟩
  intro sw
  rw [hbefore, notices_shown settings.verbose hnear]
  exact InputState.held_replay_iff hfirst (sw.position_empty _) _

end DryRun

section Program

variable {content? : Bytes → Option Bytes} {args : List Bytes} {settings : Settings}
variable {script : Script} {warnings : Bytes}
variable (hplan : Plan.ofArguments content? args = .play settings script warnings)
include hplan

theorem isValid_of_play : script.isValid = true := by
  obtain ⟨groups, -, hchecked, -⟩ := play_iff_checked.mp hplan
  simp [Script.isValid, hchecked.valid]

theorem run_eq_of_supervise {interrupt : Option Nat} {clock : Nat} {last : Run Printer}
    (h : (dryRun settings script).supervise slice interrupt =
      ⟨Printer.backend, settings, clock, .started last⟩) :
    run content? args interrupt =
      ⟨(farewell (.started last)).1, clock,
        last.history.reverse.flatMap (Entry.printed settings.verbose),
        warnings ++ (farewell (.started last)).2⟩ := by
  simp only [run, hplan, Plan.execute, h]
  rfl

/-- For all arguments that lead to a dry run, whenever an interrupt comes: what is printed are the
lines of the calls, and the events where they are asked for, each at its instant. What is printed of
a key or a button is what is done to it, and a line that tells of a press is followed by one that
tells of the release. Without an interrupt the exit code is zero. An interrupt is looked for at the
multiples of the slice. If the run is over at the first that does not lie before the interrupt,
nothing is different. Otherwise the program ends at that instant with exit code two, and has printed
what the whole run prints until then and one line for each key and then for each button that is down
by then, in ascending order, which tells of its release. -/
theorem interrupt_law :
    (∀ interrupt,
      let result := run content? args interrupt
      let all := entries settings script interrupt
      let printed := lines settings script interrupt
      result.stdout = printed.flatMap (·.2) ∧
      printed.Pairwise (·.1 ≤ ·.1) ∧
      (∀ line ∈ printed, line.1 ≤ result.ended) ∧
      (∀ now purpose call reply, .called now purpose call reply ∈ all →
        reply.ok = true ∧ reply.printed = Printer.stamped now (Printer.wording call)) ∧
      (∀ sw : Switch, sw.notices printed = presses sw (all.filterMap Entry.attempt?)) ∧
      ∀ (sw : Switch) before now after,
        printed = before ++ (now, Printer.stamped now (sw.notice .down)) :: after →
          ∃ later, (later, Printer.stamped later (sw.notice .up)) ∈ after ∧ now ≤ later) ∧
    (run content? args none).exit = 0 ∧
    ∀ interrupt : Nat,
      let plain := run content? args none
      let broken := run content? args (some interrupt)
      let seen := noticed interrupt
      let before := (lines settings script none).filter (·.1 ≤ seen)
      IsLeast {p | 0 < p ∧ slice ∣ p ∧ interrupt ≤ p} seen ∧
      (plain.ended ≤ seen → broken = plain) ∧
      (seen < plain.ended →
        broken.exit = 2 ∧ broken.ended = seen ∧
        ∃ (keys : List KeyCode) (buttons : List Int32),
          keys.Pairwise (· < ·) ∧ buttons.Pairwise (· < ·) ∧
          (∀ code, code ∈ keys ↔ ((Switch.key code).notices before).getLast? = some .down) ∧
          (∀ number, number ∈ buttons ↔
            ((Switch.button number).notices before).getLast? = some .down) ∧
          broken.stdout = before.flatMap (·.2) ++
            (keys.flatMap (fun code => Printer.stamped seen (ascii "Release key " ++ code.name)) ++
              buttons.flatMap fun number =>
                Printer.stamped seen
                  (ascii "Release mouse button " ++ Numeral.ofInt number.toInt))) := by
  have hvalid := isValid_of_play hplan
  have hplain := run_eq_of_supervise hplan (supervise_dryRun_none settings hvalid)
  refine ⟨?_, ?_, ?_⟩
  · intro interrupt result all printed
    obtain ⟨clock, last, hsession, hover, hpaper, hclock⟩ :=
      exists_supervise_dryRun settings hvalid interrupt
    have hresult : result = _ := run_eq_of_supervise hplan hsession
    have hall : all = last.history.reverse := by
      simp only [all, entries, hsession]
      rfl
    have hprinted : printed = last.history.reverse.map (Entry.shown settings.verbose) :=
      congrArg (List.map _) hall
    have hnear := hpaper.printed_near hclock
    rw [hresult, hall, hprinted]
    refine ⟨?_, ?_, ?_, ?_, notices_shown settings.verbose hnear, ?_⟩
    · rw [List.flatMap_map]
      rfl
    · exact List.pairwise_map.mpr (List.pairwise_reverse.mpr hpaper.dated.ordered)
    · intro line hline
      obtain ⟨e, he, rfl⟩ := List.mem_map.mp hline
      exact hpaper.dated.past e (List.mem_reverse.mp he)
    · intro now purpose call reply hmem
      obtain ⟨hreply, hsoon⟩ := hnear _ hmem
      obtain rfl : reply = Printer.reply 0 now call := hreply
      exact ⟨rfl, Printer.line_eq_stamped hsoon call⟩
    · intro sw before now after hpress
      exact hpaper.exists_release_line hclock hover hpress
  · rw [hplain, farewell, Player.state_started_of_ended (stage_whole settings script)]
    rfl
  · intro interrupt plain broken seen before
    have hended : plain.ended = (whole settings script).1 := by
      simp only [plain, hplain]
    rw [hended]
    refine ⟨isLeast_noticed interrupt, ?_, ?_⟩
    · intro hle
      have hsession := supervise_dryRun_some settings hvalid interrupt
      rw [if_pos hle] at hsession
      simp only [broken, plain, run, hplan, Plan.execute, hsession]
    · intro hlt
      obtain ⟨last, hlast, hended, -, hhistory⟩ := supervise_dryRun_of_lt settings hvalid hlt
      obtain ⟨hordered, hheld⟩ := held_cut settings hvalid hlt
      have hbroken : broken = _ := run_eq_of_supervise hplan hlast
      have hbefore : before = _ := filter_lines settings hvalid interrupt
      have hseen : seen ≤ horizon := hlt.le.trans (whole_le_horizon settings script)
      rw [hbroken]
      refine ⟨?_, rfl, (cut settings script interrupt).2.state.keys,
        (cut settings script interrupt).2.state.buttons, hordered.keys, hordered.buttons,
        fun code => hheld (.key code), fun number => hheld (.button number), ?_⟩
      · rw [farewell, Player.state_started_of_ended hended]
        rfl
      · rw [hhistory, hbefore, List.reverse_append, List.reverse_reverse, List.flatMap_append,
          flatMap_releases settings.verbose hseen, List.flatMap_map]
        rfl

end Program

theorem interrupt_law_held_key :
    let source := ascii "0>keydown a;\n200>keyup a;"
    let args := [ascii "-d", ascii "a.tatata"]
    let plain := run (fun _ => some source) args none
    let broken := run (fun _ => some source) args (some (Instant.ofMilliseconds 60))
    plain.exit = 0 ∧ plain.ended = Instant.ofMilliseconds 200 ∧
      plain.stdout = ascii "[     0ms] Press key a\n[   200ms] Release key a\n" ∧
      broken.exit = 2 ∧ broken.ended = Instant.ofMilliseconds 100 ∧
      broken.stdout = ascii "[     0ms] Press key a\n[   100ms] Release key a\n" := by
  intro source args plain broken
  let script : Script :=
    ⟨.linux, [⟨0, .key .down ⟨97⟩, 0⟩, ⟨200, .key .up ⟨97⟩, 1⟩], [], []⟩
  have hplan : Plan.ofArguments (fun _ => some source) args = .play .standard script [] := by
    decide +kernel
  have hplain : plain.ended = Instant.ofMilliseconds 200 ∧
      plain.stdout = ascii "[     0ms] Press key a\n[   200ms] Release key a\n" := by
    simp only [plain, run_eq_of_supervise hplan (supervise_dryRun_none .standard rfl)]
    cbv
  have hstdout : broken.stdout = ascii "[     0ms] Press key a\n[   100ms] Release key a\n" := by
    have hlate : noticed (Instant.ofMilliseconds 60) < (whole .standard script).1 := by cbv
    obtain ⟨last, hlast, -, -, hhistory⟩ := supervise_dryRun_of_lt .standard rfl hlate
    simp only [broken, run_eq_of_supervise hplan hlast, hhistory]
    cbv
  obtain ⟨-, hexit, hlaw⟩ := interrupt_law hplan
  obtain ⟨-, -, hbroken⟩ := hlaw (Instant.ofMilliseconds 60)
  rw [hplain.1] at hbroken
  obtain ⟨hcancelled, hclock, -⟩ := hbroken (by decide)
  exact ⟨hexit, hplain.1, hplain.2, hcancelled, hclock.trans rfl, hstdout⟩

end TimedInput.CommandLine
