import TimedInput.Proofs.CommandLine.Interrupt

/-!
# Validation

Nothing is played before everything is in order: the arguments, the name of the file, its content
and the request for a dry run. Where something is not, the program prints nothing and fails, and
otherwise it does what a player does with the script.
-/

namespace TimedInput.CommandLine

variable {content? : Bytes → Option Bytes}

theorem run_eq_of_request {args args' : List Bytes}
    (h : Request.ofArguments args' = Request.ofArguments args) (interrupt : Option Nat) :
    run content? args' interrupt = run content? args interrupt := by
  simp only [run, Plan.ofArguments, h]

/-- For all arguments and files: a script is played exactly if the arguments are groups that can be
read, with one path that is not empty and has the extension, the path has a content, its source
compiles without errors, and a dry run was asked for. A request for help that is reached stops the
program with the usage; in all other cases in which nothing is played the program prints nothing and
its exit code is one. What is played without an interrupt is accepted by a player with the settings
that the groups come to, and is completed; the exit code is zero, and what is printed is what that
player prints. The order of the groups does not matter, except that the last interval counts. -/
theorem validation_law (content? : Bytes → Option Bytes) (args : List Bytes) :
    (∀ settings script warnings,
      Plan.ofArguments content? args = .play settings script warnings ↔
        ∃ groups, args.map Bytes.untilNul = groups.flatMap Group.words ∧
          Checked content? groups script ∧ settings = (gathered groups).settings ∧
          warnings = report (ascii "warning: ") script.warnings) ∧
    (AsksForHelp args →
      Plan.ofArguments content? args = .stop 0 usage [] ∧
      ∀ interrupt, run content? args interrupt = ⟨0, 0, usage, []⟩) ∧
    (¬AsksForHelp args →
      (∀ settings script warnings,
        Plan.ofArguments content? args ≠ .play settings script warnings) →
      ∀ interrupt,
        (run content? args interrupt).exit = 1 ∧ (run content? args interrupt).stdout = []) ∧
    (∀ settings script warnings,
      Plan.ofArguments content? args = .play settings script warnings →
        let begun := (Session.new Printer.backend settings (some (.new 0)) 0).start script
        let result := run content? args none
        begun.2 = true ∧ begun.1.wait.state = .completed ∧ result.exit = 0 ∧
          result.stdout = begun.1.wait.player.printed settings.verbose) ∧
    ∀ groups args' groups', Readable groups → groups.Perm groups' →
      operands groups = operands groups' →
      (groups.filterMap Group.tick?).getLast? = (groups'.filterMap Group.tick?).getLast? →
      args.map Bytes.untilNul = groups.flatMap Group.words →
      args'.map Bytes.untilNul = groups'.flatMap Group.words →
      ∀ interrupt, run content? args' interrupt = run content? args interrupt := by
  refine ⟨fun settings script warnings => play_iff_checked, ?_, ?_, ?_, ?_⟩
  · intro hhelp
    have hrequest := (ofArguments_eq_help_iff args).mpr hhelp
    have hplan : Plan.ofArguments content? args = .stop 0 usage [] := by
      simp only [Plan.ofArguments, hrequest]
    exact ⟨hplan, fun interrupt => by simp only [run, hplan, Plan.execute]⟩
  · intro hhelp hplay interrupt
    obtain ⟨stderr, hstop⟩ := stop_of_not_play hhelp hplay
    simp only [run, hstop, Plan.execute, and_self]
  · intro settings script warnings hplan begun result
    have hvalid := isValid_of_play hplan
    have hsession := supervise_dryRun_none settings hvalid
    have hwait : begun.1.wait = _ := (Session.supervise_none slice_ne_zero).symm.trans hsession
    have hresult : result = _ := run_eq_of_supervise hplan hsession
    have hstage := stage_whole settings script
    refine ⟨?_, ?_, ?_, ?_⟩
    · simp [begun, Session.new, Session.start, Player.start, hvalid]
    · rw [hwait]
      exact Player.state_started_of_ended hstage
    · rw [hresult, farewell, Player.state_started_of_ended hstage]
      rfl
    · rw [hresult, hwait]
      rfl
  · intro groups args' groups' hreadable hperm hoperands hticks hargs hargs' interrupt
    apply run_eq_of_request
    rw [ofArguments_groups hreadable hargs,
      ofArguments_groups (hreadable.perm hperm hoperands) hargs',
      gathered_perm hperm hoperands hticks]

end TimedInput.CommandLine
