import TimedInput.Proofs.CommandLine.Arguments

/-!
# Plans

A plan is to play a script or to stop. It is to play one if everything that is looked at is in
order; otherwise, where no help was asked for, it is to stop with a failure.
-/

namespace TimedInput

/-- The source is the content of the file without one byte order mark. -/
def Script.IsSource (content source : Bytes) : Prop :=
  content = byteOrderMark ++ source ∨ ¬byteOrderMark <+: content ∧ content = source

theorem Script.exists_isSource (content : Bytes) :
    ∃ source, IsSource content source ∧ ofFile content = compile .standard source := by
  unfold ofFile
  split
  · rename_i h
    obtain ⟨source, rfl⟩ := List.isPrefixOf_iff_prefix.mp h
    exact ⟨source, .inl rfl, by rw [List.drop_left]⟩
  · rename_i h
    exact ⟨content, .inr ⟨fun hprefix => h (List.isPrefixOf_iff_prefix.mpr hprefix), rfl⟩, rfl⟩

theorem Script.ofFile_eq {content source : Bytes} (h : IsSource content source) :
    ofFile content = compile .standard source := by
  unfold ofFile
  rcases h with rfl | ⟨h, rfl⟩
  · rw [if_pos (List.isPrefixOf_iff_prefix.mpr (List.prefix_append ..)), List.drop_left]
  · rw [if_neg fun hprefix => h (List.isPrefixOf_iff_prefix.mp hprefix)]

namespace CommandLine

variable {content? : Bytes → Option Bytes}

/-- What stops the program after the arguments were read is a failure. -/
theorem ofOptions_play_or_stop (options : Options) :
    (∃ settings script warnings,
      Plan.ofOptions content? options = .play settings script warnings) ∨
      ∃ stderr, Plan.ofOptions content? options = .stop 1 [] stderr := by
  unfold Plan.ofOptions
  split
  · exact .inr ⟨_, rfl⟩
  · split
    · exact .inr ⟨_, rfl⟩
    · simp only
      split
      · exact .inr ⟨_, rfl⟩
      · split
        · exact .inr ⟨_, rfl⟩
        · exact .inl ⟨_, _, _, rfl⟩

theorem ofOptions_eq_play_iff {options : Options} {settings : Settings} {script : Script}
    {warnings : Bytes} :
    Plan.ofOptions content? options = .play settings script warnings ↔
      ascii ".tatata" <:+ options.path ∧
      (∃ content source, content? options.path = some content ∧ Script.IsSource content source ∧
        script = .compile .standard source) ∧
      script.errors = [] ∧ options.dryRun = true ∧ settings = options.settings ∧
      warnings = report (ascii "warning: ") script.warnings := by
  have hsuffix : options.path.endsWith (ascii ".tatata") = true ↔
      ascii ".tatata" <:+ options.path := List.isSuffixOf_iff_suffix
  unfold Plan.ofOptions
  constructor
  · intro h
    split at h
    · cases h
    · rename_i hpath
      split at h
      · cases h
      · rename_i content hcontent
        simp only at h
        split at h
        · cases h
        · rename_i hvalid
          split at h
          · cases h
          · rename_i hdry
            cases h
            obtain ⟨source, hsource, hscript⟩ := Script.exists_isSource content
            refine ⟨hsuffix.mp (by simpa using hpath),
              ⟨content, source, hcontent, hsource, hscript⟩, ?_, by simpa using hdry, rfl, rfl⟩
            simpa [Script.isValid] using hvalid
  · rintro ⟨hpath, ⟨content, source, hcontent, hsource, rfl⟩, herrors, hdry, rfl, rfl⟩
    have hvalid : (Script.compile .standard source).isValid = true := by
      simp [Script.isValid, herrors]
    simp [hsuffix.mpr hpath, hcontent, Script.ofFile_eq hsource, hvalid, hdry]

/-- Everything that is looked at before a script is played. -/
structure Checked (content? : Bytes → Option Bytes) (groups : List Group) (script : Script) :
    Prop where
  readable : Readable groups
  path : (operands groups).filter (· ≠ []) = [(gathered groups).path]
  extension : ascii ".tatata" <:+ (gathered groups).path
  content : ∃ content source, content? (gathered groups).path = some content ∧
    Script.IsSource content source ∧ script = .compile .standard source
  valid : script.errors = []
  dryRun : (gathered groups).dryRun = true

theorem play_iff_checked {args : List Bytes} {settings : Settings} {script : Script}
    {warnings : Bytes} :
    Plan.ofArguments content? args = .play settings script warnings ↔
      ∃ groups, args.map Bytes.untilNul = groups.flatMap Group.words ∧
        Checked content? groups script ∧ settings = (gathered groups).settings ∧
        warnings = report (ascii "warning: ") script.warnings := by
  have hplay : Plan.ofArguments content? args = .play settings script warnings ↔
      ∃ options, Request.ofArguments args = .play options ∧
        Plan.ofOptions content? options = .play settings script warnings := by
    unfold Plan.ofArguments
    cases Request.ofArguments args <;> simp
  rw [hplay]
  constructor
  · rintro ⟨options, hrequest, hoptions⟩
    obtain ⟨groups, hreadable, hargs, hpath, rfl⟩ :=
      (ofArguments_eq_play_iff args options).mp hrequest
    obtain ⟨hextension, hcontent, hvalid, hdry, hsettings, hwarnings⟩ :=
      ofOptions_eq_play_iff.mp hoptions
    have hchecked : Checked content? groups script :=
      ⟨hreadable, hreadable.filter_operands hpath, hextension, hcontent, hvalid, hdry⟩
    exact ⟨groups, hargs, hchecked, hsettings, hwarnings⟩
  · rintro ⟨groups, hargs, h, hsettings, hwarnings⟩
    have hpath : (gathered groups).path ≠ [] := by
      intro hnil
      have hmem : [] ∈ (operands groups).filter (· ≠ []) := by
        rw [h.path, hnil]
        exact List.mem_cons_self
      exact of_decide_eq_true (List.mem_filter.mp hmem).2 rfl
    refine ⟨gathered groups, ?_, ?_⟩
    · exact (ofArguments_eq_play_iff args _).mpr ⟨groups, h.readable, hargs, hpath, rfl⟩
    · exact ofOptions_eq_play_iff.mpr
        ⟨h.extension, h.content, h.valid, h.dryRun, hsettings, hwarnings⟩

/-- Arguments that do not lead to a dry run, and do not ask for help, make the program fail. -/
theorem stop_of_not_play {args : List Bytes} (hhelp : ¬AsksForHelp args)
    (hplay : ∀ settings script warnings,
      Plan.ofArguments content? args ≠ .play settings script warnings) :
    ∃ stderr, Plan.ofArguments content? args = .stop 1 [] stderr := by
  rw [← ofArguments_eq_help_iff] at hhelp
  unfold Plan.ofArguments at *
  cases hrequest : Request.ofArguments args with
  | help => exact absurd hrequest hhelp
  | refuse message => exact ⟨_, rfl⟩
  | play options =>
    simp only [hrequest] at hplay
    rcases ofOptions_play_or_stop options with ⟨settings, script, warnings, h⟩ | hstop
    · exact absurd h (hplay settings script warnings)
    · exact hstop

end CommandLine

end TimedInput
