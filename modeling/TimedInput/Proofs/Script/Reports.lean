import TimedInput.Proofs.Script.Blanking
import TimedInput.Proofs.Script.Chronology
import TimedInput.Proofs.Script.Verdicts

/-!
# What is reported of a source

The rules by which the lines of a source are judged, one after the other, stated as relations:
what a clause adds to its line, what the time of a line adds, and what comes of a line and of
all lines. Compilation follows them to the last line, whatever it finds on the way.
-/

namespace TimedInput

/-- What a clause adds to the actions and to the causes of its line. -/
inductive Clause.Share (platform : Platform) (clause : Bytes) : LineActions → Prop where
  | blank (h : clause.trim = []) : Share platform clause ⟨[], []⟩
  | accepted (h : clause.trim ≠ []) {action : Action}
    (hread : read? platform clause = some (.ok action)) : Share platform clause ⟨[action], []⟩
  | rejected (h : clause.trim ≠ []) {causes : List Cause}
    (hread : read? platform clause = some (.error causes)) (hleast : 1 ≤ causes.length)
    (hmost : causes.length ≤ 4) (hkind : ∀ cause ∈ causes, cause.kind.isSyntactic = false) :
    Share platform clause ⟨[], causes⟩

/-- The time after a line that begins with the token, and the causes for which it is refused. -/
inductive Timestamp.Share (base : UInt64) (token : Bytes) : UInt64 → List Cause → Prop where
  | accepted {timestamp : Timestamp} (h : parse? token = some timestamp)
    (hrange : timestamp.inRange base = true) : Share base token (timestamp.resolve base) []
  | refused {cause : Cause} (hkind : cause.kind = .invalidTimestamp)
    (h : ∀ timestamp, parse? token = some timestamp → timestamp.inRange base = false) :
    Share base token base [cause]

/-- What comes of a line after lines that leave the given base. -/
inductive SourceLine.Report (platform : Platform) (base : UInt64) (line : SourceLine) :
    LineReading → Prop where
  | unparted {cause : Cause} (h : 62 ∉ line.text) (hkind : cause.kind = .missingSeparator) :
    Report platform base line ⟨[⟨line.number, cause⟩], base, []⟩
  | idle {before source : Bytes} {time : UInt64} {refusal : List Cause} {cause : Cause}
    (h : line.text = before ++ 62 :: source) (hbefore : 62 ∉ before)
    (htime : Timestamp.Share base before.trim time refusal)
    (hblank : ∀ clause ∈ Bytes.splitOn Clause.separator source, clause.trim = [])
    (hkind : cause.kind = .missingAction) :
    Report platform base line ⟨(refusal ++ [cause]).map (⟨line.number, ·⟩), time, []⟩
  | active {before source : Bytes} {time : UInt64} {refusal : List Cause}
    {shares : List LineActions}
    (h : line.text = before ++ 62 :: source) (hbefore : 62 ∉ before)
    (htime : Timestamp.Share base before.trim time refusal)
    (hfilled : ∃ clause ∈ Bytes.splitOn Clause.separator source, clause.trim ≠ [])
    (hshares : List.Forall₂ (Clause.Share platform)
      (Bytes.splitOn Clause.separator source) shares) :
    Report platform base line
      ⟨(refusal ++ shares.flatMap (·.causes)).map (⟨line.number, ·⟩), time,
        shares.flatMap (·.actions)⟩

/-- What comes of lines, each with the base that those before it leave. -/
inductive SourceLine.Reports (platform : Platform) :
    UInt64 → List SourceLine → List LineReading → Prop where
  | nil {base : UInt64} : Reports platform base [] []
  | cons {base : UInt64} {line : SourceLine} {lines : List SourceLine} {reading : LineReading}
    {readings : List LineReading} (h : Report platform base line reading)
    (hrest : Reports platform reading.base lines readings) :
    Reports platform base (line :: lines) (reading :: readings)

namespace SourceLine

/-- The clauses of a line, blank ones included. A line without a separator has none. -/
def clauses (line : SourceLine) : List Bytes :=
  match split? line.text with
  | none => []
  | some (_, source) => Bytes.splitOn Clause.separator source

theorem split?_of_eq {text before source : Bytes} (h : text = before ++ 62 :: source)
    (hbefore : 62 ∉ before) : split? text = some (before.trim, source) := by
  rw [split?, h]
  change (Bytes.breakOn [62] _).map _ = _
  rw [Bytes.breakOn_append_cons hbefore]
  rfl

theorem split?_of_not_mem {text : Bytes} (h : 62 ∉ text) : split? text = none := by
  rw [split?]
  change (Bytes.breakOn [62] _).map _ = _
  rw [Bytes.breakOn_of_not_mem h]
  rfl

theorem clauses_of_eq {line : SourceLine} {before source : Bytes}
    (h : line.text = before ++ 62 :: source) (hbefore : 62 ∉ before) :
    line.clauses = Bytes.splitOn Clause.separator source := by
  rw [clauses, split?_of_eq h hbefore]

end SourceLine

namespace Clause

variable (platform : Platform)

def share (clause : Bytes) : LineActions :=
  match read? platform clause with
  | none => ⟨[], []⟩
  | some (.ok action) => ⟨[action], []⟩
  | some (.error causes) => ⟨[], causes⟩

theorem share_spec (clause : Bytes) : Share platform clause (share platform clause) := by
  unfold share
  split
  · rename_i hread
    exact .blank ((read?_eq_none_iff platform).mp hread)
  · rename_i action hread
    refine .accepted ?_ hread
    intro hblank
    rw [(read?_eq_none_iff platform).mpr hblank] at hread
    cases hread
  · rename_i causes hread
    obtain ⟨hleast, hmost, hkind⟩ := verdict_read? platform hread
    refine .rejected ?_ hread hleast hmost hkind
    intro hblank
    rw [(read?_eq_none_iff platform).mpr hblank] at hread
    cases hread

theorem forall₂_share (clauses : List Bytes) :
    List.Forall₂ (Share platform) clauses (clauses.map (share platform)) :=
  List.forall₂_map_right_iff.mpr (List.forall₂_same.mpr fun clause _ => share_spec platform clause)

theorem readAll_eq_nil_iff {source : Bytes} :
    readAll platform source = [] ↔ ∀ clause ∈ Bytes.splitOn separator source, clause.trim = [] := by
  simp only [readAll, List.filterMap_eq_nil_iff, read?_eq_none_iff]

end Clause

theorem LineActions.parse_of_blank {platform : Platform} {source : Bytes}
    (h : ∀ clause ∈ Bytes.splitOn Clause.separator source, clause.trim = []) :
    parse platform source = ⟨[], [.missingAction]⟩ := by
  rw [parse, (Clause.readAll_eq_nil_iff platform).mpr h]

/-- The clauses of a line are read one by one, and nothing that comes of them is lost. -/
theorem LineActions.parse_of_filled {platform : Platform} {source : Bytes}
    (h : ∃ clause ∈ Bytes.splitOn Clause.separator source, clause.trim ≠ []) :
    let shares := (Bytes.splitOn Clause.separator source).map (Clause.share platform)
    parse platform source = ⟨shares.flatMap (·.actions), shares.flatMap (·.causes)⟩ := by
  intro shares
  have hne : Clause.readAll platform source ≠ [] := by
    intro hnil
    obtain ⟨clause, hclause, hfilled⟩ := h
    exact hfilled ((Clause.readAll_eq_nil_iff platform).mp hnil clause hclause)
  unfold parse
  split
  · rename_i hnil
    exact absurd hnil hne
  · rw [Clause.readAll]
    simp only [shares]
    generalize Bytes.splitOn Clause.separator source = clauses
    induction clauses with
    | nil => rfl
    | cons clause clauses ih =>
      simp only [LineActions.mk.injEq] at ih ⊢
      obtain ⟨hactions, hcauses⟩ := ih
      cases hread : Clause.read? platform clause with
      | none => simp [Clause.share, hread, hactions, hcauses]
      | some reading =>
        cases reading with
        | ok action => simp [Clause.share, hread, hactions, hcauses, Except.toOption]
        | error causes =>
          have hnone : Except.toOption (.error causes : Clause.Reading) = none := rfl
          simp [Clause.share, hread, hnone, hactions, hcauses]

namespace LineReading

/-- The timestamp and the actions of a line are judged apart from each other. -/
theorem exists_ofLine_eq (platform : Platform) (base : UInt64) {line : SourceLine}
    {token source : Bytes} (hsplit : SourceLine.split? line.text = some (token, source)) :
    ∃ time refusal, Timestamp.Share base token time refusal ∧
      ofLine platform base line =
        ⟨(refusal ++ (LineActions.parse platform source).causes).map (⟨line.number, ·⟩), time,
          (LineActions.parse platform source).actions⟩ := by
  cases hparse : Timestamp.parse? token with
  | none =>
    refine ⟨base, [.malformedTimestamp token], .refused rfl ?_, ?_⟩
    · simp [hparse]
    · simp [ofLine, hsplit, readTime, hparse]
  | some timestamp =>
    cases hrange : timestamp.inRange base with
    | true =>
      refine ⟨_, [], .accepted hparse hrange, ?_⟩
      simp [ofLine, hsplit, readTime, hparse, hrange]
    | false =>
      refine ⟨base, [.timestampOutOfRange token], .refused rfl ?_, ?_⟩
      · simp [hparse, hrange]
      · simp [ofLine, hsplit, readTime, hparse, hrange]

theorem report_ofLine (platform : Platform) (base : UInt64) (line : SourceLine) :
    line.Report platform base (ofLine platform base line) := by
  by_cases hmem : 62 ∈ line.text
  · obtain ⟨before, source, htext, hbefore⟩ := List.eq_append_cons_of_mem hmem
    have hsplit := SourceLine.split?_of_eq htext hbefore
    obtain ⟨time, refusal, htime, heq⟩ := exists_ofLine_eq platform base hsplit
    rw [heq]
    by_cases hfilled : ∃ clause ∈ Bytes.splitOn Clause.separator source, clause.trim ≠ []
    · rw [LineActions.parse_of_filled hfilled]
      exact .active htext hbefore htime hfilled (Clause.forall₂_share platform _)
    · have hblank : ∀ clause ∈ Bytes.splitOn Clause.separator source, clause.trim = [] := by
        simpa using hfilled
      have hkind : Cause.missingAction.kind = .missingAction := rfl
      rw [LineActions.parse_of_blank hblank]
      exact .idle htext hbefore htime hblank hkind
  · simp only [ofLine, SourceLine.split?_of_not_mem hmem]
    exact .unparted hmem rfl

theorem reports_ofLines (platform : Platform) (base : UInt64) (lines : List SourceLine) :
    SourceLine.Reports platform base lines (ofLines platform base lines) := by
  induction lines generalizing base with
  | nil => exact .nil
  | cons line lines ih => exact .cons (report_ofLine platform base line) (ih _)

end LineReading

theorem Clause.length_actions_of_shares {platform : Platform} {clauses : List Bytes}
    {shares : List LineActions} (h : List.Forall₂ (Share platform) clauses shares)
    (hnone : shares.flatMap (·.causes) = []) :
    (shares.flatMap (·.actions)).length = clauses.countP (·.trim ≠ []) := by
  induction h with
  | nil => rfl
  | cons hshare _ ih =>
    rw [List.flatMap_cons, List.append_eq_nil_iff] at hnone
    obtain ⟨hcauses, hrest⟩ := hnone
    rw [List.flatMap_cons, List.length_append, ih hrest, List.countP_cons]
    cases hshare with
    | blank hblank => simp [hblank]
    | accepted hfilled => simp [hfilled, Nat.add_comm]
    | rejected hfilled hread hleast =>
      simp only at hcauses
      rw [hcauses] at hleast
      cases hleast

namespace SourceLine

theorem Report.length_actions {platform : Platform} {base : UInt64} {line : SourceLine}
    {reading : LineReading} (h : line.Report platform base reading)
    (hvalid : reading.errors = []) :
    reading.actions.length = line.clauses.countP (·.trim ≠ []) := by
  cases h with
  | unparted => cases hvalid
  | idle => simp at hvalid
  | active htext hbefore htime hfilled hshares =>
    rw [List.map_eq_nil_iff, List.append_eq_nil_iff] at hvalid
    rw [clauses_of_eq htext hbefore]
    exact Clause.length_actions_of_shares hshares hvalid.2

theorem Reports.length_actions {platform : Platform} {base : UInt64} {lines : List SourceLine}
    {readings : List LineReading} (h : Reports platform base lines readings)
    (hvalid : readings.flatMap (·.errors) = []) :
    (readings.flatMap (·.actions)).length =
      (lines.flatMap clauses).countP (·.trim ≠ []) := by
  induction h with
  | nil => rfl
  | cons hline _ ih =>
    rw [List.flatMap_cons, List.append_eq_nil_iff] at hvalid
    rw [List.flatMap_cons, List.flatMap_cons, List.length_append, List.countP_append,
      hline.length_actions hvalid.1, ih hvalid.2]

end SourceLine

theorem Clause.Share.accepted_of_mem {platform : Platform} {clause : Bytes} {share : LineActions}
    (h : Share platform clause share) : ∀ action ∈ share.actions, action.Accepted platform := by
  cases h with
  | blank => exact nofun
  | accepted _ hread =>
    intro action haction
    rw [List.mem_singleton.mp haction]
    exact verdict_read? platform hread
  | rejected => exact nofun

theorem Clause.accepted_of_shares {platform : Platform} {clauses : List Bytes}
    {shares : List LineActions} (h : List.Forall₂ (Share platform) clauses shares) :
    ∀ action ∈ shares.flatMap (·.actions), action.Accepted platform := by
  induction h with
  | nil => exact nofun
  | cons hshare _ ih =>
    intro action haction
    rw [List.flatMap_cons] at haction
    rcases List.mem_append.mp haction with haction | haction
    · exact hshare.accepted_of_mem action haction
    · exact ih action haction

theorem SourceLine.Reports.accepted_of_mem {platform : Platform} {base : UInt64}
    {lines : List SourceLine} {readings : List LineReading}
    (h : Reports platform base lines readings) :
    ∀ action ∈ readings.flatMap (·.actions), action.Accepted platform := by
  induction h with
  | nil => exact nofun
  | cons hline _ ih =>
    intro action haction
    rw [List.flatMap_cons] at haction
    rcases List.mem_append.mp haction with haction | haction
    · cases hline with
      | unparted => cases haction
      | idle => cases haction
      | active _ _ _ _ hshares => exact Clause.accepted_of_shares hshares action haction
    · exact ih action haction

namespace Script

variable {platform : Platform} {source : Bytes}

theorem timeline_of_invalid (h : (compile platform source).isValid = false) :
    (compile platform source).timeline = [] := by
  change (if (compile platform source).isValid then _ else []) = _
  rw [h]
  rfl

theorem timeline_of_valid (h : (compile platform source).isValid = true) :
    (compile platform source).timeline =
      Timeline.ofLines ((LineReading.ofLines platform 0 (SourceLine.ofSource source)).map
        fun r => ⟨r.base, r.actions⟩) := by
  change (if (compile platform source).isValid then _ else []) = _
  rw [if_pos h]

/-- A valid script has all the actions of its lines and no others. -/
theorem actions_perm (h : (compile platform source).isValid = true) :
    ((compile platform source).timeline.map (·.action)).Perm
      ((LineReading.ofLines platform 0 (SourceLine.ofSource source)).flatMap (·.actions)) := by
  let readings := LineReading.ofLines platform 0 (SourceLine.ofSource source)
  have hactions := Timeline.actions_perm (readings.map fun r => ⟨r.base, r.actions⟩)
  rwa [List.flatMap_map, ← timeline_of_valid h] at hactions

/-- Nothing gets into a timeline but what the clauses were accepted for. -/
theorem accepted_of_mem_timeline {event : Event} (h : event ∈ (compile platform source).timeline) :
    event.action.Accepted platform := by
  cases hvalid : (compile platform source).isValid with
  | false =>
    rw [timeline_of_invalid hvalid] at h
    cases h
  | true =>
    have hreports := LineReading.reports_ofLines platform 0 (SourceLine.ofSource source)
    apply hreports.accepted_of_mem
    exact (actions_perm hvalid).mem_iff.mp (List.mem_map_of_mem h)

end Script

/-- The lines that are judged are those of the source with their comments blanked, as far as they
are not blank then, under their numbers in the source. Each of them is judged by the rules above,
and the errors of a script are what is reported of its lines, in this order. A script is valid if
there are none. A timeline is made of a valid script only, and it has all the actions of the
lines, one for each clause that is not blank. -/
theorem Script.compile_reports_everything (platform : Platform) (source : Bytes) :
    let script := compile platform source
    let stripped := Bytes.splitOn [Comment.newline] (Comment.strip source)
    let lines := SourceLine.ofSource source
    List.Forall₂ Comment.Blanked (Bytes.splitOn [Comment.newline] source) stripped ∧
    (lines = (stripped.zipIdx 1).filterMap fun (line, number) =>
      if line.trim = [] then none else some ⟨number, line.trim⟩) ∧
    (∃ readings : List LineReading,
      SourceLine.Reports platform 0 lines readings ∧
      script.errors = readings.flatMap (·.errors) ∧
      (script.isValid = true →
        (script.timeline.map (·.action)).Perm (readings.flatMap (·.actions)))) ∧
    (script.isValid = true ↔ script.errors = []) ∧
    (script.isValid = false → script.timeline = []) ∧
    (script.isValid = true →
      script.timeline.length = (lines.flatMap SourceLine.clauses).countP (·.trim ≠ [])) := by
  intro script stripped lines
  let readings := LineReading.ofLines platform 0 lines
  have hreports : SourceLine.Reports platform 0 lines readings :=
    LineReading.reports_ofLines platform 0 lines
  have herrors : script.errors = readings.flatMap (·.errors) := rfl
  have hvalid : script.isValid = true ↔ script.errors = [] := List.isEmpty_iff
  refine ⟨Comment.blanked_lines source, rfl, ⟨readings, hreports, herrors, actions_perm⟩, hvalid,
    timeline_of_invalid, ?_⟩
  intro h
  rw [← hreports.length_actions (herrors ▸ hvalid.mp h), ← (actions_perm h).length_eq,
    List.length_map]

end TimedInput
