import TimedInput.Proofs.Script.Resolution
import TimedInput.Proofs.Script.Uncommented

/-!
# Lines that break nothing else

A line without an acceptable time leaves the base of relative times as it is, so the lines below
are read as if it were not there. If it is emptied, its own errors go away and everything that is
said of the other lines stays.
-/

namespace TimedInput

namespace SourceLine

/-- Why a line has no time after one at `base`: it has no separator, or what stands in front of the
separator is no timestamp, or the timestamp means too late a time. -/
inductive Untimed (base : Nat) (line : SourceLine) : Prop where
  | unparted (h : 62 ∉ line.text)
  | malformed {before source : Bytes} (h : line.text = before ++ 62 :: source)
    (hbefore : 62 ∉ before) (hread : Timestamp.parse? before.trim = none)
  | late {before source : Bytes} {timestamp : Timestamp} (h : line.text = before ++ 62 :: source)
    (hbefore : 62 ∉ before) (hread : Timestamp.parse? before.trim = some timestamp)
    (hlate : maxTime.toNat < timestamp.meant base)

theorem untimed_iff {base : Nat} {line : SourceLine} :
    line.Untimed base ↔ line.time? base = none := by
  constructor
  · intro h
    apply time?_of_lt
    intro timestamp hread
    cases h with
    | unparted h =>
      rw [timestamp?_of_not_mem h] at hread
      cases hread
    | malformed h hbefore hnone =>
      rw [timestamp?_of_eq h hbefore, hnone] at hread
      cases hread
    | late h hbefore hother hlate =>
      rw [timestamp?_of_eq h hbefore, hother] at hread
      exact Option.some.inj hread ▸ hlate
  · intro h
    by_cases hmem : 62 ∈ line.text
    · obtain ⟨before, source, htext, hbefore⟩ := List.eq_append_cons_of_mem hmem
      cases hread : Timestamp.parse? (Bytes.trim before) with
      | none => exact .malformed htext hbefore hread
      | some timestamp =>
        refine .late htext hbefore hread ?_
        by_contra hle
        have htimed := time?_of_le ((timestamp?_of_eq htext hbefore).trans hread)
          (Nat.not_lt.mp hle)
        rw [h] at htimed
        cases htimed
    · exact .unparted hmem

/-- The lines that are not blank, under numbers that are counted from the given one. -/
def numbered (first : Nat) (lines : List Bytes) : List SourceLine :=
  (lines.zipIdx first).filterMap fun (line, number) =>
    if line.trim = [] then none else some ⟨number, line.trim⟩

theorem ofStripped_eq_numbered (stripped : Bytes) :
    ofStripped stripped = numbered 1 (Bytes.splitOn [Comment.newline] stripped) :=
  rfl

theorem numbered_append (first : Nat) (lines more : List Bytes) :
    numbered first (lines ++ more) =
      numbered first lines ++ numbered (first + lines.length) more := by
  rw [numbered, List.zipIdx_append, List.filterMap_append]
  rfl

theorem numbered_cons_of_blank (first : Nat) {line : Bytes} (h : line.trim = [])
    (lines : List Bytes) : numbered first (line :: lines) = numbered (first + 1) lines := by
  simp [numbered, h]

theorem numbered_cons_of_filled (first : Nat) {line : Bytes} (h : line.trim ≠ [])
    (lines : List Bytes) :
    numbered first (line :: lines) = ⟨first, line.trim⟩ :: numbered (first + 1) lines := by
  simp [numbered, h]

theorem number_mem_zipIdx {first : Nat} {lines : List Bytes} {line : SourceLine}
    (h : line ∈ numbered first lines) : ∃ text, (text, line.number) ∈ lines.zipIdx first := by
  obtain ⟨⟨text, number⟩, hmem, hline⟩ := List.mem_filterMap.mp h
  by_cases hblank : text.trim = []
  · simp [hblank] at hline
  · simp only [hblank, if_false, Option.some.injEq] at hline
    rw [← hline]
    exact ⟨text, hmem⟩

theorem le_number {first : Nat} {lines : List Bytes} {line : SourceLine}
    (h : line ∈ numbered first lines) : first ≤ line.number := by
  obtain ⟨text, hmem⟩ := number_mem_zipIdx h
  exact List.le_snd_of_mem_zipIdx hmem

theorem number_lt {first : Nat} {lines : List Bytes} {line : SourceLine}
    (h : line ∈ numbered first lines) : line.number < lines.length + first := by
  obtain ⟨text, hmem⟩ := number_mem_zipIdx h
  rw [Nat.add_comm]
  exact List.snd_lt_add_of_mem_zipIdx hmem

theorem Report.line_of_mem_errors {platform : Platform} {base : UInt64} {line : SourceLine}
    {reading : LineReading} (h : line.Report platform base reading) :
    ∀ d ∈ reading.errors, d.line = line.number := by
  cases h with
  | unparted => simp
  | idle => exact List.forall_mem_map.mpr fun _ _ => rfl
  | active => exact List.forall_mem_map.mpr fun _ _ => rfl

end SourceLine

namespace LineReading

variable (platform : Platform) (base : UInt64) (number : Nat)

/-- What comes of the lines under other numbers than the given one, read with all the lines. -/
def elsewhere (lines : List SourceLine) : List LineReading :=
  ((lines.zip (ofLines platform base lines)).filter fun (line, _) => line.number ≠ number).map
    Prod.snd

theorem elsewhere_cons (line : SourceLine) (lines : List SourceLine) :
    elsewhere platform base number (line :: lines) =
      (if line.number = number then [] else [ofLine platform base line]) ++
        elsewhere platform (ofLine platform base line).base number lines := by
  by_cases hnumber : line.number = number
  · simp [elsewhere, ofLines, hnumber]
  · simp [elsewhere, ofLines, hnumber]

/-- The errors of the other lines are those of all lines without those under the number. -/
theorem errors_elsewhere (lines : List SourceLine) :
    (elsewhere platform base number lines).flatMap (·.errors) =
      ((ofLines platform base lines).flatMap (·.errors)).filter (·.line ≠ (number : Int)) := by
  induction lines generalizing base with
  | nil => rfl
  | cons line lines ih =>
    have hline := (report_ofLine platform base line).line_of_mem_errors
    rw [elsewhere_cons, List.flatMap_append, ih, ofLines, List.flatMap_cons, List.filter_append]
    congr 1
    split
    · rename_i hnumber
      refine (List.filter_eq_nil_iff.mpr ?_).symm
      intro d hd
      simp [hline d hd, hnumber]
    · rename_i hnumber
      rw [List.flatMap_singleton]
      refine (List.filter_eq_self.mpr ?_).symm
      intro d hd
      simp [hline d hd, hnumber]

theorem elsewhere_append (lines more : List SourceLine) :
    elsewhere platform base number (lines ++ more) =
      elsewhere platform base number lines ++
        elsewhere platform (baseAfter platform base lines) number more := by
  induction lines generalizing base with
  | nil => rfl
  | cons line lines ih =>
    rw [List.cons_append, elsewhere_cons, elsewhere_cons, ih, List.append_assoc]
    rfl

variable {number}

theorem elsewhere_of_forall_ne {lines : List SourceLine}
    (h : ∀ line ∈ lines, line.number ≠ number) :
    elsewhere platform base number lines = ofLines platform base lines := by
  induction lines generalizing base with
  | nil => rfl
  | cons line lines ih =>
    rw [elsewhere_cons, if_neg (h line List.mem_cons_self),
      ih _ fun other hother => h other (List.mem_cons_of_mem line hother)]
    rfl

variable {base}

/-- If a line has no time, then the others are read as they are without it. -/
theorem elsewhere_of_untimed (hbase : base ≤ maxTime) {line : SourceLine}
    {above below : List SourceLine} (habove : ∀ other ∈ above, other.number ≠ line.number)
    (hbelow : ∀ other ∈ below, other.number ≠ line.number)
    (h : line.time? (baseAfter platform base above).toNat = none) :
    elsewhere platform base line.number (above ++ line :: below) =
      ofLines platform base (above ++ below) := by
  obtain ⟨hle, -⟩ := baseAfter_spec platform hbase above
  obtain ⟨-, hnat⟩ := base_ofLine platform hle line
  rw [h] at hnat
  -- the line leaves the base as it has found it, so nothing changes for the lines below
  have hsame := UInt64.toNat_inj.mp hnat
  rw [elsewhere_append, elsewhere_cons, if_pos rfl, hsame, List.nil_append,
    elsewhere_of_forall_ne platform base habove, elsewhere_of_forall_ne platform _ hbelow,
    ofLines_append]

end LineReading

/-- A line of a source without comments can be emptied, and no comment begins then. -/
theorem Comment.strip_emptied {source line : Bytes} {before after : List Bytes}
    (h : Bytes.splitOn [newline] (strip source) = before ++ line :: after) :
    let emptied := Bytes.join [newline] (before ++ [] :: after)
    strip emptied = emptied ∧ Bytes.splitOn [newline] emptied = before ++ [] :: after := by
  intro emptied
  have hne : before ++ [] :: after ≠ [] := by simp
  have hlines : ∀ other ∈ before ++ [] :: after, newline ∉ other ∧ Unopened other := by
    intro other hother
    have hmem : other = [] ∨ other ∈ Bytes.splitOn [newline] (strip source) := by
      rw [h]
      rcases List.mem_append.mp hother with hother | hother
      · exact .inr (List.mem_append_left _ hother)
      · exact (List.mem_cons.mp hother).imp_right fun hother =>
          List.mem_append_right before (List.mem_cons_of_mem line hother)
    rcases hmem with rfl | hmem
    · exact ⟨List.not_mem_nil, .nil⟩
    · exact ⟨Bytes.not_mem_of_mem_splitOn hmem, unopened_of_mem_strip source hmem⟩
  exact ⟨strip_join hne hlines, Bytes.splitOn_join hne fun other hother => (hlines other hother).1⟩

namespace SourceLine

theorem ofSource_strip (source : Bytes) : ofSource (Comment.strip source) = ofSource source := by
  rw [ofSource, Comment.strip_strip, ofSource]

variable {source line : Bytes} {before after : List Bytes}
  (h : Bytes.splitOn [Comment.newline] (Comment.strip source) = before ++ line :: after)
include h

theorem ofSource_filled (hfilled : line.trim ≠ []) :
    ofSource source = numbered 1 before ++
      ⟨before.length + 1, line.trim⟩ :: numbered (before.length + 2) after := by
  rw [ofSource, ofStripped_eq_numbered, h, numbered_append, numbered_cons_of_filled _ hfilled,
    Nat.add_comm 1]

theorem filter_above (hfilled : line.trim ≠ []) :
    (ofSource source).filter (·.number < before.length + 1) = numbered 1 before := by
  have habove : ∀ other ∈ numbered 1 before, other.number < before.length + 1 :=
    fun other hother => number_lt hother
  have hbelow : ∀ other ∈ numbered (before.length + 2) after, before.length + 1 < other.number :=
    fun other hother => le_number hother
  rw [ofSource_filled h hfilled, List.filter_append,
    List.filter_eq_self.mpr (by simpa using habove), List.filter_eq_nil_iff.mpr, List.append_nil]
  refine List.forall_mem_cons.mpr ⟨by simp, ?_⟩
  intro other hother
  simpa using (hbelow other hother).le

theorem ofSource_emptied :
    ofSource (Bytes.join [Comment.newline] (before ++ [] :: after)) =
      numbered 1 before ++ numbered (before.length + 2) after := by
  obtain ⟨hstrip, hsplit⟩ := Comment.strip_emptied h
  rw [ofSource, hstrip, ofStripped_eq_numbered, hsplit, numbered_append,
    numbered_cons_of_blank _ rfl, Nat.add_comm 1]

end SourceLine

namespace Script

/-- A source without its comments has the errors and the timeline of the source itself. Let a line
of it that is not blank have no time where it stands, and let it be replaced by an empty line. Then
the errors are those of the other lines, exactly as they were. If there were no others, then the
script is valid, and its timeline is that of the other lines at the times that they had. -/
theorem broken_line_is_isolated (platform : Platform) (source : Bytes) :
    let stripped := Comment.strip source
    let script := compile platform stripped
    let lines := SourceLine.ofSource stripped
    script.errors = (compile platform source).errors ∧
    script.timeline = (compile platform source).timeline ∧
    ∀ (before : List Bytes) (line : Bytes) (after : List Bytes),
      Bytes.splitOn [Comment.newline] stripped = before ++ line :: after → line.trim ≠ [] →
      let number := before.length + 1
      let base := SourceLine.lastTime (lines.filter (·.number < number))
      SourceLine.Untimed base ⟨number, line.trim⟩ →
      let mended := compile platform (Bytes.join [Comment.newline] (before ++ [] :: after))
      mended.errors = script.errors.filter (·.line ≠ (number : Int)) ∧
      ((∀ d ∈ script.errors, d.line = number) →
        mended.isValid = true ∧
        mended.timeline = Timeline.ofLines
          (((lines.zip (LineReading.ofLines platform 0 lines)).filter
            fun (line, _) => line.number ≠ number).map
              fun (_, reading) => ⟨reading.base, reading.actions⟩)) := by
  intro stripped script lines
  have hsame : SourceLine.ofSource stripped = SourceLine.ofSource source :=
    SourceLine.ofSource_strip source
  have hzero : (0 : UInt64) ≤ maxTime := UInt64.le_iff_toNat_le.mpr (Nat.zero_le _)
  refine ⟨by simp only [script, compile, hsame], by simp only [script, compile, hsame], ?_⟩
  intro before line after hsplit hfilled number base huntimed mended
  let above := SourceLine.numbered 1 before
  let below := SourceLine.numbered (before.length + 2) after
  have hlines : lines = above ++ ⟨number, line.trim⟩ :: below :=
    hsame.trans (SourceLine.ofSource_filled hsplit hfilled)
  have hnone : SourceLine.time? (LineReading.baseAfter platform 0 above).toNat
      ⟨number, line.trim⟩ = none := by
    have habove : lines.filter (·.number < number) = above := by
      simp only [lines, hsame]
      exact SourceLine.filter_above hsplit hfilled
    rw [(LineReading.baseAfter_spec platform hzero above).2, ← habove]
    exact SourceLine.untimed_iff.mp huntimed
  have hreadings : LineReading.elsewhere platform 0 number lines =
      LineReading.ofLines platform 0 (above ++ below) := by
    rw [hlines]
    exact LineReading.elsewhere_of_untimed platform hzero
      (fun other hother => (SourceLine.number_lt hother).ne)
      (fun other hother => Nat.ne_of_gt (SourceLine.le_number hother)) hnone
  rw [← SourceLine.ofSource_emptied hsplit] at hreadings
  have herrors : mended.errors = script.errors.filter (·.line ≠ (number : Int)) := by
    have hothers := LineReading.errors_elsewhere platform 0 number lines
    rwa [hreadings] at hothers
  refine ⟨herrors, ?_⟩
  intro honly
  have hvalid : mended.isValid = true := by
    rw [isValid, herrors, List.isEmpty_iff, List.filter_eq_nil_iff]
    simpa using honly
  refine ⟨hvalid, ?_⟩
  rw [timeline_of_valid hvalid, ← hreadings, LineReading.elsewhere, List.map_map]
  rfl

theorem broken_line_is_isolated_malformed :
    let script := compile .linux (ascii "3>text a\nx>text b/**/\n+5>text d")
    let mended := compile .linux (ascii "3>text a\n\n+5>text d")
    script.errors = [⟨2, .malformedTimestamp (ascii "x")⟩] ∧ mended.isValid = true ∧
      mended.timeline = [⟨3, .text (ascii "a"), 0⟩, ⟨8, .text (ascii "d"), 1⟩] := by
  intro script mended
  have hscript : script.errors = [⟨2, .malformedTimestamp (ascii "x")⟩] := by decide +kernel
  obtain ⟨hsame, -, hisolated⟩ :=
    broken_line_is_isolated .linux (ascii "3>text a\nx>text b/**/\n+5>text d")
  have hsplit : Bytes.splitOn [Comment.newline]
      (Comment.strip (ascii "3>text a\nx>text b/**/\n+5>text d")) =
        [ascii "3>text a"] ++ ascii "x>text b    " :: [ascii "+5>text d"] := by decide +kernel
  have htext : (ascii "x>text b    ").trim = ascii "x" ++ 62 :: ascii "text b" := by decide +kernel
  have hfilled : (ascii "x>text b    ").trim ≠ [] := by decide
  obtain ⟨-, honly⟩ :=
    hisolated _ _ _ hsplit hfilled (.malformed htext (by decide) (by decide +kernel))
  obtain ⟨hvalid, htimeline⟩ := honly (by simp [hsame, hscript, script])
  exact ⟨hscript, hvalid, htimeline.trans (by decide +kernel)⟩

end Script

end TimedInput
