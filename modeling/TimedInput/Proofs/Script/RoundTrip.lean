import TimedInput.Proofs.Script.Rendering

/-!
# Compilation undoes rendering

A script that is written down and compiled again comes back: there is nothing to complain of,
and the timeline is that of the actions at the times that the lines were meant to have.
-/

namespace TimedInput

theorem isBlank_of_isWordByte {b : UInt8} (h : isWordByte b = true) : Bytes.isBlank b = false := by
  simp only [isWordByte, Bool.and_eq_true, decide_eq_true_eq, UInt8.lt_iff_toNat_lt] at h
  have hlt : 32 < b.toNat := h.1.1
  simp only [Bytes.isBlank, Bool.or_eq_false_iff, beq_eq_false_iff_ne, Bool.and_eq_false_iff,
    decide_eq_false_iff_not, UInt8.le_iff_toNat_le]
  refine ⟨?_, .inr ?_⟩
  · rintro rfl
    exact absurd hlt (by decide)
  · change ¬b.toNat ≤ 13
    omega

/-- What is written for an action stays one clause on one line. -/
structure IsClause (s : Bytes) : Prop where
  semicolon : 59 ∉ s
  newline : 10 ∉ s
  unopened : Unopened s

theorem unopened_spaced {s : Bytes} (hs : Unopened s) {words : List Bytes}
    (h : ∀ word ∈ words, IsWord word) : Unopened (s ++ spaced words) := by
  induction words generalizing s with
  | nil => simpa [spaced] using hs
  | cons word words ih =>
    have hword : Unopened (s ++ 32 :: word) :=
      hs.append_cons (h word List.mem_cons_self).unopened (by decide) (by decide)
    have hrest := ih hword fun other hother => h other (List.mem_cons_of_mem word hother)
    simpa [spaced] using hrest

theorem isClause_spaced (verb : Verb) {words : List Bytes} (h : ∀ word ∈ words, IsWord word) :
    IsClause (verb.name ++ spaced words) := by
  have hbyte : ∀ b ∈ spaced words, b = 32 ∨ isWordByte b = true := by
    intro b hb
    obtain ⟨word, hword, hb⟩ := List.mem_flatMap.mp hb
    rcases List.mem_cons.mp hb with hb | hb
    · exact .inl hb
    · exact .inr ((h word hword).bytes b hb)
  refine ⟨?_, ?_, ?_⟩
  · rw [List.mem_append, not_or]
    refine ⟨by cases verb <;> decide, fun hb => ?_⟩
    rcases hbyte 59 hb with hb | hb <;> cases hb
  · rw [List.mem_append, not_or]
    refine ⟨by cases verb <;> decide, fun hb => ?_⟩
    rcases hbyte 10 hb with hb | hb <;> cases hb
  · exact unopened_spaced (.of_not_mem (by cases verb <;> decide)) h

theorem isClause_source {platform : Platform} (brief : Bool) {action : Action}
    (h : action.Admissible platform) : IsClause (action.source brief) := by
  cases action with
  | unknown => exact h.elim
  | move mode x y duration => exact isClause_spaced _ (isWord_moveWords brief mode x y duration)
  | button press number =>
    apply isClause_spaced
    simpa using isWord_ofInt _
  | key press code =>
    obtain ⟨key, hkey, rfl, -⟩ := h
    apply isClause_spaced
    simpa using isWord_sourceName hkey
  | release target =>
    apply isClause_spaced
    simpa using isWord_target h
  | text payload =>
    obtain ⟨-, hsemicolon, -, hnewline, hline, hblock, -⟩ := h
    have hname : Unopened Verb.text.name := .of_not_mem (by decide)
    refine ⟨?_, ?_, ?_⟩
    · simpa [Action.source] using ⟨by decide, hsemicolon⟩
    · simpa [Action.source] using ⟨by decide, hnewline⟩
    · exact hname.append_cons (.of_no_opener hline hblock) (by decide) (by decide)

theorem isWord_timestamp (timestamp : Timestamp) : IsWord timestamp.source := by
  cases timestamp with
  | absolute ms => exact isWord_ofNat ms.toNat
  | relative ms => exact (isWord_ofNat ms.toNat).cons rfl (by decide)

theorem unopened_clauses {clauses : List Bytes} (h : ∀ clause ∈ clauses, Unopened clause) :
    Unopened (clauses.flatMap (· ++ [59])) := by
  induction clauses with
  | nil => exact .nil
  | cons clause clauses ih =>
    have hclause : Unopened (clause ++ [59]) :=
      (h clause List.mem_cons_self).append_cons .nil (by decide) (by decide)
    exact hclause.append (ih fun other hother => h other (List.mem_cons_of_mem clause hother))
      (by simp)

theorem getLast?_clauses {clauses : List Bytes} :
    ∀ b ∈ (clauses.flatMap (· ++ [59])).getLast?, b = 59 := by
  induction clauses with
  | nil => exact fun b hb => nomatch hb
  | cons clause clauses ih =>
    intro b hb
    rw [List.flatMap_cons, List.getLast?_append] at hb
    cases hlast : (clauses.flatMap (· ++ [59])).getLast? with
    | none =>
      rw [hlast] at hb
      simpa using hb.symm
    | some last =>
      rw [hlast] at hb
      exact (Option.mem_some_iff.mp hb) ▸ ih last hlast

namespace ScriptLine

variable {platform : Platform}

/-- The clauses of the line, each with a semicolon behind it. -/
theorem source_eq (brief : Bool) (line : ScriptLine) :
    line.source brief =
      line.timestamp.source ++
        62 :: (line.actions.map (Action.source brief)).flatMap (· ++ [59]) := by
  rw [source, List.flatMap_map]

/-- A line can be written down for the platform if it has actions and each of them can. -/
def Admissible (platform : Platform) (line : ScriptLine) : Prop :=
  line.actions ≠ [] ∧ ∀ action ∈ line.actions, action.Admissible platform

theorem clauses_spec (brief : Bool) {line : ScriptLine} (h : line.Admissible platform) :
    ∀ clause ∈ line.actions.map (Action.source brief), IsClause clause := by
  intro clause hclause
  obtain ⟨action, haction, rfl⟩ := List.mem_map.mp hclause
  exact isClause_source brief (h.2 action haction)

/-- What is written for a line is one line, holds no comment and has no blanks at its ends. -/
theorem source_spec (brief : Bool) {line : ScriptLine} (h : line.Admissible platform) :
    Comment.newline ∉ line.source brief ∧ Unopened (line.source brief) ∧
      line.source brief ≠ [] ∧ (line.source brief).trim = line.source brief := by
  have htime := isWord_timestamp line.timestamp
  have hclauses := clauses_spec brief h
  -- the line starts with a figure or a plus sign, and it ends with a semicolon
  rw [source_eq]
  refine ⟨?_, ?_, ?_, ?_⟩
  · simp only [List.mem_append, List.mem_cons, List.mem_flatMap, not_or, not_exists, not_and]
    refine ⟨fun hb => ?_, by decide, ?_⟩
    · cases htime.bytes Comment.newline hb
    · intro clause hclause
      exact ⟨(hclauses clause hclause).newline, by decide⟩
  · refine htime.unopened.append_cons (unopened_clauses fun clause hclause => ?_) (by decide)
      (by decide)
    exact (hclauses clause hclause).unopened
  · simp
  · apply Bytes.trim_eq_self
    · intro b hb
      rw [List.head?_append_of_ne_nil _ htime.ne_nil] at hb
      exact isBlank_of_isWordByte (htime.bytes b (List.mem_of_mem_head? hb))
    · intro b hb
      rw [List.getLast?_append, List.getLast?_cons, Option.some_or, Option.mem_some_iff] at hb
      cases hlast : ((line.actions.map (Action.source brief)).flatMap (· ++ [59])).getLast? with
      | none =>
        rw [hlast] at hb
        exact hb ▸ rfl
      | some last =>
        rw [hlast] at hb
        obtain rfl : last = 59 := getLast?_clauses last hlast
        exact hb ▸ rfl

theorem read_source (brief : Bool) {line : ScriptLine} (h : line.Admissible platform) :
    LineActions.parse platform
      ((line.actions.map (Action.source brief)).flatMap (· ++ [59])) = ⟨line.actions, []⟩ := by
  have hclauses := clauses_spec brief h
  have hread : Clause.readAll platform
      ((line.actions.map (Action.source brief)).flatMap (· ++ [59])) =
        line.actions.map Except.ok := by
    rw [Clause.readAll]
    change (Bytes.splitOn [59] _).filterMap _ = _
    rw [Bytes.splitOn_flatMap_snoc fun clause hclause => (hclauses clause hclause).semicolon,
      List.filterMap_append, List.filterMap_map]
    have hblank : List.filterMap (Clause.read? platform) [[]] = [] := rfl
    have hactions : List.filterMap (Clause.read? platform ∘ Action.source brief) line.actions =
        List.filterMap (some ∘ Except.ok) line.actions :=
      List.filterMap_congr fun action haction => Clause.read?_source brief (h.2 action haction)
    rw [hblank, hactions, List.append_nil, List.filterMap_eq_map]
  rw [LineActions.parse, hread]
  cases hactions : line.actions with
  | nil => exact absurd hactions h.1
  | cons action actions => simp [Function.comp_def, Except.toOption]

end ScriptLine

namespace Timestamp

/-- The time that is meant, in numbers without a bound. -/
def meant (base : Nat) : Timestamp → Nat
  | .absolute ms => ms.toNat
  | .relative ms => base + ms.toNat

theorem digits?_ofNat {ms : UInt64} (h : ms.toNat ≤ 9223372036854775807) :
    digits? (Numeral.ofNat ms.toNat) = some ms := by
  have hall : (Numeral.ofNat ms.toNat).all Numeral.isDigit = true :=
    List.all_eq_true.mpr fun b => Numeral.isDigit_of_mem_ofNat
  simp [digits?, Numeral.ofNat_ne_nil, hall, Numeral.integer?_ofNat h]

theorem trim_source (timestamp : Timestamp) : timestamp.source.trim = timestamp.source := by
  have hword := isWord_timestamp timestamp
  apply Bytes.trim_eq_self
  · exact fun b hb => isBlank_of_isWordByte (hword.bytes b (List.mem_of_mem_head? hb))
  · exact fun b hb => isBlank_of_isWordByte (hword.bytes b (List.mem_of_mem_getLast? hb))

theorem parse?_source {timestamp : Timestamp} (h : timestamp.ms.toNat ≤ 9223372036854775807) :
    parse? timestamp.source = some timestamp := by
  rw [parse?, trim_source]
  cases timestamp with
  | absolute ms =>
    have hread := digits?_ofNat h
    split
    · rename_i rest hrest
      have hplus : (43 : UInt8) ∈ (absolute ms).source := by
        rw [hrest]
        exact List.mem_cons_self
      cases Numeral.isDigit_of_mem_ofNat hplus
    · exact congrArg (Option.map absolute) hread
  | relative ms => exact congrArg (Option.map relative) (digits?_ofNat h)

theorem inRange_of_meant_le {timestamp : Timestamp} {base : UInt64}
    (h : timestamp.meant base.toNat ≤ maxTime.toNat) : timestamp.inRange base = true := by
  cases timestamp with
  | absolute ms => exact decide_eq_true (UInt64.le_iff_toNat_le.mpr h)
  | relative ms =>
    have hsum : base.toNat + ms.toNat ≤ maxTime.toNat := h
    have hbase : base ≤ maxTime := UInt64.le_iff_toNat_le.mpr (by omega)
    simp only [inRange, Bool.and_eq_true, decide_eq_true_eq, UInt64.le_iff_toNat_le,
      UInt64.toNat_sub_of_le maxTime base hbase]
    omega

/-- A timestamp that does not mean too late a time is accepted, and means that time. -/
theorem readTime_source {timestamp : Timestamp} {base : UInt64}
    (h : timestamp.meant base.toNat ≤ maxTime.toNat) :
    LineReading.readTime base timestamp.source = .ok (timestamp.meant base.toNat).toUInt64 := by
  have hmax : maxTime.toNat = 2305843009213 := rfl
  have hms : timestamp.ms.toNat ≤ maxTime.toNat := by
    cases timestamp with
    | absolute ms => exact h
    | relative ms => exact (Nat.le_add_left _ _).trans h
  have hresolve : timestamp.resolve base = (timestamp.meant base.toNat).toUInt64 := by
    cases timestamp with
    | absolute ms => simp [resolve, meant]
    | relative ms => simp [resolve, meant]
  rw [LineReading.readTime, parse?_source (by omega), ← hresolve]
  simp [inRange_of_meant_le h]

end Timestamp

/-- The times of the lines, one after the other. -/
def resolved (base : Nat) : List ScriptLine → List Nat
  | [] => []
  | line :: lines =>
    line.timestamp.meant base :: resolved (line.timestamp.meant base) lines

namespace LineReading

variable {platform : Platform}

theorem ofLine_source (brief : Bool) {line : ScriptLine} (h : line.Admissible platform)
    {base : UInt64} (htime : line.timestamp.meant base.toNat ≤ maxTime.toNat) (number : Nat) :
    ofLine platform base ⟨number, line.source brief⟩ =
      ⟨[], (line.timestamp.meant base.toNat).toUInt64, line.actions⟩ := by
  have hword := isWord_timestamp line.timestamp
  have hsplit : SourceLine.split? (line.source brief) = some (line.timestamp.source,
      (line.actions.map (Action.source brief)).flatMap (· ++ [59])) := by
    have hseparator : 62 ∉ line.timestamp.source := fun hb => by cases hword.bytes 62 hb
    rw [SourceLine.split?, ScriptLine.source_eq]
    change (Bytes.breakOn [62] _).map _ = _
    rw [Bytes.breakOn_append_cons hseparator]
    simp [Timestamp.trim_source]
  simp [ofLine, hsplit, ScriptLine.read_source brief h, Timestamp.readTime_source htime]

/-- The lines of a script are read as they were written, each at the time that it was meant to
have. -/
theorem ofLines_source (brief : Bool) {lines : List ScriptLine}
    (h : ∀ line ∈ lines, line.Admissible platform) (base : UInt64)
    (htimes : ∀ time ∈ resolved base.toNat lines, time ≤ maxTime.toNat) (number : Nat) :
    ofLines platform base (((lines.map (ScriptLine.source brief)).zipIdx number).map
        fun (line, number) => ⟨number, line⟩) =
      ((resolved base.toNat lines).zip lines).map
        fun (time, line) => ⟨[], time.toUInt64, line.actions⟩ := by
  induction lines generalizing base number with
  | nil => rfl
  | cons line lines ih =>
    have htime : line.timestamp.meant base.toNat ≤ maxTime.toNat :=
      htimes _ List.mem_cons_self
    -- the time of this line is the base of the next one, and it does not wrap
    have hnat : (line.timestamp.meant base.toNat).toUInt64.toNat =
        line.timestamp.meant base.toNat :=
      UInt64.toNat_ofNat_of_lt' (htime.trans_lt maxTime.toNat_lt)
    have hline := ofLine_source brief (h line List.mem_cons_self) htime number
    have hrest := ih (fun other hother => h other (List.mem_cons_of_mem line hother))
      (line.timestamp.meant base.toNat).toUInt64
    rw [hnat] at hrest
    specialize hrest (fun time hmem => htimes time (List.mem_cons_of_mem _ hmem)) (number + 1)
    simp only [List.map_cons, List.zipIdx_cons, ofLines, hline, hrest, resolved,
      List.zip_cons_cons]

end LineReading

/-- Whatever lines are written down, as long as the platform supports their actions and no line is
later than the latest time: compilation finds no errors and no warnings in what is written, and
gives the timeline of the actions at the times of their lines. -/
theorem Script.compile_render (platform : Platform) (brief : Bool) {lines : List ScriptLine}
    (hlines : ∀ line ∈ lines, line.Admissible platform)
    (htimes : ∀ time ∈ resolved 0 lines, time ≤ maxTime.toNat) :
    let script := compile platform (render brief lines)
    script.errors = [] ∧ script.warnings = [] ∧
      script.timeline = Timeline.ofLines
        (((resolved 0 lines).zip lines).map fun (time, line) => ⟨time.toUInt64, line.actions⟩) := by
  intro script
  have hspec : ∀ line ∈ lines.map (ScriptLine.source brief), Comment.newline ∉ line ∧
      Unopened line ∧ line ≠ [] ∧ line.trim = line := by
    intro source hsource
    obtain ⟨line, hline, rfl⟩ := List.mem_map.mp hsource
    exact ScriptLine.source_spec brief (hlines line hline)
  have hreadings := LineReading.ofLines_source brief hlines 0 htimes 1
  rw [← SourceLine.ofSource_join hspec] at hreadings
  change LineReading.ofLines platform 0 (SourceLine.ofSource (render brief lines)) = _ at hreadings
  have herrors : script.errors = [] := by
    change (LineReading.ofLines _ _ _).flatMap (·.errors) = []
    rw [hreadings, List.flatMap_map]
    exact List.flatMap_eq_nil_iff.mpr fun _ _ => rfl
  have hwarnings : script.warnings = [] := by
    change warningsOf (render brief lines) = []
    rw [warningsOf, render, Comment.unterminatedLine?_eq_none
      (Comment.unopened_join fun line hline => (hspec line hline).2.1)]
    rfl
  have htimeline : script.timeline = if script.errors.isEmpty then
      Timeline.ofLines ((LineReading.ofLines platform 0
        (SourceLine.ofSource (render brief lines))).map fun r => ⟨r.base, r.actions⟩)
      else [] := rfl
  refine ⟨herrors, hwarnings, ?_⟩
  rw [htimeline, herrors, hreadings, List.map_map]
  rfl

theorem Script.compile_render_two_lines :
    let source := ascii "+5>keydown semicolon;text a /b;\n2>mousemove abs 3 4;"
    let script := compile .linux source
    script.errors = [] ∧ script.timeline =
      [⟨2, .move .absolute 3 4 0, 2⟩, ⟨5, .key .down ⟨59⟩, 0⟩, ⟨5, .text (ascii "a /b"), 1⟩] := by
  intro source script
  let lines : List ScriptLine :=
    [⟨.relative 5, [.key .down ⟨59⟩, .text (ascii "a /b")]⟩,
     ⟨.absolute 2, [.move .absolute 3 4 0]⟩]
  have hsource : render true lines = source := by decide +kernel
  have hlines : ∀ line ∈ lines, line.Admissible .linux := by
    intro line hline
    simp only [lines, List.mem_cons, List.not_mem_nil, or_false] at hline
    rcases hline with rfl | rfl
    · refine ⟨List.cons_ne_nil _ _, List.forall_mem_cons.mpr ⟨?_, List.forall_mem_singleton.mpr ?_⟩⟩
      · exact ⟨⟨[59], ⟨59⟩, .plain⟩, by decide +kernel, rfl, rfl⟩
      · exact ⟨by decide, by decide, by decide, by decide, by decide, by decide, by decide⟩
    · refine ⟨List.cons_ne_nil _ _, List.forall_mem_singleton.mpr ?_⟩
      exact ⟨by decide, by decide, by decide⟩
  have htimes : ∀ time ∈ resolved 0 lines, time ≤ maxTime.toNat := by decide
  obtain ⟨herrors, -, htimeline⟩ := compile_render .linux true hlines htimes
  rw [hsource] at herrors htimeline
  exact ⟨herrors, htimeline.trans rfl⟩

end TimedInput
