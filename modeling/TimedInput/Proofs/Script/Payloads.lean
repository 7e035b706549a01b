import TimedInput.Proofs.Script.Reports
import TimedInput.Proofs.Script.RoundTrip
import TimedInput.Proofs.Text.Trimming

/-!
# How texts end

The payload of a text ends at a semicolon or with its line. In front of a semicolon it is kept byte
by byte. At the end of a line it loses its last blanks before anything else is looked at, and
nothing may be left of it.
-/

namespace TimedInput

namespace Timestamp

variable {token : Bytes} {timestamp : Timestamp}

theorem isDigit_of_digits? {s : Bytes} {ms : UInt64} (h : digits? s = some ms) :
    ∀ b ∈ s, Numeral.isDigit b = true := by
  unfold digits? at h
  split at h
  · rename_i hdigits
    exact List.all_eq_true.mp (Bool.and_eq_true_iff.mp hdigits).2
  · cases h

/-- The bytes of a timestamp are digits, a plus sign and blanks. -/
theorem bytes_of_parse? (h : parse? token = some timestamp) :
    ∀ b ∈ token, Bytes.isBlank b = true ∨ b = 43 ∨ Numeral.isDigit b = true := by
  intro b hb
  refine (Bytes.isBlank_or_mem_trim hb).imp_right fun hmem => ?_
  unfold parse? at h
  split at h
  · rename_i rest hrest
    obtain ⟨ms, hms, -⟩ := Option.map_eq_some_iff.mp h
    rw [hrest] at hmem
    exact (List.mem_cons.mp hmem).imp_right fun hmem => isDigit_of_digits? hms b hmem
  · obtain ⟨ms, hms, -⟩ := Option.map_eq_some_iff.mp h
    exact .inr (isDigit_of_digits? hms b hmem)

theorem not_mem_of_parse? (h : parse? token = some timestamp) {b : UInt8}
    (hblank : Bytes.isBlank b = false) (hplus : b ≠ 43) (hdigit : Numeral.isDigit b = false) :
    b ∉ token := by
  intro hb
  rcases bytes_of_parse? h b hb with hb | hb | hb
  · exact Bool.false_ne_true (hblank.symm.trans hb)
  · exact hplus hb
  · exact Bool.false_ne_true (hdigit.symm.trans hb)

theorem parse?_trim (token : Bytes) : parse? token.trim = parse? token := by
  rw [parse?, Bytes.trim_trim, parse?]

theorem readTime_zero (h : parse? token = some timestamp) (htime : timestamp.ms ≤ maxTime) :
    LineReading.readTime 0 token = .ok timestamp.ms := by
  have hrange : timestamp.inRange 0 = true := by
    apply inRange_of_meant_le
    cases timestamp with
    | absolute ms => exact UInt64.le_iff_toNat_le.mp htime
    | relative ms => simpa [meant] using (UInt64.le_iff_toNat_le (a := ms)).mp htime
  have hresolve : timestamp.resolve 0 = timestamp.ms := by
    cases timestamp with
    | absolute ms => rfl
    | relative ms => exact UInt64.zero_add ms
  simp [LineReading.readTime, h, hrange, hresolve]

end Timestamp

theorem SourceLine.ofSource_of_line {line : Bytes} (hline : Comment.newline ∉ line)
    (hopen : Unopened line) (hfilled : line.trim ≠ []) : ofSource line = [⟨1, line.trim⟩] := by
  have hlines : ∀ other ∈ [line], Comment.newline ∉ other ∧ Unopened other :=
    List.forall_mem_singleton.mpr ⟨hline, hopen⟩
  have hjoin : Bytes.join [Comment.newline] [line] = line := by simp [Bytes.join]
  have hstrip := Comment.strip_join (List.cons_ne_nil line []) hlines
  rw [hjoin] at hstrip
  rw [ofSource, hstrip, ofStripped, Bytes.splitOn_of_not_mem hline]
  simp [hfilled]

namespace Script

/-- A script of one line with an acceptable time, at which its clauses are read up to the last byte
that is not blank. -/
theorem compile_line (platform : Platform) {token source : Bytes} {timestamp : Timestamp}
    (hread : Timestamp.parse? token = some timestamp) (htoken : Comment.newline ∉ token)
    (htime : timestamp.ms ≤ maxTime) (hsource : Comment.newline ∉ source)
    (hopen : Unopened source) :
    let parsed := LineActions.parse platform (source.dropTail Bytes.isBlank)
    let script := compile platform (token ++ 62 :: source)
    script.errors = parsed.causes.map (⟨1, ·⟩) ∧
      (parsed.causes = [] →
        script.timeline = Timeline.ofLines [⟨timestamp.ms, parsed.actions⟩]) := by
  intro parsed script
  have hseparator : 62 ∉ token :=
    Timestamp.not_mem_of_parse? hread (by decide) (by decide) (by decide)
  have hslash : 47 ∉ token := Timestamp.not_mem_of_parse? hread (by decide) (by decide) (by decide)
  have hline : Comment.newline ∉ token ++ 62 :: source := by
    rw [List.mem_append, List.mem_cons, not_or, not_or]
    exact ⟨htoken, by decide, hsource⟩
  have hlineOpen : Unopened (token ++ 62 :: source) :=
    (Unopened.of_not_mem hslash).append_cons hopen (by decide) (by decide)
  -- the separator is not blank: the line is trimmed in the token and in the source apart
  have htrim : Bytes.trim (token ++ 62 :: source) =
      token.dropWhile Bytes.isBlank ++ 62 :: source.dropTail Bytes.isBlank :=
    Bytes.trim_append_cons (by decide) token source
  have hfilled : Bytes.trim (token ++ 62 :: source) ≠ [] := by simp [htrim]
  have hbefore : 62 ∉ token.dropWhile Bytes.isBlank := fun hb =>
    hseparator ((List.dropWhile_suffix Bytes.isBlank).subset hb)
  have hsplit := SourceLine.split?_of_eq htrim hbefore
  have hzero : LineReading.readTime 0 (Bytes.trim (token.dropWhile Bytes.isBlank)) =
      .ok timestamp.ms := by
    apply Timestamp.readTime_zero _ htime
    rw [Bytes.trim_dropWhile, Timestamp.parse?_trim, hread]
  have hreadings : LineReading.ofLines platform 0 (SourceLine.ofSource (token ++ 62 :: source)) =
      [⟨parsed.causes.map (⟨1, ·⟩), timestamp.ms, parsed.actions⟩] := by
    rw [SourceLine.ofSource_of_line hline hlineOpen hfilled]
    simp [LineReading.ofLines, LineReading.ofLine, hsplit, hzero, parsed]
  have herrors : script.errors = parsed.causes.map (⟨1, ·⟩) := by
    change (LineReading.ofLines _ _ _).flatMap (·.errors) = _
    rw [hreadings, List.flatMap_singleton]
  refine ⟨herrors, ?_⟩
  intro hnone
  have hvalid : script.isValid = true := by
    rw [isValid, herrors, hnone]
    rfl
  rw [timeline_of_valid hvalid, hreadings]
  rfl

end Script

namespace Clause

variable {platform : Platform} {payload : Bytes}

theorem parse_text (h : (Action.text payload).Admissible platform) :
    LineActions.parse platform (Verb.text.name ++ 32 :: payload) = ⟨[.text payload], []⟩ := by
  have hclause : 59 ∉ Verb.text.name ++ 32 :: payload := (isClause_source true h).semicolon
  have hread : read? platform (Verb.text.name ++ 32 :: payload) = some (.ok (.text payload)) :=
    read?_source true h
  have hall : readAll platform (Verb.text.name ++ 32 :: payload) = [.ok (.text payload)] := by
    rw [readAll]
    change (Bytes.splitOn [59] _).filterMap _ = _
    rw [Bytes.splitOn_of_not_mem hclause]
    simp [hread]
  rw [LineActions.parse, hall]
  rfl

theorem parse_text_semicolon (h : (Action.text payload).Admissible platform) :
    LineActions.parse platform ((Verb.text.name ++ 32 :: payload) ++ [59]) =
      ⟨[.text payload], []⟩ := by
  let line : ScriptLine := ⟨.absolute 0, [.text payload]⟩
  have hline : line.Admissible platform :=
    ⟨List.cons_ne_nil _ _, List.forall_mem_singleton.mpr h⟩
  have hread := ScriptLine.read_source true hline
  simpa [line, Action.source] using hread

theorem parse_text_nothing :
    LineActions.parse platform Verb.text.name = ⟨[], [.missingText]⟩ := by
  have hread : read? platform Verb.text.name = some (reject .missingText) := rfl
  have hall : readAll platform Verb.text.name = [reject .missingText] := by
    rw [readAll]
    change (Bytes.splitOn [59] _).filterMap _ = _
    rw [Bytes.splitOn_of_not_mem (by decide)]
    simp [hread]
  rw [LineActions.parse, hall]
  rfl

end Clause

theorem Action.admissible_dropTail {platform : Platform} {payload : Bytes}
    (h : (Action.text payload).Admissible platform)
    (hne : payload.dropTail Bytes.isBlank ≠ []) :
    (Action.text (payload.dropTail Bytes.isBlank)).Admissible platform := by
  obtain ⟨-, hsemicolon, hseparator, hnewline, hline, hblock, -⟩ := h
  have hkept := Bytes.dropTail_prefix Bytes.isBlank payload
  refine ⟨hne, fun hb => hsemicolon (hkept.subset hb), fun hb => hseparator (hkept.subset hb),
    fun hb => hnewline (hkept.subset hb), fun hpart => hline (hpart.trans hkept.isInfix),
    fun hpart => hblock (hpart.trans hkept.isInfix), ?_⟩
  intro hlast
  cases Bytes.getLast?_dropTail hlast

/-- The blank behind the verb goes with a payload of nothing but blanks. -/
theorem Clause.dropTail_text (payload : Bytes) :
    Bytes.dropTail Bytes.isBlank (Verb.text.name ++ 32 :: payload) =
      if payload.dropTail Bytes.isBlank = [] then Verb.text.name
      else Verb.text.name ++ 32 :: payload.dropTail Bytes.isBlank := by
  have hverb : Bytes.dropTail Bytes.isBlank (Verb.text.name ++ [32]) = Verb.text.name := rfl
  have happend := Bytes.dropTail_append Bytes.isBlank (Verb.text.name ++ [32]) payload
  rw [List.append_assoc, hverb] at happend
  simpa using happend

namespace Script

section Ends

variable (platform : Platform) {token payload : Bytes} {timestamp : Timestamp}
  (hread : Timestamp.parse? token = some timestamp) (htoken : Comment.newline ∉ token)
  (htime : timestamp.ms ≤ maxTime) (hpayload : (Action.text payload).Admissible platform)
include hread htoken htime hpayload

theorem compile_text_ended :
    let script := compile platform (token ++ 62 :: (Verb.text.name ++ 32 :: payload ++ [59]))
    script.errors = [] ∧ script.timeline = [⟨timestamp.ms, .text payload, 0⟩] := by
  intro script
  have hclause : IsClause (Verb.text.name ++ 32 :: payload) := isClause_source true hpayload
  have hnewline : Comment.newline ∉ Verb.text.name ++ 32 :: payload ++ [59] := by
    rw [List.mem_append, not_or]
    exact ⟨hclause.newline, by decide⟩
  have hopen : Unopened (Verb.text.name ++ 32 :: payload ++ [59]) :=
    hclause.unopened.append_cons .nil (by decide) (by decide)
  have hkept : Bytes.dropTail Bytes.isBlank (Verb.text.name ++ 32 :: payload ++ [59]) =
      Verb.text.name ++ 32 :: payload ++ [59] := by
    apply Bytes.dropTail_eq_self
    intro b hb
    rw [List.getLast?_concat] at hb
    exact Option.some.inj hb ▸ rfl
  obtain ⟨herrors, htimeline⟩ := compile_line platform hread htoken htime hnewline hopen
  rw [hkept, Clause.parse_text_semicolon hpayload] at herrors htimeline
  exact ⟨herrors, htimeline rfl⟩

theorem compile_text_unended :
    let kept := payload.dropTail Bytes.isBlank
    let script := compile platform (token ++ 62 :: (Verb.text.name ++ 32 :: payload))
    (kept ≠ [] → script.errors = [] ∧ script.timeline = [⟨timestamp.ms, .text kept, 0⟩]) ∧
    (kept = [] → script.errors = [⟨1, .missingText⟩]) := by
  intro kept script
  have hclause : IsClause (Verb.text.name ++ 32 :: payload) := isClause_source true hpayload
  obtain ⟨herrors, htimeline⟩ :=
    compile_line platform hread htoken htime hclause.newline hclause.unopened
  rw [Clause.dropTail_text] at herrors htimeline
  constructor
  · intro hkept
    rw [if_neg hkept, Clause.parse_text (Action.admissible_dropTail hpayload hkept)]
      at herrors htimeline
    exact ⟨herrors, htimeline rfl⟩
  · intro hkept
    rw [if_pos hkept, Clause.parse_text_nothing] at herrors
    exact herrors

end Ends

/-- A text on a line of its own, with an acceptable time. If a semicolon stands behind it, then it
is typed byte by byte. Without one, it is typed without the blanks at its end, and is refused if
there is nothing else to it. So it can be left without a semicolon exactly if it does not end with
a blank. -/
theorem text_payloads (platform : Platform) {token payload : Bytes} {timestamp : Timestamp}
    (hread : Timestamp.parse? token = some timestamp) (htoken : Comment.newline ∉ token)
    (htime : timestamp.ms ≤ maxTime) (hpayload : (Action.text payload).Admissible platform) :
    let kept := payload.dropTail Bytes.isBlank
    let ended := compile platform (token ++ ascii ">text " ++ payload ++ ascii ";")
    let unended := compile platform (token ++ ascii ">text " ++ payload)
    ended.isValid = true ∧ ended.timeline = [⟨timestamp.ms, .text payload, 0⟩] ∧
    (kept ≠ [] → unended.isValid = true ∧ unended.timeline = [⟨timestamp.ms, .text kept, 0⟩]) ∧
    (kept = [] → unended.errors = [⟨1, .missingText⟩] ∧ unended.timeline = []) ∧
    (kept = payload ↔ ∀ b ∈ payload.getLast?, Bytes.isBlank b = false) := by
  intro kept ended unended
  have hopening : ascii ">text " = 62 :: (Verb.text.name ++ [32]) := rfl
  have hline : token ++ ascii ">text " ++ payload =
      token ++ 62 :: (Verb.text.name ++ 32 :: payload) := by
    simp [hopening]
  have hsemicolon : ascii ";" = [59] := rfl
  have hlineEnded : token ++ ascii ">text " ++ payload ++ ascii ";" =
      token ++ 62 :: (Verb.text.name ++ 32 :: payload ++ [59]) := by
    simp [hopening, hsemicolon]
  obtain ⟨herrors, htimeline⟩ := compile_text_ended platform hread htoken htime hpayload
  obtain ⟨hkept, hnothing⟩ := compile_text_unended platform hread htoken htime hpayload
  rw [← hlineEnded] at herrors htimeline
  rw [← hline] at hkept hnothing
  refine ⟨List.isEmpty_iff.mpr herrors, htimeline, ?_, ?_, Bytes.dropTail_eq_self_iff⟩
  · intro hne
    exact (hkept hne).imp_left List.isEmpty_iff.mpr
  · intro hnil
    have hmissing : unended.errors = [⟨1, .missingText⟩] := hnothing hnil
    refine ⟨hmissing, timeline_of_invalid ?_⟩
    change unended.errors.isEmpty = false
    rw [hmissing]
    rfl

theorem text_payloads_blank_at_end :
    let ended := compile .linux (ascii "007>text a ;")
    let unended := compile .linux (ascii "007>text a ")
    ended.timeline = [⟨7, .text (ascii "a "), 0⟩] ∧
      unended.timeline = [⟨7, .text (ascii "a"), 0⟩] := by
  have hread : Timestamp.parse? (ascii "007") = some (.absolute 7) := by decide +kernel
  have hpayload : (Action.text (ascii "a ")).Admissible .linux :=
    ⟨by decide, by decide, by decide, by decide, by decide, by decide, by decide⟩
  obtain ⟨-, hended, hunended, -⟩ :=
    text_payloads .linux hread (by decide) (by decide) hpayload
  exact ⟨hended, (hunended (by decide)).2⟩

/-- Nothing is left of a text of one blank at the end of a line. -/
theorem text_of_blank_is_refused :
    (Action.text (ascii " ")).Admissible .linux ∧
    (compile .linux (ascii "0>text  ;")).timeline = [⟨0, .text (ascii " "), 0⟩] ∧
    (compile .linux (ascii "0>text  ")).errors = [⟨1, .missingText⟩] := by
  refine ⟨?_, by decide +kernel, by decide +kernel⟩
  exact ⟨by decide, by decide, by decide, by decide, by decide, by decide, by decide⟩

end Script

end TimedInput
