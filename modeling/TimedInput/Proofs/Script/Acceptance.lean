import TimedInput.Proofs.Script.Verdicts

/-!
# What a line adds

A line is cut at its semicolons. Each piece that is not blank is a clause by itself: it gives
the action that it asks for, in its turn, or it is rejected and then the line is not accepted.
-/

namespace TimedInput

namespace Clause

theorem forall₂_readings (platform : Platform) (pieces : List Bytes) :
    List.Forall₂ (fun clause value => ∀ action, value = some action ↔ Means platform clause action)
      (pieces.filter fun piece => !piece.all Bytes.isBlank)
      ((pieces.filterMap (read? platform)).map Except.toOption) := by
  induction pieces with
  | nil => exact .nil
  | cons piece pieces ih =>
    have hblank : piece.all Bytes.isBlank = true ↔ read? platform piece = none := by
      rw [read?_eq_none_iff, Bytes.trim_eq_nil_iff, List.all_eq_true]
    cases hread : read? platform piece with
    | none =>
      rw [List.filter_cons_of_neg (by simpa using hblank.mpr hread),
        List.filterMap_cons_none hread]
      exact ih
    | some reading =>
      have hfilled : piece.all Bytes.isBlank = false := by
        rw [← Bool.not_eq_true, hblank, hread]
        exact Option.some_ne_none reading
      rw [List.filter_cons_of_pos (by simp [hfilled]), List.filterMap_cons_some hread]
      refine .cons (fun action => ?_) ih
      rw [← read?_eq_ok_iff, hread]
      cases reading <;> simp [Except.toOption]

/-- A rejected clause has a cause, so readings without causes are actions. -/
theorem rejections_eq_nil_iff {platform : Platform} {readings : List Reading}
    (h : ∀ reading ∈ readings, Verdict platform reading) :
    (readings.flatMap fun reading =>
        match reading with
        | .ok _ => []
        | .error causes => causes) = [] ↔ none ∉ readings.map Except.toOption := by
  rw [List.flatMap_eq_nil_iff, List.mem_map, not_exists]
  refine forall_congr' fun reading => ?_
  rw [not_and]
  refine forall_congr' fun hreading => ?_
  cases reading with
  | ok action => simp [Except.toOption]
  | error causes =>
    have hleast := (h _ hreading).least
    have hne : causes ≠ [] := List.length_pos_iff.mp hleast
    simp [Except.toOption, hne]

end Clause

theorem LineActions.actions_parse (platform : Platform) (source : Bytes) :
    (parse platform source).actions =
      ((Clause.readAll platform source).map Except.toOption).filterMap id := by
  rw [List.filterMap_map, parse]
  split
  · rename_i hnil
    rw [hnil]
    rfl
  · rfl

theorem LineActions.causes_parse_eq_nil_iff (platform : Platform) (source : Bytes) :
    (parse platform source).causes = [] ↔
      (Clause.readAll platform source).map Except.toOption ≠ [] ∧
        none ∉ (Clause.readAll platform source).map Except.toOption := by
  rw [ne_eq, List.map_eq_nil_iff, parse]
  split
  · rename_i hnil
    rw [hnil]
    exact iff_of_false (List.cons_ne_nil _ _) (fun h => h.1 rfl)
  · rename_i hne
    have hverdicts : ∀ reading ∈ Clause.readAll platform source,
        Clause.Verdict platform reading := by
      intro reading hreading
      obtain ⟨clause, -, hread⟩ := List.mem_filterMap.mp hreading
      exact Clause.verdict_read? platform hread
    rw [and_iff_right hne]
    exact Clause.rejections_eq_nil_iff hverdicts

/-- The actions that a line adds are those that its clauses ask for, in their order, and it is
accepted if it has clauses and each of them asks for an action. What was found before stays. -/
theorem Findings.addLine_reads_grammar (found : Findings) (platform : Platform) (line : Int)
    (source : Bytes) :
    let (next, accepted) := found.addLine platform line source
    ∃ (pieces : List Bytes) (values : List (Option Action)) (errors : List Diagnostic),
      pieces ≠ [] ∧ source = Bytes.join (ascii ";") pieces ∧ (∀ piece ∈ pieces, 59 ∉ piece) ∧
      List.Forall₂
        (fun clause value => ∀ action, value = some action ↔ Clause.Means platform clause action)
        (pieces.filter fun piece => !piece.all Bytes.isBlank) values ∧
      next.actions = found.actions ++ values.filterMap id ∧
      next.errors = found.errors ++ errors ∧ (∀ error ∈ errors, error.line = line) ∧
      (accepted = true ↔ values ≠ [] ∧ none ∉ values) ∧ (accepted = true ↔ errors = []) := by
  have haccepted : (found.addLine platform line source).2 = true ↔
      (LineActions.parse platform source).causes = [] := List.isEmpty_iff
  refine ⟨Bytes.splitOn Clause.separator source,
    (Clause.readAll platform source).map Except.toOption,
    (LineActions.parse platform source).causes.map (⟨line, ·⟩), Bytes.splitOn_ne_nil,
    Bytes.join_splitOn.symm, fun piece hpiece => Bytes.not_mem_of_mem_splitOn hpiece,
    Clause.forall₂_readings platform _, ?_, rfl, ?_, ?_, ?_⟩
  · rw [← LineActions.actions_parse]
  · intro error herror
    obtain ⟨cause, -, rfl⟩ := List.mem_map.mp herror
    rfl
  · exact haccepted.trans (LineActions.causes_parse_eq_nil_iff platform source)
  · rw [List.map_eq_nil_iff]
    exact haccepted

end TimedInput
