import TimedInput.Proofs.Script.Reports

/-!
# Portability

What a platform lacks shows in one place only: a button or a key that is read without a fault
is refused instead of pressed. So two platforms read every clause alike, or one of them refuses
what the other one accepts, and no other error of a script appears, goes or moves.
-/

namespace TimedInput

theorem Platform.supports_of_ne {platform : Platform} (h : platform ≠ .macOS) (feature : Feature) :
    platform.supports feature = true := by
  cases platform with
  | macOS => exact absurd rfl h
  | _ => rfl

def Cause.isPortable (cause : Cause) : Bool :=
  cause.kind ≠ .unsupportedOnPlatform

def Diagnostic.isPortable (d : Diagnostic) : Bool :=
  d.cause.isPortable

namespace Clause

def Reading.causes : Reading → List Cause
  | .ok _ => []
  | .error causes => causes

/-- The first reading is the second one, except that it may refuse what is accepted there. -/
inductive Reading.Narrows : Reading → Reading → Prop where
  | accepted (action : Action) : Narrows (.ok action) (.ok action)
  | rejected {causes : List Cause} (h : ∀ cause ∈ causes, cause.isPortable = true) :
    Narrows (.error causes) (.error causes)
  | refused (action : Action) {cause : Cause} (h : cause.isPortable = false) :
    Narrows (.error [cause]) (.ok action)

theorem narrows_reject {cause : Cause} (h : cause.isPortable = true) :
    (reject cause).Narrows (reject cause) := by
  apply Reading.Narrows.rejected
  intro other hother
  rw [List.mem_singleton.mp hother]
  exact h

theorem narrows_rejectCount (verb : Verb) (least most : Nat) (args : List Bytes) :
    (rejectCount verb least most args).Narrows (rejectCount verb least most args) := by
  unfold rejectCount
  split
  · exact narrows_reject rfl
  · exact narrows_reject rfl

theorem narrows_readMove (mode x y : Bytes) (duration : Option Bytes) :
    (readMove mode x y duration).Narrows (readMove mode x y duration) := by
  cases h : readMove mode x y duration with
  | ok action => exact .accepted action
  | error causes =>
    apply Reading.Narrows.rejected
    intro cause hcause
    rw [Cause.isPortable, kind_of_readMove h hcause]
    rfl

theorem narrows_readRelease (arg : Bytes) : (readRelease arg).Narrows (readRelease arg) := by
  unfold readRelease
  split
  · exact .accepted _
  · split
    · exact .accepted _
    · split
      · exact .accepted _
      · exact narrows_reject rfl

theorem narrows_readText (text : Bytes) : (readText text).Narrows (readText text) := by
  unfold readText
  split
  · exact narrows_reject rfl
  · split
    · exact narrows_reject rfl
    · exact .accepted _

theorem narrows_withArgument (verb : Verb) {read other : Bytes → Reading}
    (h : ∀ arg, (read arg).Narrows (other arg)) (args : List Bytes) :
    (withArgument verb read args).Narrows (withArgument verb other args) := by
  unfold withArgument
  split
  · exact h _
  · exact narrows_rejectCount verb 1 1 args

theorem narrows_withMove (args : List Bytes) : (withMove args).Narrows (withMove args) := by
  unfold withMove
  split
  · apply narrows_readMove
  · apply narrows_readMove
  · exact narrows_rejectCount .mousemove 3 4 args

section Platforms

variable (narrow : Platform) {wide : Platform} (hwide : wide ≠ .macOS)
include hwide

theorem narrows_readButton (verb : Verb) (press : Press) (arg : Bytes) :
    (readButton narrow verb press arg).Narrows (readButton wide verb press arg) := by
  unfold readButton
  split
  · exact narrows_reject rfl
  · rename_i number _
    rw [Platform.supports_of_ne hwide, if_pos rfl]
    split
    · exact .accepted _
    · exact .refused _ rfl

theorem narrows_readKey (verb : Verb) (press : Press) (arg : Bytes) :
    (readKey narrow verb press arg).Narrows (readKey wide verb press arg) := by
  unfold readKey
  split
  · exact narrows_reject rfl
  · rename_i key _
    rw [Platform.supports_of_ne hwide, if_pos rfl]
    split
    · exact .accepted _
    · exact .refused _ rfl

theorem narrows_readVerb (verb : Verb) (rest : Bytes) :
    (readVerb narrow verb rest).Narrows (readVerb wide verb rest) := by
  unfold readVerb
  cases verb with
  | mousemove => exact narrows_withMove _
  | mousedown => exact narrows_withArgument _ (narrows_readButton narrow hwide _ _) _
  | mouseup => exact narrows_withArgument _ (narrows_readButton narrow hwide _ _) _
  | keydown => exact narrows_withArgument _ (narrows_readKey narrow hwide _ _) _
  | keyup => exact narrows_withArgument _ (narrows_readKey narrow hwide _ _) _
  | release => exact narrows_withArgument _ narrows_readRelease _
  | text => exact narrows_readText _

/-- A clause is blank for both platforms, or both of them read it. -/
theorem narrows_read? (clause : Bytes) :
    (read? narrow clause = none ∧ read? wide clause = none) ∨
      ∃ a b, read? narrow clause = some a ∧ read? wide clause = some b ∧ a.Narrows b := by
  by_cases hblank : clause.trim = []
  · left
    exact ⟨(read?_eq_none_iff narrow).mpr hblank, (read?_eq_none_iff wide).mpr hblank⟩
  · right
    simp only [read?, hblank, if_false]
    refine ⟨_, _, rfl, rfl, ?_⟩
    split
    · apply narrows_readVerb narrow hwide
    · exact narrows_reject rfl

theorem narrows_readAll (source : Bytes) :
    List.Forall₂ Reading.Narrows (readAll narrow source) (readAll wide source) := by
  unfold readAll
  induction Bytes.splitOn separator source with
  | nil => exact .nil
  | cons clause clauses ih =>
    rcases narrows_read? narrow hwide clause with ⟨hnarrow, hwide⟩ | ⟨a, b, hnarrow, hwide, h⟩
    · rw [List.filterMap_cons_none hnarrow, List.filterMap_cons_none hwide]
      exact ih
    · rw [List.filterMap_cons_some hnarrow, List.filterMap_cons_some hwide]
      exact .cons h ih

end Platforms

theorem causes_of_narrows {readings others : List Reading}
    (h : List.Forall₂ Reading.Narrows readings others) :
    others.flatMap Reading.causes = (readings.flatMap Reading.causes).filter Cause.isPortable := by
  induction h with
  | nil => rfl
  | cons hreading _ ih =>
    rw [List.flatMap_cons, List.flatMap_cons, List.filter_append, ← ih]
    cases hreading with
    | accepted => rfl
    | rejected hportable => simp [Reading.causes, List.filter_eq_self.mpr hportable]
    | refused _ hrefused => simp [Reading.causes, hrefused]

/-- Readings in which nothing is refused for the platform are those of the other platform. -/
theorem eq_of_narrows {readings others : List Reading}
    (h : List.Forall₂ Reading.Narrows readings others)
    (hportable : ∀ cause ∈ readings.flatMap Reading.causes, cause.isPortable = true) :
    readings = others := by
  induction h with
  | nil => rfl
  | cons hreading _ ih =>
    rw [List.flatMap_cons] at hportable
    rw [ih fun cause hcause => hportable cause (List.mem_append_right _ hcause)]
    cases hreading with
    | accepted => rfl
    | rejected => rfl
    | refused _ hrefused =>
      have h := hportable _ (List.mem_append_left _ List.mem_cons_self)
      rw [hrefused] at h
      cases h

end Clause

/-- The first line has the actions and the causes of the second one, except that it may refuse what
is accepted there. -/
structure LineActions.Narrows (line other : LineActions) : Prop where
  causes_eq : other.causes = line.causes.filter Cause.isPortable
  eq_of_portable : (∀ cause ∈ line.causes, cause.isPortable = true) → line = other

structure LineReading.Narrows (reading other : LineReading) : Prop where
  base_eq : reading.base = other.base
  errors_eq : other.errors = reading.errors.filter Diagnostic.isPortable
  eq_of_portable : (∀ d ∈ reading.errors, d.isPortable = true) → reading = other

theorem LineReading.kind_of_readTime {base : UInt64} {token : Bytes} {cause : Cause}
    (h : readTime base token = .error cause) : cause.kind = .invalidTimestamp := by
  unfold readTime at h
  split at h
  · cases h
    rfl
  · split at h
    · cases h
    · cases h
      rfl

section Platforms

variable (narrow : Platform) {wide : Platform} (hwide : wide ≠ .macOS)
include hwide

theorem LineActions.narrows_parse (source : Bytes) :
    (parse narrow source).Narrows (parse wide source) := by
  have h := Clause.narrows_readAll narrow hwide source
  unfold parse
  generalize Clause.readAll narrow source = readings at h
  generalize Clause.readAll wide source = others at h
  cases h with
  | nil => exact ⟨rfl, fun _ => rfl⟩
  | cons hreading hrest =>
    have h := List.Forall₂.cons hreading hrest
    refine ⟨Clause.causes_of_narrows h, fun hportable => ?_⟩
    rw [Clause.eq_of_narrows h hportable]

namespace LineReading

/-- Whether a line has a separator and when it is due does not depend on the platform. -/
theorem narrows_ofLine (base : UInt64) (line : SourceLine) :
    (ofLine narrow base line).Narrows (ofLine wide base line) := by
  cases hsplit : SourceLine.split? line.text with
  | none =>
    simp only [ofLine, hsplit]
    exact ⟨rfl, rfl, fun _ => rfl⟩
  | some parts =>
    obtain ⟨token, source⟩ := parts
    obtain ⟨hcauses, heq⟩ := LineActions.narrows_parse narrow hwide source
    cases htime : readTime base token with
    | ok time =>
      simp only [ofLine, hsplit, htime]
      refine ⟨rfl, ?_, ?_⟩
      · simp only [hcauses, List.filter_map]
        rfl
      · intro hportable
        rw [heq fun cause hcause => hportable _ (List.mem_map_of_mem hcause)]
    | error cause =>
      have hcause : cause.isPortable = true := by
        rw [Cause.isPortable, kind_of_readTime htime]
        rfl
      simp only [ofLine, hsplit, htime]
      refine ⟨rfl, ?_, ?_⟩
      · rw [hcauses, ← List.filter_cons_of_pos hcause, List.filter_map]
        rfl
      · intro hportable
        rw [heq fun other hother =>
          hportable _ (List.mem_map_of_mem (List.mem_cons_of_mem cause hother))]

theorem narrows_ofLines (base : UInt64) (lines : List SourceLine) :
    List.Forall₂ Narrows (ofLines narrow base lines) (ofLines wide base lines) := by
  induction lines generalizing base with
  | nil => exact .nil
  | cons line lines ih =>
    have h := narrows_ofLine narrow hwide base line
    refine .cons h ?_
    rw [h.base_eq]
    exact ih _

end LineReading

end Platforms

namespace LineReading

theorem errors_of_narrows {readings others : List LineReading}
    (h : List.Forall₂ Narrows readings others) :
    others.flatMap (·.errors) = (readings.flatMap (·.errors)).filter Diagnostic.isPortable := by
  induction h with
  | nil => rfl
  | cons hreading _ ih =>
    rw [List.flatMap_cons, List.flatMap_cons, List.filter_append, ← ih, hreading.errors_eq]

theorem eq_of_narrows {readings others : List LineReading}
    (h : List.Forall₂ Narrows readings others)
    (hportable : ∀ d ∈ readings.flatMap (·.errors), d.isPortable = true) : readings = others := by
  induction h with
  | nil => rfl
  | cons hreading _ ih =>
    rw [List.flatMap_cons] at hportable
    rw [hreading.eq_of_portable fun d hd => hportable d (List.mem_append_left _ hd),
      ih fun d hd => hportable d (List.mem_append_right _ hd)]

end LineReading

namespace Script

theorem errors_narrows (narrow : Platform) {wide : Platform} (hwide : wide ≠ .macOS)
    (source : Bytes) :
    (compile wide source).errors =
      (compile narrow source).errors.filter Diagnostic.isPortable :=
  LineReading.errors_of_narrows (LineReading.narrows_ofLines narrow hwide 0 _)

/-- A source in which nothing is refused for the platform compiles as it does elsewhere. -/
theorem compile_eq_of_portable {narrow wide : Platform} (hwide : wide ≠ .macOS) {source : Bytes}
    (hportable : ∀ d ∈ (compile narrow source).errors, d.isPortable = true) :
    compile wide source = { compile narrow source with platform := wide } := by
  have heq := LineReading.eq_of_narrows (LineReading.narrows_ofLines narrow hwide 0 _) hportable
  simp only [compile, heq]

end Script

/-- On every platform but one, a source has the timeline, the errors and the warnings that it has on
the standard platform, and nothing is refused for the platform. On that one, the errors are the
same and in the same order if what is refused for the platform is left out. So if nothing is wrong
with a source there, then nothing is wrong with it anywhere, and it is the same timeline. -/
theorem Script.platforms_differ_only_in_refusals (source : Bytes) :
    (∀ platform, platform ≠ .macOS →
      (compile platform source).timeline = (compile .linux source).timeline ∧
      (compile platform source).errors = (compile .linux source).errors ∧
      (compile platform source).warnings = (compile .linux source).warnings ∧
      ∀ d ∈ (compile platform source).errors, d.cause.kind ≠ .unsupportedOnPlatform) ∧
    (compile .macOS source).errors.filter (·.cause.kind ≠ .unsupportedOnPlatform) =
      (compile .linux source).errors ∧
    (compile .macOS source).warnings = (compile .linux source).warnings ∧
    ((compile .macOS source).isValid = true → ∀ platform,
      (compile platform source).isValid = true ∧
      (compile platform source).timeline = (compile .macOS source).timeline) := by
  have hlinux : Platform.linux ≠ .macOS := nofun
  refine ⟨?_, (errors_narrows .macOS hlinux source).symm, rfl, ?_⟩
  · intro platform hplatform
    -- a platform that supports everything is compared with itself first
    have hportable : ∀ d ∈ (compile platform source).errors, d.isPortable = true := by
      intro d hd
      rw [errors_narrows platform hplatform source] at hd
      exact (List.mem_filter.mp hd).2
    have heq : compile .linux source = { compile platform source with platform := .linux } :=
      compile_eq_of_portable hlinux hportable
    refine ⟨by rw [heq], by rw [heq], rfl, ?_⟩
    intro d hd
    simpa [Diagnostic.isPortable, Cause.isPortable] using hportable d hd
  · intro hvalid platform
    by_cases hplatform : platform = .macOS
    · rw [hplatform]
      exact ⟨hvalid, rfl⟩
    · have hnone : (compile .macOS source).errors = [] := List.isEmpty_iff.mp hvalid
      have heq : compile platform source = { compile .macOS source with platform } := by
        apply compile_eq_of_portable hplatform
        rw [hnone]
        exact nofun
      rw [heq]
      exact ⟨hvalid, rfl⟩

end TimedInput
