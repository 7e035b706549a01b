import TimedInput.CommandLine
import TimedInput.Proofs.Text.Decimal

/-!
# Arguments

A list of arguments is a sequence of groups, and the groups say what is asked for: whether the
run is a dry one, whether it is verbose, the interval, of which the last one counts, and the path.
The reader of the arguments takes exactly the sequences of proper groups with at most one path, and
stops at a request for help wherever such a sequence is interrupted by one.
-/

namespace TimedInput.CommandLine

/-- A positive number of 64 bits in digits. -/
def IsInterval (value : Bytes) : Prop :=
  value ≠ [] ∧ value.all Numeral.isDigit = true ∧ 0 < Numeral.value value ∧
    Numeral.value value ≤ 9223372036854775807

theorem tick?_eq_some_iff {arg : Bytes} {tick : UInt64} :
    tick? arg = some tick ↔ IsInterval arg ∧ tick = (Numeral.value arg).toUInt64 := by
  constructor
  · intro h
    obtain ⟨i, hi, rfl⟩ := Option.map_eq_some_iff.mp h
    obtain ⟨hi, hpos⟩ := Option.filter_eq_some_iff.mp hi
    have hpos : 0 < i := of_decide_eq_true hpos
    obtain ⟨n, rfl⟩ := Int.eq_ofNat_of_zero_le (Int.le_of_lt hpos)
    obtain ⟨hne, hall, rfl, hle⟩ := (Numeral.integer?_eq_some_iff (by omega)).mp hi
    exact ⟨⟨hne, hall, by omega, hle⟩, rfl⟩
  · rintro ⟨⟨hne, hall, hpos, hle⟩, rfl⟩
    have hread := (Numeral.integer?_eq_some_iff hpos).mpr ⟨hne, hall, rfl, hle⟩
    simp [tick?, hread, hpos]

/-- A flag in its short or in its long form. -/
def flag (short long : String) (isLong : Bool) : Bytes :=
  if isLong then ascii long else ascii short

theorem isFlag_iff {short long : String} {arg : Bytes} :
    isFlag short long arg = true ↔ ∃ isLong, arg = flag short long isLong := by
  simp [isFlag, flag]

theorem isFlag_flag (short long : String) (isLong : Bool) :
    isFlag short long (flag short long isLong) = true :=
  isFlag_iff.mpr ⟨isLong, rfl⟩

/-- Arguments that belong together. -/
inductive Group where
  | dryRun (isLong : Bool)
  | verbose (isLong : Bool)
  | interval (isLong : Bool) (value : Bytes)
  | operand (word : Bytes)
  deriving DecidableEq, Repr

namespace Group

def words : Group → List Bytes
  | .dryRun isLong => [flag "-d" "--dry-run" isLong]
  | .verbose isLong => [flag "-v" "--verbose" isLong]
  | .interval isLong value => [flag "-t" "--tick" isLong, value]
  | .operand word => [word]

/-- May these arguments be given? An operand does not look like an option. -/
def IsProper : Group → Prop
  | .interval _ value => IsInterval value
  | .operand word => word.head? ≠ some 45
  | _ => True

def isDryRun : Group → Bool
  | .dryRun _ => true
  | _ => false

def isVerbose : Group → Bool
  | .verbose _ => true
  | _ => false

def tick? : Group → Option UInt64
  | .interval _ value => some (Numeral.value value).toUInt64
  | _ => none

def operand? : Group → Option Bytes
  | .operand word => some word
  | _ => none

end Group

def operands (groups : List Group) : List Bytes :=
  groups.filterMap Group.operand?

/-- What the groups ask for, one after the other. -/
def gathered (groups : List Group) : Options where
  dryRun := groups.any Group.isDryRun
  settings :=
    { tick := (groups.filterMap Group.tick?).getLast?.getD Settings.standard.tick
      verbose := groups.any Group.isVerbose }
  path := (operands groups).getLast?.getD []

/-- All groups are proper, and no operand comes after one that is not empty. -/
structure Readable (groups : List Group) : Prop where
  proper : ∀ g ∈ groups, g.IsProper
  operands : (operands groups).Pairwise fun before _ => before = []

@[simp] theorem operands_append (groups more : List Group) :
    operands (groups ++ more) = operands groups ++ operands more :=
  List.filterMap_append

theorem readable_nil : Readable [] :=
  ⟨nofun, .nil⟩

theorem Readable.of_append {groups more : List Group} (h : Readable (groups ++ more)) :
    Readable groups := by
  obtain ⟨hproper, hoperands⟩ := h
  rw [operands_append] at hoperands
  refine ⟨?_, (List.pairwise_append.mp hoperands).1⟩
  exact fun g hg => hproper g (List.mem_append_left more hg)

/-- The path is the last operand, and all operands before it are empty. -/
theorem Readable.operands_eq {groups : List Group} (h : Readable groups) :
    CommandLine.operands groups = [] ∧ (gathered groups).path = [] ∨
      ∃ before, CommandLine.operands groups = before ++ [(gathered groups).path] ∧
        ∀ word ∈ before, word = [] := by
  have hpath : (gathered groups).path = (CommandLine.operands groups).getLast?.getD [] := rfl
  rw [hpath]
  rcases List.eq_nil_or_concat (CommandLine.operands groups) with hnil | ⟨before, last, hlast⟩
  · simp [hnil]
  · right
    have hoperands := h.operands
    rw [hlast, List.concat_eq_append] at hoperands ⊢
    refine ⟨before, by simp, ?_⟩
    intro word hword
    exact (List.pairwise_append.mp hoperands).2.2 word hword last List.mem_cons_self

theorem Readable.operands_empty {groups : List Group} (h : Readable groups)
    (hpath : (gathered groups).path = []) : ∀ word ∈ CommandLine.operands groups, word = [] := by
  rcases h.operands_eq with ⟨hnil, -⟩ | ⟨before, heq, hempty⟩
  · simp [hnil]
  · rw [heq, hpath]
    simpa [or_imp, forall_and] using hempty

theorem Readable.filter_operands {groups : List Group} (h : Readable groups)
    (hpath : (gathered groups).path ≠ []) :
    (CommandLine.operands groups).filter (· ≠ []) = [(gathered groups).path] := by
  rcases h.operands_eq with ⟨-, hnil⟩ | ⟨before, heq, hempty⟩
  · exact absurd hnil hpath
  · rw [heq, List.filter_append]
    simpa [hpath] using hempty

theorem Readable.snoc {groups : List Group} {g : Group} (h : Readable groups) (hg : g.IsProper)
    (hpath : g.operand? ≠ none → (gathered groups).path = []) : Readable (groups ++ [g]) := by
  refine ⟨?_, ?_⟩
  · intro other hother
    rcases List.mem_append.mp hother with hother | hother
    · exact h.proper other hother
    · rw [List.mem_singleton.mp hother]
      exact hg
  · rw [operands_append]
    cases hword : g.operand? with
    | none => simpa [CommandLine.operands, hword] using h.operands
    | some word =>
      have hempty := h.operands_empty (hpath (by simp [hword]))
      refine List.pairwise_append.mpr ⟨h.operands, ?_, ?_⟩
      · simp [CommandLine.operands, hword]
      · exact fun before hbefore _ _ => hempty before hbefore

/-- An operand is read only as long as there is no path. -/
theorem Readable.path_eq_nil {groups : List Group} {word : Bytes}
    (h : Readable (groups ++ [.operand word])) : (gathered groups).path = [] := by
  have hoperands := h.operands
  rw [operands_append] at hoperands
  have hnil := (List.pairwise_append.mp hoperands).2.2
  change (CommandLine.operands groups).getLast?.getD [] = []
  cases hlast : (CommandLine.operands groups).getLast? with
  | none => rfl
  | some last => exact hnil last (List.mem_of_getLast? hlast) word List.mem_cons_self

theorem gathered_perm {groups more : List Group} (h : groups.Perm more)
    (hoperands : operands groups = operands more)
    (hticks : (groups.filterMap Group.tick?).getLast? = (more.filterMap Group.tick?).getLast?) :
    gathered groups = gathered more := by
  simp only [gathered, hoperands, hticks, h.any_eq]

theorem Readable.perm {groups more : List Group} (h : Readable groups) (hperm : groups.Perm more)
    (hoperands : CommandLine.operands groups = CommandLine.operands more) : Readable more :=
  ⟨fun g hg => h.proper g (hperm.mem_iff.mpr hg), hoperands ▸ h.operands⟩

/-- The options after a group has been read. -/
def Group.apply (options : Options) : Group → Options
  | .dryRun _ => { options with dryRun := true }
  | .verbose _ => { options with settings := { options.settings with verbose := true } }
  | .interval _ value =>
    { options with settings := { options.settings with tick := (Numeral.value value).toUInt64 } }
  | .operand word => { options with path := word }

theorem gathered_snoc (groups : List Group) (g : Group) :
    gathered (groups ++ [g]) = g.apply (gathered groups) := by
  cases g <;> simp [gathered, operands, Group.isDryRun, Group.isVerbose, Group.tick?,
    Group.operand?, Group.apply]

theorem isFlag_eq_false {short long : String} {arg : Bytes} (hshort : (ascii short).head? = some 45)
    (hlong : (ascii long).head? = some 45) (harg : arg.head? ≠ some 45) :
    isFlag short long arg = false := by
  by_contra h
  obtain ⟨isLong, rfl⟩ := isFlag_iff.mp (by simpa using h)
  cases isLong
  · exact harg hshort
  · exact harg hlong

/-- A group is read as a whole. -/
theorem readArguments_words {g : Group} (hg : g.IsProper) {options : Options}
    (hpath : g.operand? ≠ none → options.path = []) (rest : List Bytes) :
    readArguments options (g.words ++ rest) = readArguments (g.apply options) rest := by
  cases g with
  | dryRun isLong =>
    have hd := isFlag_flag "-d" "--dry-run" isLong
    simp only [Group.words, List.singleton_append]
    rw [readArguments.eq_def]
    simp only [hd, if_true]
    rfl
  | verbose isLong =>
    have hv := isFlag_flag "-v" "--verbose" isLong
    have hd : isFlag "-d" "--dry-run" (flag "-v" "--verbose" isLong) = false := by
      cases isLong <;> decide
    simp only [Group.words, List.singleton_append]
    rw [readArguments.eq_def]
    simp only [hd, hv]
    rfl
  | interval isLong value =>
    have ht := isFlag_flag "-t" "--tick" isLong
    have hd : isFlag "-d" "--dry-run" (flag "-t" "--tick" isLong) = false := by
      cases isLong <;> decide
    have hv : isFlag "-v" "--verbose" (flag "-t" "--tick" isLong) = false := by
      cases isLong <;> decide
    have hvalue : tick? value = some (Numeral.value value).toUInt64 :=
      tick?_eq_some_iff.mpr ⟨hg, rfl⟩
    simp only [Group.words, List.cons_append, List.nil_append, readArguments, hd, hv, ht, hvalue]
    rfl
  | operand word =>
    have hnil : options.path = [] := hpath nofun
    have hd : isFlag "-d" "--dry-run" word = false := isFlag_eq_false rfl rfl hg
    have hv : isFlag "-v" "--verbose" word = false := isFlag_eq_false rfl rfl hg
    have ht : isFlag "-t" "--tick" word = false := isFlag_eq_false rfl rfl hg
    have hh : isFlag "-h" "--help" word = false := isFlag_eq_false rfl rfl hg
    have hword : word.head? ≠ some 45 := hg
    simp only [Group.words, List.singleton_append]
    rw [readArguments.eq_def]
    simp only [hd, hv, ht, hh, if_neg hword, hnil]
    rfl

theorem readArguments_after {done groups : List Group} (h : Readable (done ++ groups))
    (rest : List Bytes) :
    readArguments (gathered done) (groups.flatMap Group.words ++ rest) =
      readArguments (gathered (done ++ groups)) rest := by
  induction groups generalizing done with
  | nil => simp
  | cons g groups ih =>
    rw [List.append_cons] at h ⊢
    have hnext : Readable (done ++ [g]) := h.of_append
    have hg : g.IsProper := hnext.proper g (List.mem_append_right done List.mem_cons_self)
    have hpath : g.operand? ≠ none → (gathered done).path = [] := by
      cases g with
      | operand word => exact fun _ => hnext.path_eq_nil
      | _ => exact fun h => absurd rfl h
    rw [List.flatMap_cons, List.append_assoc, readArguments_words hg hpath, ← gathered_snoc, ih h]

theorem readArguments_groups {groups : List Group} (h : Readable groups) (rest : List Bytes) :
    readArguments .initial (groups.flatMap Group.words ++ rest) =
      readArguments (gathered groups) rest := by
  rw [← List.nil_append groups] at h
  exact readArguments_after h rest

theorem readArguments_help (options : Options) (isLong : Bool) (rest : List Bytes) :
    readArguments options (flag "-h" "--help" isLong :: rest) = .help := by
  have hd : isFlag "-d" "--dry-run" (flag "-h" "--help" isLong) = false := by
    cases isLong <;> decide
  have hv : isFlag "-v" "--verbose" (flag "-h" "--help" isLong) = false := by
    cases isLong <;> decide
  have ht : isFlag "-t" "--tick" (flag "-h" "--help" isLong) = false := by
    cases isLong <;> decide
  have hh := isFlag_flag "-h" "--help" isLong
  rw [readArguments.eq_def]
  simp only [hd, hv, ht, hh]
  rfl

/-- What a list of arguments can be. -/
inductive Reading : List Bytes → Request → Prop where
  | play {groups : List Group} (h : Readable groups) (hpath : (gathered groups).path ≠ []) :
    Reading (groups.flatMap Group.words) (.play (gathered groups))
  | help {groups : List Group} (h : Readable groups) (isLong : Bool) (rest : List Bytes) :
    Reading (groups.flatMap Group.words ++ flag "-h" "--help" isLong :: rest) .help
  | refuse (args : List Bytes) (message : Bytes) : Reading args (.refuse message)

theorem Reading.snoc {groups : List Group} {g : Group} {rest : List Bytes} {request : Request}
    (h : Reading ((groups ++ [g]).flatMap Group.words ++ rest) request) :
    Reading (groups.flatMap Group.words ++ (g.words ++ rest)) request := by
  simpa using h

theorem reading_readArguments {options : Options} {args : List Bytes} {groups : List Group}
    (h : Readable groups) (hoptions : options = gathered groups) :
    Reading (groups.flatMap Group.words ++ args) (readArguments options args) := by
  fun_induction readArguments options args generalizing groups with
  | case1 options hpath => exact .refuse _ _
  | case2 options hpath =>
    subst hoptions
    rw [List.append_nil]
    exact .play h hpath
  | case3 options arg rest hd ih =>
    obtain ⟨isLong, rfl⟩ := isFlag_iff.mp hd
    have hnext : Readable (groups ++ [.dryRun isLong]) := h.snoc trivial fun h => absurd rfl h
    exact (ih hnext (by rw [gathered_snoc, hoptions]; rfl)).snoc
  | case4 options arg rest hd hv ih =>
    obtain ⟨isLong, rfl⟩ := isFlag_iff.mp hv
    have hnext : Readable (groups ++ [.verbose isLong]) := h.snoc trivial fun h => absurd rfl h
    exact (ih hnext (by rw [gathered_snoc, hoptions]; rfl)).snoc
  | case5 options arg hd hv ht => exact .refuse _ _
  | case6 options arg hd hv ht value rest hvalue => exact .refuse _ _
  | case7 options arg hd hv ht value rest tick hvalue ih =>
    obtain ⟨isLong, rfl⟩ := isFlag_iff.mp ht
    obtain ⟨hinterval, rfl⟩ := tick?_eq_some_iff.mp hvalue
    have hnext : Readable (groups ++ [.interval isLong value]) :=
      h.snoc hinterval fun h => absurd rfl h
    exact (ih hnext (by rw [gathered_snoc, hoptions]; rfl)).snoc
  | case8 options arg rest hd hv ht hh =>
    obtain ⟨isLong, rfl⟩ := isFlag_iff.mp hh
    exact .help h isLong rest
  | case9 options arg rest hd hv ht hh hdash => exact .refuse _ _
  | case10 options arg rest hd hv ht hh hdash hpath ih =>
    have hnext : Readable (groups ++ [.operand arg]) := h.snoc hdash fun _ => hoptions ▸ hpath
    exact (ih hnext (by rw [gathered_snoc, hoptions]; rfl)).snoc
  | case11 options arg rest hd hv ht hh hdash hpath => exact .refuse _ _

theorem reading_ofArguments (args : List Bytes) :
    Reading (args.map Bytes.untilNul) (Request.ofArguments args) :=
  reading_readArguments readable_nil rfl

theorem ofArguments_groups {args : List Bytes} {groups : List Group} (h : Readable groups)
    (hargs : args.map Bytes.untilNul = groups.flatMap Group.words) :
    Request.ofArguments args =
      if (gathered groups).path = [] then .refuse [] else .play (gathered groups) := by
  have hread := readArguments_groups h []
  rw [List.append_nil, ← hargs] at hread
  exact hread

/-- The arguments can be read up to a request for help. -/
def AsksForHelp (args : List Bytes) : Prop :=
  ∃ groups isLong rest, Readable groups ∧
    args.map Bytes.untilNul = groups.flatMap Group.words ++ flag "-h" "--help" isLong :: rest

theorem ofArguments_eq_help_iff (args : List Bytes) :
    Request.ofArguments args = .help ↔ AsksForHelp args := by
  constructor
  · intro h
    have hreading := reading_ofArguments args
    rw [h] at hreading
    unfold AsksForHelp
    generalize args.map Bytes.untilNul = words at hreading
    cases hreading with
    | help hreadable isLong rest => exact ⟨_, isLong, rest, hreadable, rfl⟩
  · rintro ⟨groups, isLong, rest, h, hargs⟩
    rw [Request.ofArguments, hargs, readArguments_groups h]
    exact readArguments_help _ isLong rest

theorem ofArguments_eq_play_iff (args : List Bytes) (options : Options) :
    Request.ofArguments args = .play options ↔
      ∃ groups, Readable groups ∧ args.map Bytes.untilNul = groups.flatMap Group.words ∧
        (gathered groups).path ≠ [] ∧ options = gathered groups := by
  constructor
  · intro h
    have hreading := reading_ofArguments args
    rw [h] at hreading
    generalize args.map Bytes.untilNul = words at hreading
    cases hreading with
    | play hreadable hpath => exact ⟨_, hreadable, rfl, hpath, rfl⟩
  · rintro ⟨groups, h, hargs, hpath, rfl⟩
    rw [ofArguments_groups h hargs, if_neg hpath]

end TimedInput.CommandLine
