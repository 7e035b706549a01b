import Mathlib.Data.List.Nodup
import TimedInput.Proofs.Text.Decimal
import TimedInput.Proofs.Text.Splitting
import TimedInput.Script.Clause

/-!
# The grammar of clauses

Which clauses ask for which actions, as relations between a clause and its parts that do not
say how the parts are found. Three classes of bytes separate them: only spaces and tabs stand
before a verb and behind it, arguments are parted by line feeds and carriage returns too, and
a text keeps them all. A clause is read as an action exactly if it asks for that action.
-/

namespace TimedInput

def MoveMode.word : MoveMode → Bytes
  | .absolute => ascii "abs"
  | .relative => ascii "rel"

def Press.buttonVerb : Press → Verb
  | .down => .mousedown
  | .up => .mouseup

def Press.keyVerb : Press → Verb
  | .down => .keydown
  | .up => .keyup

/-- Among things with different names a name finds its own. -/
theorem find?_name_iff {α : Type} {name : α → Bytes} {things : List α}
    (hnodup : (things.map name).Nodup) {s : Bytes} {thing : α} :
    things.find? (name · == s) = some thing ↔ thing ∈ things ∧ s = name thing := by
  constructor
  · intro h
    have hname := List.find?_some h
    exact ⟨List.mem_of_find?_eq_some h, (beq_iff_eq.mp hname).symm⟩
  · rintro ⟨hthing, rfl⟩
    cases hfound : things.find? (name · == name thing) with
    | none =>
      have hnot := List.find?_eq_none.mp hfound thing hthing
      exact absurd (beq_self_eq_true _) hnot
    | some found =>
      have hname := List.find?_some hfound
      exact congrArg some (List.inj_on_of_nodup_map hnodup (List.mem_of_find?_eq_some hfound)
        hthing (beq_iff_eq.mp hname))

theorem Verb.ofName?_eq_some_iff {s : Bytes} {verb : Verb} :
    ofName? s = some verb ↔ s = verb.name := by
  have hall : verb ∈ all := by cases verb <;> decide
  rw [ofName?, find?_name_iff (by decide), and_iff_right hall]

theorem Key.ofName?_eq_some_iff {s : Bytes} {key : Key} :
    ofName? s = some key ↔ key ∈ table ∧ s.lower = key.name :=
  find?_name_iff (by decide +kernel)

namespace Clause

/-- A clause with its first word and all that stands behind it. -/
inductive Parted : Bytes → Bytes → Bytes → Prop where
  | intro {lead word rest : Bytes} (hlead : ∀ b ∈ lead, isSpaceOrTab b = true) (hne : word ≠ [])
    (hword : ∀ b ∈ word, isSpaceOrTab b = false)
    (hrest : ∀ b ∈ rest.head?, isSpaceOrTab b = true) : Parted (lead ++ (word ++ rest)) word rest

/-- What is typed of a text and of the byte in front of it. One carriage return at the end is
not. -/
inductive Typed : Bytes → Bytes → Prop where
  | nothing : Typed [] []
  | whole {b : UInt8} {text : Bytes} (h : text.getLast? ≠ some 13) : Typed (b :: text) text
  | shortened {b : UInt8} {text : Bytes} : Typed (b :: (text ++ [13])) text

/-- A move lasts no time unless it is told how many milliseconds. -/
inductive Lasts : Option Bytes → UInt64 → Prop where
  | instant : Lasts none 0
  | told {arg : Bytes} {n : Nat} (h : Numeral.Denotes arg n) (hle : n ≤ 2147483647) :
    Lasts (some arg) n.toUInt64

section Relations

variable (platform : Platform)

/-- What stands behind a verb asks for an action. -/
inductive Asks : Verb → Bytes → Action → Prop where
  | move {mode : MoveMode} {x y : Int32} {duration : UInt64} {rest xArg yArg : Bytes}
    {durationArg : Option Bytes}
    (hwords : Bytes.Words isArgumentBlank rest ([mode.word, xArg, yArg] ++ durationArg.toList))
    (hx : Numeral.Denotes xArg x.toInt) (hy : Numeral.Denotes yArg y.toInt)
    (hsign : mode = .relative ∨ (0 ≤ x ∧ 0 ≤ y)) (hduration : Lasts durationArg duration) :
    Asks .mousemove rest (.move mode x y duration)
  | button {press : Press} {number : Int32} {rest arg : Bytes}
    (hwords : Bytes.Words isArgumentBlank rest [arg]) (harg : Numeral.Denotes arg number.toInt)
    (hleast : 1 ≤ number) (hmost : number ≤ 5)
    (hsupported : platform.supports (Feature.ofButton number) = true) :
    Asks press.buttonVerb rest (.button press number)
  | key {press : Press} {key : Key} {rest arg : Bytes}
    (hwords : Bytes.Words isArgumentBlank rest [arg]) (hkey : key ∈ Key.table)
    (harg : arg.lower = key.name) (hsupported : platform.supports key.feature = true) :
    Asks press.keyVerb rest (.key press key.code)
  | release {target : ReleaseTarget} {rest : Bytes}
    (hwords : Bytes.Words isArgumentBlank rest [target.name])
    (htarget : target = .mouse ∨ target = .key ∨ target = .both) :
    Asks .release rest (.release target)
  | text {text rest : Bytes} (htext : Typed rest text) (hne : text ≠ []) (hseparator : 62 ∉ text) :
    Asks .text rest (.text text)

/-- The clause begins with a verb, and the rest of it asks for the action. -/
def Means (clause : Bytes) (action : Action) : Prop :=
  ∃ verb rest, Parted clause (Verb.name verb) rest ∧ Asks platform verb rest action

end Relations

theorem payload_eq_iff {rest text : Bytes} : payload rest = text ↔ Typed rest text := by
  unfold payload
  constructor
  · rintro rfl
    cases rest with
    | nil => exact .nothing
    | cons b rest =>
      simp only [List.drop_succ_cons, List.drop_zero]
      split
      · rename_i hlast
        obtain ⟨text, rfl⟩ := List.getLast?_eq_some_iff.mp hlast
        rw [List.dropLast_concat]
        exact .shortened
      · rename_i hlast
        exact .whole hlast
  · intro h
    cases h with
    | nothing => rfl
    | whole hlast => simp [hlast]
    | shortened => simp

theorem modeOf?_eq_some_iff {s : Bytes} {mode : MoveMode} :
    modeOf? s = some mode ↔ s = mode.word := by
  constructor
  · intro h
    unfold modeOf? at h
    split at h
    · rename_i hs
      cases h
      exact hs
    · split at h
      · rename_i hs
        cases h
        exact hs
      · cases h
  · rintro rfl
    cases mode <;> decide

section Readers

variable {platform : Platform} {arg : Bytes} {action : Action}

theorem readNumber_eq_ok_iff {quantity : Quantity} {signed : Bool} {n : Int32} :
    readNumber quantity signed arg = .ok n ↔
      Numeral.Denotes arg n.toInt ∧ (signed = true ∨ 0 ≤ n) := by
  rw [← Numeral.int32?_iff_denotes]
  unfold readNumber
  cases Numeral.int32? arg with
  | none => simp
  | some m =>
    have hsign : (!signed && decide (m < 0)) = true ↔ ¬(signed = true ∨ 0 ≤ m) := by
      rw [Bool.and_eq_true, Bool.not_eq_true', decide_eq_true_iff, not_or, Bool.not_eq_true,
        Int32.not_le]
    simp only [hsign]
    constructor
    · intro h
      split at h
      · cases h
      · rename_i hm
        cases h
        exact ⟨rfl, not_not.mp hm⟩
    · rintro ⟨hm, hn⟩
      cases hm
      rw [if_neg (not_not.mpr hn)]

theorem lasts_iff {duration : Option Bytes} {d : UInt64} :
    Lasts duration d ↔ ∃ n, readDuration duration = .ok n ∧ d = n.toInt.toNat.toUInt64 := by
  constructor
  · intro h
    cases h with
    | instant => exact ⟨0, rfl, rfl⟩
    | @told arg n h hle =>
      have hn : (Int32.ofNat n).toInt = n := Int32.toInt_ofNat_of_lt (by omega)
      refine ⟨Int32.ofNat n, readNumber_eq_ok_iff.mpr ⟨?_, .inr ?_⟩, ?_⟩
      · rwa [hn]
      · rw [Int32.le_iff_toInt_le, hn]
        exact Int.natCast_nonneg n
      · rw [hn, Int.toNat_natCast]
  · rintro ⟨n, hread, rfl⟩
    cases duration with
    | none =>
      cases hread
      exact .instant
    | some arg =>
      obtain ⟨harg, hsign⟩ := readNumber_eq_ok_iff.mp hread
      have hnonneg : 0 ≤ n.toInt := by
        have h := Int32.le_iff_toInt_le.mp (hsign.resolve_left Bool.false_ne_true)
        simpa using h
      have hlt := n.toInt_lt
      refine .told ?_ (by omega)
      rwa [Int.toNat_of_nonneg hnonneg]

theorem readMove_eq_ok_iff {mode x y : Bytes} {duration : Option Bytes} :
    readMove mode x y duration = .ok action ↔
      ∃ (m : MoveMode) (x' y' n : Int32), mode = m.word ∧ Numeral.Denotes x x'.toInt ∧
        Numeral.Denotes y y'.toInt ∧ (m = .relative ∨ (0 ≤ x' ∧ 0 ≤ y')) ∧
        readDuration duration = .ok n ∧ action = .move m x' y' n.toInt.toNat.toUInt64 := by
  have hrelative : ∀ m : MoveMode, (some m == some MoveMode.relative) = true ↔ m = .relative := by
    intro m
    rw [beq_iff_eq, Option.some_inj]
  constructor
  · intro h
    unfold readMove at h
    simp only at h
    split at h
    · rename_i m x' y' n hmode hx hy hn
      cases h
      rw [hmode] at hx hy
      obtain ⟨hx, hxsign⟩ := readNumber_eq_ok_iff.mp hx
      obtain ⟨hy, hysign⟩ := readNumber_eq_ok_iff.mp hy
      rw [hrelative] at hxsign hysign
      refine ⟨m, x', y', n, modeOf?_eq_some_iff.mp hmode, hx, hy, ?_, hn, rfl⟩
      rw [or_and_left]
      exact ⟨hxsign, hysign⟩
    · cases h
  · rintro ⟨m, x', y', n, hmode, hx, hy, hsign, hn, rfl⟩
    rw [or_and_left, ← hrelative] at hsign
    have hmode := modeOf?_eq_some_iff.mpr hmode
    have hx : readNumber .xPosition (some m == some .relative) x = .ok x' :=
      readNumber_eq_ok_iff.mpr ⟨hx, hsign.1⟩
    have hy : readNumber .yPosition (some m == some .relative) y = .ok y' :=
      readNumber_eq_ok_iff.mpr ⟨hy, hsign.2⟩
    simp only [readMove, hmode, hx, hy, hn]

theorem readButton_eq_ok_iff {verb : Verb} {press : Press} :
    readButton platform verb press arg = .ok action ↔
      ∃ number : Int32, Numeral.Denotes arg number.toInt ∧ 1 ≤ number ∧ number ≤ 5 ∧
        platform.supports (Feature.ofButton number) = true ∧ action = .button press number := by
  have hfilter : ∀ number, (Numeral.int32? arg).filter (fun n => 1 ≤ n && n ≤ 5) = some number ↔
      Numeral.Denotes arg number.toInt ∧ 1 ≤ number ∧ number ≤ 5 := by
    intro number
    rw [Option.filter_eq_some_iff, Numeral.int32?_iff_denotes, Bool.and_eq_true,
      decide_eq_true_iff, decide_eq_true_iff]
  unfold readButton
  constructor
  · intro h
    split at h
    · cases h
    · rename_i number hnumber
      split at h
      · rename_i hsupported
        cases h
        obtain ⟨harg, hleast, hmost⟩ := (hfilter number).mp hnumber
        exact ⟨number, harg, hleast, hmost, hsupported, rfl⟩
      · cases h
  · rintro ⟨number, harg, hleast, hmost, hsupported, rfl⟩
    simp only [(hfilter number).mpr ⟨harg, hleast, hmost⟩, hsupported, if_true]

theorem readKey_eq_ok_iff {verb : Verb} {press : Press} :
    readKey platform verb press arg = .ok action ↔
      ∃ key ∈ Key.table, arg.lower = key.name ∧ platform.supports key.feature = true ∧
        action = .key press key.code := by
  unfold readKey
  constructor
  · intro h
    split at h
    · cases h
    · rename_i key hkey
      split at h
      · rename_i hsupported
        cases h
        obtain ⟨hkey, hname⟩ := Key.ofName?_eq_some_iff.mp hkey
        exact ⟨key, hkey, hname, hsupported, rfl⟩
      · cases h
  · rintro ⟨key, hkey, hname, hsupported, rfl⟩
    simp only [Key.ofName?_eq_some_iff.mpr ⟨hkey, hname⟩, hsupported, if_true]

theorem readRelease_eq_ok_iff :
    readRelease arg = .ok action ↔
      ∃ target : ReleaseTarget, (target = .mouse ∨ target = .key ∨ target = .both) ∧
        arg = target.name ∧ action = .release target := by
  constructor
  · intro h
    unfold readRelease at h
    split at h
    · rename_i harg
      cases h
      exact ⟨.mouse, .inl rfl, harg, rfl⟩
    · split at h
      · rename_i harg
        cases h
        exact ⟨.key, .inr (.inl rfl), harg, rfl⟩
      · split at h
        · rename_i harg
          cases h
          exact ⟨.both, .inr (.inr rfl), harg, rfl⟩
        · cases h
  · rintro ⟨target, htarget, rfl, rfl⟩
    rcases htarget with rfl | rfl | rfl <;> rfl

theorem readText_eq_ok_iff {text : Bytes} :
    readText text = .ok action ↔ text ≠ [] ∧ 62 ∉ text ∧ action = .text text := by
  unfold readText
  constructor
  · intro h
    split at h
    · cases h
    · rename_i hne
      split at h
      · cases h
      · rename_i hseparator
        cases h
        exact ⟨hne, by simpa using hseparator, rfl⟩
  · rintro ⟨hne, hseparator, rfl⟩
    simp [hne, hseparator]

theorem withArgument_eq_ok_iff {verb : Verb} {read : Bytes → Reading} {args : List Bytes} :
    withArgument verb read args = .ok action ↔ ∃ arg, args = [arg] ∧ read arg = .ok action := by
  unfold withArgument
  constructor
  · intro h
    split at h
    · rename_i arg
      exact ⟨arg, rfl, h⟩
    · unfold rejectCount at h
      split at h <;> cases h
  · rintro ⟨arg, rfl, h⟩
    exact h

theorem withMove_eq_ok_iff {args : List Bytes} :
    withMove args = .ok action ↔
      ∃ mode x y duration, args = [mode, x, y] ++ Option.toList duration ∧
        readMove mode x y duration = .ok action := by
  unfold withMove
  constructor
  · intro h
    split at h
    · rename_i mode x y
      exact ⟨mode, x, y, none, rfl, h⟩
    · rename_i mode x y duration
      exact ⟨mode, x, y, some duration, rfl, h⟩
    · unfold rejectCount at h
      split at h <;> cases h
  · rintro ⟨mode, x, y, duration, rfl, h⟩
    cases duration with
    | none => exact h
    | some duration => exact h

theorem asks_of_readVerb {verb : Verb} {rest : Bytes}
    (h : readVerb platform verb rest = .ok action) : Asks platform verb rest action := by
  unfold readVerb at h
  cases verb with
  | mousemove =>
    obtain ⟨mode, x, y, duration, hargs, hmove⟩ := withMove_eq_ok_iff.mp h
    obtain ⟨m, x', y', n, rfl, hx, hy, hsign, hn, rfl⟩ := readMove_eq_ok_iff.mp hmove
    exact .move (Bytes.wordsBy_eq_iff.mp hargs) hx hy hsign (lasts_iff.mpr ⟨n, hn, rfl⟩)
  | mousedown =>
    obtain ⟨arg, hargs, hbutton⟩ := withArgument_eq_ok_iff.mp h
    obtain ⟨number, harg, hleast, hmost, hsupported, rfl⟩ := readButton_eq_ok_iff.mp hbutton
    change Asks platform (Press.buttonVerb .down) rest _
    exact .button (Bytes.wordsBy_eq_iff.mp hargs) harg hleast hmost hsupported
  | mouseup =>
    obtain ⟨arg, hargs, hbutton⟩ := withArgument_eq_ok_iff.mp h
    obtain ⟨number, harg, hleast, hmost, hsupported, rfl⟩ := readButton_eq_ok_iff.mp hbutton
    change Asks platform (Press.buttonVerb .up) rest _
    exact .button (Bytes.wordsBy_eq_iff.mp hargs) harg hleast hmost hsupported
  | keydown =>
    obtain ⟨arg, hargs, hread⟩ := withArgument_eq_ok_iff.mp h
    obtain ⟨key, hkey, harg, hsupported, rfl⟩ := readKey_eq_ok_iff.mp hread
    change Asks platform (Press.keyVerb .down) rest _
    exact .key (Bytes.wordsBy_eq_iff.mp hargs) hkey harg hsupported
  | keyup =>
    obtain ⟨arg, hargs, hread⟩ := withArgument_eq_ok_iff.mp h
    obtain ⟨key, hkey, harg, hsupported, rfl⟩ := readKey_eq_ok_iff.mp hread
    change Asks platform (Press.keyVerb .up) rest _
    exact .key (Bytes.wordsBy_eq_iff.mp hargs) hkey harg hsupported
  | release =>
    obtain ⟨arg, hargs, hread⟩ := withArgument_eq_ok_iff.mp h
    obtain ⟨target, htarget, rfl, rfl⟩ := readRelease_eq_ok_iff.mp hread
    exact .release (Bytes.wordsBy_eq_iff.mp hargs) htarget
  | text =>
    obtain ⟨hne, hseparator, rfl⟩ := readText_eq_ok_iff.mp h
    exact .text (payload_eq_iff.mp rfl) hne hseparator

theorem readVerb_of_asks {verb : Verb} {rest : Bytes} (h : Asks platform verb rest action) :
    readVerb platform verb rest = .ok action := by
  unfold readVerb
  cases h with
  | move hwords hx hy hsign hduration =>
    obtain ⟨n, hn, rfl⟩ := lasts_iff.mp hduration
    apply withMove_eq_ok_iff.mpr
    exact ⟨_, _, _, _, Bytes.wordsBy_eq_iff.mpr hwords,
      readMove_eq_ok_iff.mpr ⟨_, _, _, n, rfl, hx, hy, hsign, hn, rfl⟩⟩
  | @button press number _ arg hwords harg hleast hmost hsupported =>
    have hargs := Bytes.wordsBy_eq_iff.mpr hwords
    have hread : ∀ verb, readButton platform verb press arg = .ok (.button press number) :=
      fun _ => readButton_eq_ok_iff.mpr ⟨number, harg, hleast, hmost, hsupported, rfl⟩
    cases press <;> exact withArgument_eq_ok_iff.mpr ⟨arg, hargs, hread _⟩
  | @key press key _ arg hwords hkey harg hsupported =>
    have hargs := Bytes.wordsBy_eq_iff.mpr hwords
    have hread : ∀ verb, readKey platform verb press arg = .ok (.key press key.code) :=
      fun _ => readKey_eq_ok_iff.mpr ⟨key, hkey, harg, hsupported, rfl⟩
    cases press <;> exact withArgument_eq_ok_iff.mpr ⟨arg, hargs, hread _⟩
  | release hwords htarget =>
    apply withArgument_eq_ok_iff.mpr
    exact ⟨_, Bytes.wordsBy_eq_iff.mpr hwords,
      readRelease_eq_ok_iff.mpr ⟨_, htarget, rfl, rfl⟩⟩
  | text htext hne hseparator =>
    rw [payload_eq_iff.mpr htext]
    exact readText_eq_ok_iff.mpr ⟨hne, hseparator, rfl⟩

end Readers

section Parts

variable (platform : Platform) {clause : Bytes}

theorem read?_eq_none_iff : read? platform clause = none ↔ clause.trim = [] := by
  unfold read?
  split <;> simp_all

/-- A clause that is not blank has a first word. -/
theorem parted_of_trim_ne_nil (h : clause.trim ≠ []) {kept : Bytes}
    (hkept : clause.dropWhile isSpaceOrTab = kept) :
    Parted clause (kept.takeWhile (!isSpaceOrTab ·)) (kept.dropWhile (!isSpaceOrTab ·)) := by
  have hclause : clause.takeWhile isSpaceOrTab ++
      (kept.takeWhile (!isSpaceOrTab ·) ++ kept.dropWhile (!isSpaceOrTab ·)) = clause := by
    rw [List.takeWhile_append_dropWhile, ← hkept, List.takeWhile_append_dropWhile]
  have hne : kept.takeWhile (!isSpaceOrTab ·) ≠ [] := by
    cases kept with
    | nil =>
      -- spaces and tabs are blank
      have hspaces := List.dropWhile_eq_nil_iff.mp hkept
      have hblank : ∀ b, isSpaceOrTab b = true → Bytes.isBlank b = true := by
        intro b hb
        rcases Bool.or_eq_true_iff.mp hb with hb | hb
        · rw [beq_iff_eq.mp hb]
          rfl
        · rw [beq_iff_eq.mp hb]
          rfl
      exact absurd (Bytes.trim_eq_nil_iff.mpr fun b hb => hblank b (hspaces b hb)) h
    | cons b rest =>
      have hb : isSpaceOrTab b = false := Bytes.head?_dropWhile (s := clause) (by simp [hkept])
      rw [List.takeWhile_cons_of_pos (by simp [hb])]
      exact List.cons_ne_nil _ _
  rw [← hclause]
  refine .intro (fun b hb => List.mem_takeWhile_imp hb) hne (fun b hb => ?_) fun b hb => ?_
  · simpa using List.mem_takeWhile_imp hb
  · simpa using Bytes.head?_dropWhile hb

theorem read?_of_parted {word rest : Bytes} (h : Parted clause word rest)
    (htrim : clause.trim ≠ []) :
    read? platform clause =
      some ((Verb.ofName? word).elim (reject (.unknownVerb word)) fun verb =>
        readVerb platform verb rest) := by
  obtain ⟨hlead, hne, hword, hrest⟩ := h
  rename_i lead
  have hword' : ∀ b ∈ word, (!isSpaceOrTab b) = true := by
    intro b hb
    rw [hword b hb]
    rfl
  have hrest' : ∀ b ∈ rest.head?, (!isSpaceOrTab b) = false := by
    intro b hb
    rw [hrest b hb]
    rfl
  have hhead : ∀ b ∈ (word ++ rest).head?, isSpaceOrTab b = false := by
    intro b hb
    rw [List.head?_append_of_ne_nil word hne] at hb
    exact hword b (List.mem_of_head? hb)
  obtain ⟨-, hkept⟩ := Bytes.span_append hlead hhead
  obtain ⟨htake, hdrop⟩ := Bytes.span_append hword' hrest'
  simp only [read?, htrim, if_false, hkept, htake, hdrop]
  cases Verb.ofName? word <;> rfl

theorem read?_of_verb {verb : Verb} {rest : Bytes} (h : Parted clause verb.name rest) :
    read? platform clause = some (readVerb platform verb rest) := by
  have htrim : clause.trim ≠ [] := by
    obtain ⟨b, hb, hblank⟩ : ∃ b ∈ verb.name, Bytes.isBlank b = false := by
      cases verb <;> exact ⟨_, List.mem_cons_self, by decide⟩
    cases h
    intro hnil
    have := Bytes.trim_eq_nil_iff.mp hnil b (by simp [hb])
    rw [hblank] at this
    cases this
  rw [read?_of_parted platform h htrim, Verb.ofName?_eq_some_iff.mpr rfl, Option.elim_some]

/-- A clause is read as an action exactly if it asks for it. -/
theorem read?_eq_ok_iff {action : Action} :
    read? platform clause = some (.ok action) ↔ Means platform clause action := by
  constructor
  · intro h
    have htrim : clause.trim ≠ [] := by
      intro hnil
      rw [(read?_eq_none_iff platform).mpr hnil] at h
      cases h
    have hparted := parted_of_trim_ne_nil htrim rfl
    rw [read?_of_parted platform hparted htrim] at h
    cases hverb : Verb.ofName? (List.takeWhile (!isSpaceOrTab ·)
      (clause.dropWhile isSpaceOrTab)) with
    | none =>
      rw [hverb] at h
      cases h
    | some verb =>
      rw [hverb] at h
      rw [Verb.ofName?_eq_some_iff.mp hverb] at hparted
      exact ⟨verb, _, hparted, asks_of_readVerb (Option.some.inj h)⟩
  · rintro ⟨verb, rest, hparted, hasks⟩
    rw [read?_of_verb platform hparted, readVerb_of_asks hasks]

end Parts

end Clause

end TimedInput
