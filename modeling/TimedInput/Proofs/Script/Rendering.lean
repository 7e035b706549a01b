import TimedInput.Proofs.Script.Comments
import TimedInput.Proofs.Script.Grammar
import TimedInput.Script.Compilation

/-!
# Rendering of scripts

How a script is written down, line by line and action by action, and which actions can be
written down for a platform. Each clause that is written is read as the action that it was
written for. In all that is written no comment begins.
-/

namespace TimedInput

/-- A line of a script before it is written down. -/
structure ScriptLine where
  timestamp : Timestamp
  actions : List Action

/-- A space in front of each word. -/
def spaced (words : List Bytes) : Bytes :=
  words.flatMap (32 :: ·)

/-- The name by which a script can press the key. The semicolon itself would end the clause. -/
def KeyCode.sourceName (code : KeyCode) : Bytes :=
  if code = ⟨59⟩ then ascii "semicolon" else code.name

namespace Action

/-- The arguments of a move. A brief one leaves out a duration of zero. -/
def moveWords (brief : Bool) (mode : MoveMode) (x y : Int32) (duration : UInt64) : List Bytes :=
  [mode.word, Numeral.ofInt x.toInt, Numeral.ofInt y.toInt] ++
    if brief && duration == 0 then [] else [Numeral.ofNat duration.toNat]

/-- The clause for an action. -/
def source (brief : Bool) : Action → Bytes
  | .unknown => []
  | .move mode x y duration =>
    Verb.mousemove.name ++ spaced (moveWords brief mode x y duration)
  | .button press number => press.buttonVerb.name ++ spaced [Numeral.ofInt number.toInt]
  | .key press code => press.keyVerb.name ++ spaced [code.sourceName]
  | .release target => Verb.release.name ++ spaced [target.name]
  | .text payload => Verb.text.name ++ 32 :: payload

/-- The actions that a script for the platform can ask for. A text holds no separator and does not
begin a comment, and a carriage return at its end would be taken for the end of the line. -/
def Admissible (platform : Platform) : Action → Prop
  | .unknown => False
  | .move .relative _ _ duration => duration.toNat ≤ 2147483647
  | .move .absolute x y duration => 0 ≤ x ∧ 0 ≤ y ∧ duration.toNat ≤ 2147483647
  | .button _ number =>
    1 ≤ number ∧ number ≤ 5 ∧ platform.supports (Feature.ofButton number) = true
  | .key _ code => ∃ key ∈ Key.table, key.code = code ∧ platform.supports key.feature = true
  | .release target => target = .mouse ∨ target = .key ∨ target = .both
  | .text payload =>
    payload ≠ [] ∧ 59 ∉ payload ∧ 62 ∉ payload ∧ 10 ∉ payload ∧
      ¬ascii "//" <:+: payload ∧ ¬ascii "/*" <:+: payload ∧ payload.getLast? ≠ some 13

end Action

def Timestamp.source : Timestamp → Bytes
  | .absolute ms => Numeral.ofNat ms.toNat
  | .relative ms => 43 :: Numeral.ofNat ms.toNat

def ScriptLine.source (brief : Bool) (line : ScriptLine) : Bytes :=
  line.timestamp.source ++ 62 :: line.actions.flatMap fun action => action.source brief ++ [59]

/-- The whole script, with a line feed between any two lines. -/
def render (brief : Bool) (lines : List ScriptLine) : Bytes :=
  Bytes.join [Comment.newline] (lines.map (ScriptLine.source brief))

/-- The bytes of the words that a clause is made of. -/
def isWordByte (b : UInt8) : Bool :=
  32 < b && b != 59 && b != 62

structure IsWord (word : Bytes) : Prop where
  ne_nil : word ≠ []
  bytes : ∀ b ∈ word, isWordByte b = true
  unopened : Unopened word

theorem IsWord.of_all {word : Bytes} (hne : word ≠ []) (hbytes : word.all isWordByte = true)
    (hslash : 47 ∉ word) : IsWord word :=
  ⟨hne, List.all_eq_true.mp hbytes, .of_not_mem hslash⟩

theorem not_isArgumentBlank {b : UInt8} (h : isWordByte b = true) :
    Clause.isArgumentBlank b = false := by
  by_contra hblank
  simp only [Clause.isArgumentBlank, Bool.not_eq_false, Bool.or_eq_true, beq_iff_eq] at hblank
  rcases hblank with ((rfl | rfl) | rfl) | rfl <;> cases h

theorem isWordByte_of_isDigit {b : UInt8} (h : Numeral.isDigit b = true) :
    isWordByte b = true := by
  simp only [Numeral.isDigit, Bool.and_eq_true, decide_eq_true_eq, UInt8.le_iff_toNat_le] at h
  have hle : 48 ≤ b.toNat ∧ b.toNat ≤ 57 := h
  simp only [isWordByte, Bool.and_eq_true, decide_eq_true_eq, bne_iff_ne, UInt8.lt_iff_toNat_lt]
  refine ⟨⟨?_, ?_⟩, ?_⟩
  · change 32 < b.toNat
    omega
  · rintro rfl
    exact absurd hle.2 (by decide)
  · rintro rfl
    exact absurd hle.2 (by decide)

theorem isWord_ofNat (n : Nat) : IsWord (Numeral.ofNat n) where
  ne_nil := Numeral.ofNat_ne_nil n
  bytes _ hb := isWordByte_of_isDigit (Numeral.isDigit_of_mem_ofNat hb)
  unopened := by
    apply Unopened.of_not_mem
    intro hslash
    cases Numeral.isDigit_of_mem_ofNat hslash

theorem IsWord.cons {word : Bytes} (h : IsWord word) {b : UInt8} (hb : isWordByte b = true)
    (hslash : b ≠ 47) : IsWord (b :: word) where
  ne_nil := List.cons_ne_nil b word
  bytes c hc := by
    rcases List.mem_cons.mp hc with rfl | hc
    · exact hb
    · exact h.bytes c hc
  unopened := by
    have hsingle : Unopened [b] := .of_not_mem (by simpa using hslash.symm)
    exact hsingle.append h.unopened (by simpa using hslash)

theorem isWord_ofInt (i : Int) : IsWord (Numeral.ofInt i) := by
  cases i with
  | ofNat n => exact isWord_ofNat n
  | negSucc n => exact (isWord_ofNat (n + 1)).cons rfl (by decide)

/-- Every key can be pressed by the name that is written for it. -/
theorem sourceName_spec : ∀ key ∈ Key.table,
    (Key.ofName? key.code.sourceName).map (fun found => (found.code, found.feature)) =
      some (key.code, key.feature) ∧
    (key.code.sourceName ≠ [] ∧ key.code.sourceName.all isWordByte = true) ∧
    (key.code.sourceName = [47] ∨ 47 ∉ key.code.sourceName) := by
  decide +kernel

theorem isWord_sourceName {key : Key} (h : key ∈ Key.table) : IsWord key.code.sourceName := by
  obtain ⟨-, ⟨hne, hbytes⟩, hslash | hslash⟩ := sourceName_spec key h
  · refine ⟨hne, List.all_eq_true.mp hbytes, ?_⟩
    rw [hslash]
    exact .singleton 47
  · exact .of_all hne hbytes hslash

theorem ofName?_sourceName {key : Key} (h : key ∈ Key.table) :
    ∃ found, Key.ofName? key.code.sourceName = some found ∧ found.code = key.code ∧
      found.feature = key.feature := by
  obtain ⟨found, hfound, heq⟩ := Option.map_eq_some_iff.mp (sourceName_spec key h).1
  exact ⟨found, hfound, congrArg Prod.fst heq, congrArg Prod.snd heq⟩

theorem isWord_mode (mode : MoveMode) : IsWord mode.word := by
  cases mode <;> exact .of_all (by decide) (by decide) (by decide)

theorem isWord_moveWords (brief : Bool) (mode : MoveMode) (x y : Int32) (duration : UInt64) :
    ∀ word ∈ Action.moveWords brief mode x y duration, IsWord word := by
  intro word hword
  rcases List.mem_append.mp hword with hword | hword
  · have hwords : ∀ word ∈ [mode.word, Numeral.ofInt x.toInt, Numeral.ofInt y.toInt],
        IsWord word := by
      simpa using ⟨isWord_mode mode, isWord_ofInt _, isWord_ofInt _⟩
    exact hwords word hword
  · split at hword
    · cases hword
    · rw [List.mem_singleton.mp hword]
      exact isWord_ofNat _

theorem isWord_target {target : ReleaseTarget}
    (h : target = .mouse ∨ target = .key ∨ target = .both) : IsWord target.name := by
  rcases h with rfl | rfl | rfl <;> exact .of_all (by decide) (by decide) (by decide)

namespace Clause

/-- A verb with a space behind it is found. -/
theorem read?_verb (platform : Platform) (verb : Verb) (rest : Bytes) :
    read? platform (verb.name ++ 32 :: rest) = some (readVerb platform verb (32 :: rest)) := by
  have hall : verb.name.all (!isSpaceOrTab ·) = true := by cases verb <;> decide
  have hname : ∀ b ∈ verb.name, isSpaceOrTab b = false := by
    intro b hb
    simpa using List.all_eq_true.mp hall b hb
  have hne : verb.name ≠ [] := by cases verb <;> exact List.cons_ne_nil _ _
  have hparted : Parted ([] ++ (verb.name ++ 32 :: rest)) verb.name (32 :: rest) :=
    .intro nofun hne hname (by simp [isSpaceOrTab])
  exact read?_of_verb platform hparted

theorem wordsBy_spaced {words : List Bytes} (h : ∀ word ∈ words, IsWord word) :
    (spaced words).wordsBy isArgumentBlank = words := by
  apply Bytes.wordsBy_flatMap_cons rfl
  intro word hword
  exact ⟨(h word hword).ne_nil, fun b hb => not_isArgumentBlank ((h word hword).bytes b hb)⟩

theorem read?_spaced (platform : Platform) (verb : Verb) {words : List Bytes} (hne : words ≠ []) :
    read? platform (verb.name ++ spaced words) =
      some (readVerb platform verb (spaced words)) := by
  cases words with
  | nil => exact absurd rfl hne
  | cons word words => exact read?_verb platform verb (word ++ spaced words)

theorem readDuration_ofNat {duration : UInt64} (h : duration.toNat ≤ 2147483647) :
    ∃ n, readDuration (some (Numeral.ofNat duration.toNat)) = .ok n ∧
      n.toInt.toNat.toUInt64 = duration := by
  obtain ⟨n, hread, hn⟩ := lasts_iff.mp (.told (Numeral.denotes_ofNat duration.toNat) h)
  refine ⟨n, hread, hn.symm.trans ?_⟩
  simp

/-- A move is read as it was written, with its duration or without. -/
theorem readMove_word {mode : MoveMode} {x y n : Int32} {duration : Option Bytes}
    (hx : mode = .relative ∨ 0 ≤ x) (hy : mode = .relative ∨ 0 ≤ y)
    (hduration : readDuration duration = .ok n) :
    readMove mode.word (Numeral.ofInt x.toInt) (Numeral.ofInt y.toInt) duration =
      .ok (.move mode x y n.toInt.toNat.toUInt64) := by
  apply readMove_eq_ok_iff.mpr
  exact ⟨mode, x, y, n, rfl, Numeral.denotes_ofInt _, Numeral.denotes_ofInt _,
    or_and_left.mpr ⟨hx, hy⟩, hduration, rfl⟩

theorem readButton_ofInt {platform : Platform} {number : Int32} (verb : Verb) (press : Press)
    (hleast : 1 ≤ number) (hmost : number ≤ 5)
    (hsupported : platform.supports (Feature.ofButton number) = true) :
    readButton platform verb press (Numeral.ofInt number.toInt) = .ok (.button press number) :=
  readButton_eq_ok_iff.mpr ⟨number, Numeral.denotes_ofInt _, hleast, hmost, hsupported, rfl⟩

theorem readKey_sourceName {platform : Platform} {key : Key} (verb : Verb) (press : Press)
    (hkey : key ∈ Key.table) (hsupported : platform.supports key.feature = true) :
    readKey platform verb press key.code.sourceName = .ok (.key press key.code) := by
  obtain ⟨found, hfound, hcode, hfeature⟩ := ofName?_sourceName hkey
  simp [readKey, hfound, hcode, hfeature, hsupported]

theorem readRelease_name {target : ReleaseTarget}
    (h : target = .mouse ∨ target = .key ∨ target = .both) :
    readRelease target.name = .ok (.release target) :=
  readRelease_eq_ok_iff.mpr ⟨target, h, rfl, rfl⟩

theorem payload_cons {text : Bytes} (b : UInt8) (hlast : text.getLast? ≠ some 13) :
    payload (b :: text) = text :=
  payload_eq_iff.mpr (.whole hlast)

theorem read?_move {platform : Platform} (brief : Bool) {mode : MoveMode} {x y : Int32}
    {duration : UInt64} (hx : mode = .relative ∨ 0 ≤ x) (hy : mode = .relative ∨ 0 ≤ y)
    (hduration : duration.toNat ≤ 2147483647) :
    read? platform ((Action.move mode x y duration).source brief) =
      some (.ok (.move mode x y duration)) := by
  have hwords := isWord_moveWords brief mode x y duration
  have hne : Action.moveWords brief mode x y duration ≠ [] := List.cons_ne_nil _ _
  rw [Action.source, read?_spaced _ _ hne, readVerb, wordsBy_spaced hwords, Action.moveWords]
  by_cases hbrief : (brief && duration == 0) = true
  · -- a move without a duration has the duration zero
    obtain ⟨-, hzero⟩ := Bool.and_eq_true_iff.mp hbrief
    obtain rfl : duration = 0 := by simpa using hzero
    rw [if_pos hbrief]
    change some (readMove _ _ _ _) = _
    rw [readMove_word hx hy (rfl : readDuration none = .ok 0)]
    rfl
  · obtain ⟨n, hread, hn⟩ := readDuration_ofNat hduration
    rw [if_neg hbrief]
    change some (readMove _ _ _ _) = _
    rw [readMove_word hx hy hread, hn]

/-- Each clause that is written is read as the action that it was written for. -/
theorem read?_source {platform : Platform} (brief : Bool) {action : Action}
    (h : action.Admissible platform) :
    read? platform (action.source brief) = some (.ok action) := by
  cases action with
  | unknown => exact h.elim
  | move mode x y duration =>
    cases mode with
    | absolute => exact read?_move brief (.inr h.1) (.inr h.2.1) h.2.2
    | relative => exact read?_move brief (.inl rfl) (.inl rfl) h
  | button press number =>
    obtain ⟨hleast, hmost, hsupported⟩ := h
    have hwords : ∀ word ∈ [Numeral.ofInt number.toInt], IsWord word := by
      simpa using isWord_ofInt _
    rw [Action.source, read?_spaced _ _ (List.cons_ne_nil _ _)]
    cases press with
    | down =>
      simp only [Press.buttonVerb, readVerb, wordsBy_spaced hwords, withArgument]
      rw [readButton_ofInt _ _ hleast hmost hsupported]
    | up =>
      simp only [Press.buttonVerb, readVerb, wordsBy_spaced hwords, withArgument]
      rw [readButton_ofInt _ _ hleast hmost hsupported]
  | key press code =>
    obtain ⟨key, hkey, rfl, hsupported⟩ := h
    have hwords : ∀ word ∈ [key.code.sourceName], IsWord word := by
      simpa using isWord_sourceName hkey
    rw [Action.source, read?_spaced _ _ (List.cons_ne_nil _ _)]
    cases press with
    | down =>
      simp only [Press.keyVerb, readVerb, wordsBy_spaced hwords, withArgument]
      rw [readKey_sourceName _ _ hkey hsupported]
    | up =>
      simp only [Press.keyVerb, readVerb, wordsBy_spaced hwords, withArgument]
      rw [readKey_sourceName _ _ hkey hsupported]
  | release target =>
    have hwords : ∀ word ∈ [target.name], IsWord word := by
      simpa using isWord_target h
    rw [Action.source, read?_spaced _ _ (List.cons_ne_nil _ _)]
    simp only [readVerb, wordsBy_spaced hwords, withArgument, readRelease_name h]
  | text payload =>
    obtain ⟨hne, -, hseparator, -, -, -, hlast⟩ := h
    have hread : readText payload = .ok (.text payload) := by
      simp [readText, hne, hseparator]
    rw [Action.source, read?_verb]
    simp only [readVerb, payload_cons 32 hlast, hread]

end Clause

end TimedInput
