import Mathlib.Data.List.Nodup
import TimedInput.Proofs.Text.Decimal
import TimedInput.Proofs.Text.Splitting
import TimedInput.Script.Action

/-!
# What an action is called

The text of an action tells which action it is. Its first word tells the kind of the action, and
what follows tells the rest: numbers in decimal, with spaces between them, a text in quotes, and a
key by its name in the table, or by its code, which no key has for a name.
-/

namespace TimedInput

theorem Numeral.space_not_mem_ofInt (i : Int) : 32 ∉ ofInt i :=
  not_mem_ofInt rfl (by decide) i

namespace Key

/-- Some keys have one code under two names, but no name stands for two keys. -/
theorem eq_of_name_eq {k l : Key} (hk : k ∈ table) (hl : l ∈ table) (h : k.name = l.name) :
    k = l :=
  List.inj_on_of_nodup_map (by decide +kernel) hk hl h

theorem not_hexadecimal {key : Key} (h : key ∈ table) (code : Bytes) :
    key.name ≠ ascii "0x" ++ code := by
  have hnames : ∀ key ∈ table, ¬ascii "0x" <+: key.name := by decide +kernel
  intro heq
  apply hnames key h
  rw [heq]
  exact List.prefix_append _ _

theorem ofCode?_spec {code : KeyCode} {key : Key} (h : ofCode? code = some key) :
    key ∈ table ∧ key.code = code := by
  have hcode := List.find?_some h
  exact ⟨List.mem_of_find?_eq_some h, beq_iff_eq.mp hcode⟩

end Key

theorem KeyCode.name_inj {c d : KeyCode} (h : c.name = d.name) : c = d := by
  unfold name at h
  cases hc : Key.ofCode? c with
  | some k =>
    obtain ⟨hk, rfl⟩ := Key.ofCode?_spec hc
    rw [hc] at h
    cases hd : Key.ofCode? d with
    | some l =>
      obtain ⟨hl, rfl⟩ := Key.ofCode?_spec hd
      rw [hd] at h
      rw [Key.eq_of_name_eq hk hl h]
    | none =>
      rw [hd] at h
      exact absurd h (Key.not_hexadecimal hk _)
  | none =>
    rw [hc] at h
    cases hd : Key.ofCode? d with
    | some l =>
      rw [hd] at h
      exact absurd h.symm (Key.not_hexadecimal (Key.ofCode?_spec hd).1 _)
    | none =>
      rw [hd] at h
      have hword := UInt32.toNat_inj.mp (Numeral.inBase_inj (Nat.le_refl 14)
        (List.append_cancel_left h))
      have hvalue := congrArg UInt32.toInt32 hword
      rw [Int32.toInt32_toUInt32, Int32.toInt32_toUInt32] at hvalue
      exact congrArg KeyCode.mk hvalue

/-- One of the targets that a script can name. -/
def ReleaseTarget.IsNamed (target : ReleaseTarget) : Prop :=
  target = .mouse ∨ target = .key ∨ target = .both

theorem ReleaseTarget.name_inj {s t : ReleaseTarget} (hs : s.IsNamed) (ht : t.IsNamed)
    (h : s.name = t.name) : s = t := by
  have hnames : ∀ s ∈ [mouse, key, both], ∀ t ∈ [mouse, key, both], s.name = t.name → s = t := by
    decide
  exact hnames s (by simpa [IsNamed] using hs) t (by simpa [IsNamed] using ht) h

namespace Action

/-- What an action does, without what it does it to. -/
inductive Kind where
  | unknown
  | move (mode : MoveMode)
  | button (press : Press)
  | key (press : Press)
  | release
  | text
  deriving DecidableEq

namespace Kind

def all : List Kind :=
  [.unknown, .move .absolute, .move .relative, .button .down, .button .up, .key .down, .key .up,
    .release, .text]

/-- The first word of the text. -/
def word : Kind → Bytes
  | .unknown => []
  | .move mode => moveWord mode
  | .button press => ascii "Mouse" ++ pressWord press
  | .key press => ascii "Key" ++ pressWord press
  | .release => ascii "Release"
  | .text => ascii "Text"

theorem mem_all (kind : Kind) : kind ∈ all := by
  cases kind with
  | move mode => cases mode <;> decide
  | button press => cases press <;> decide
  | key press => cases press <;> decide
  | _ => decide

theorem word_inj {k l : Kind} (h : k.word = l.word) : k = l := by
  have hwords : ∀ k ∈ all, ∀ l ∈ all, k.word = l.word → k = l := by decide
  exact hwords k k.mem_all l l.mem_all h

theorem space_not_mem_word (kind : Kind) : 32 ∉ kind.word := by
  have hwords : ∀ kind ∈ all, 32 ∉ kind.word := by decide
  exact hwords kind kind.mem_all

end Kind

def kind : Action → Kind
  | .unknown => .unknown
  | .move mode _ _ _ => .move mode
  | .button press _ => .button press
  | .key press _ => .key press
  | .release _ => .release
  | .text _ => .text

/-- What follows the first word. -/
def details : Action → Bytes
  | .unknown => []
  | .move _ x y duration =>
    Numeral.ofInt x.toInt ++ 32 :: (Numeral.ofInt y.toInt ++ 32 :: Numeral.ofNat duration.toNat)
  | .button _ number => Numeral.ofInt number.toInt
  | .key _ code => code.name
  | .release target => target.name
  | .text payload => ascii "\"" ++ payload ++ ascii "\""

theorem describe_eq {a : Action} (h : a ≠ .unknown) :
    a.describe = a.kind.word ++ 32 :: a.details := by
  have hspace : ascii " " = [32] := rfl
  cases a with
  | unknown => exact absurd rfl h
  | move mode x y duration => simp [describe, kind, Kind.word, details, hspace]
  | button press number => simp [describe, kind, Kind.word, details, hspace]
  | key press code => simp [describe, kind, Kind.word, details, hspace]
  | release target => rfl
  | text payload => rfl

theorem kind_and_details_of_describe {a b : Action} (h : a.describe = b.describe) :
    a.kind = b.kind ∧ a.details = b.details := by
  by_cases ha : a = .unknown
  · by_cases hb : b = .unknown
    · rw [ha, hb]
      exact ⟨rfl, rfl⟩
    · rw [ha, describe_eq hb] at h
      exact absurd h.symm (by simp [describe])
  · by_cases hb : b = .unknown
    · rw [hb, describe_eq ha] at h
      exact absurd h (by simp [describe])
    · rw [describe_eq ha, describe_eq hb] at h
      obtain ⟨hword, hdetails⟩ :=
        Bytes.append_cons_inj (Kind.space_not_mem_word _) (Kind.space_not_mem_word _) h
      exact ⟨Kind.word_inj hword, hdetails⟩

/-- If the action releases something, then it has a target that a script can name. -/
def HasNamedTarget (action : Action) : Prop :=
  ∀ target, action = .release target → target.IsNamed

theorem eq_of_kind_of_details {a b : Action} (ha : a.HasNamedTarget) (hb : b.HasNamedTarget)
    (hkind : a.kind = b.kind) (hdetails : a.details = b.details) : a = b := by
  cases a with
  | unknown =>
    cases b with
    | unknown => rfl
    | _ => cases hkind
  | move mode x y duration =>
    cases b with
    | move mode' x' y' duration' =>
      obtain rfl := Kind.move.inj hkind
      obtain ⟨hx, hrest⟩ := Bytes.append_cons_inj (Numeral.space_not_mem_ofInt _)
        (Numeral.space_not_mem_ofInt _) hdetails
      obtain ⟨hy, hduration⟩ := Bytes.append_cons_inj (Numeral.space_not_mem_ofInt _)
        (Numeral.space_not_mem_ofInt _) hrest
      rw [Int32.toInt_inj.mp (Numeral.ofInt_inj hx), Int32.toInt_inj.mp (Numeral.ofInt_inj hy),
        UInt64.toNat_inj.mp (Numeral.ofNat_inj hduration)]
    | _ => cases hkind
  | button press number =>
    cases b with
    | button press' number' =>
      obtain rfl := Kind.button.inj hkind
      rw [Int32.toInt_inj.mp (Numeral.ofInt_inj hdetails)]
    | _ => cases hkind
  | key press code =>
    cases b with
    | key press' code' =>
      obtain rfl := Kind.key.inj hkind
      rw [KeyCode.name_inj hdetails]
    | _ => cases hkind
  | release target =>
    cases b with
    | release target' => rw [ReleaseTarget.name_inj (ha target rfl) (hb target' rfl) hdetails]
    | _ => cases hkind
  | text payload =>
    cases b with
    | text payload' =>
      have hquoted : payload ++ ascii "\"" = payload' ++ ascii "\"" := (List.cons.inj hdetails).2
      rw [List.append_cancel_right hquoted]
    | _ => cases hkind

/-- Two actions are the same exactly if they have the same text, whatever their numbers, keys and
payloads are, as long as the targets of their releases have names. -/
theorem describe_identifies {a b : Action} (ha : a.HasNamedTarget) (hb : b.HasNamedTarget) :
    (a == b) = true ↔ a.describe = b.describe := by
  rw [beq_iff_eq]
  constructor
  · rintro rfl
    rfl
  · intro h
    obtain ⟨hkind, hdetails⟩ := kind_and_details_of_describe h
    exact eq_of_kind_of_details ha hb hkind hdetails

/-- Releases of the keys, and of the keys and the buttons, are different, and so are their texts. -/
theorem describe_identifies_targets :
    let a : Action := .release .key
    let b : Action := .release .both
    a.HasNamedTarget ∧ b.HasNamedTarget ∧ ((a == b) = true ↔ a.describe = b.describe) ∧
      a.describe ≠ b.describe := by
  intro a b
  have ha : a.HasNamedTarget := fun target heq => .inr (.inl (release.inj heq).symm)
  have hb : b.HasNamedTarget := fun target heq => .inr (.inr (release.inj heq).symm)
  refine ⟨ha, hb, describe_identifies ha hb, ?_⟩
  exact fun h => absurd ((describe_identifies ha hb).mpr h) (by decide)

/-- A target without a name has the text of another one. -/
example : (release ⟨0⟩).describe = (release .both).describe := by decide

end Action

end TimedInput
