import TimedInput.Playback.Call
import TimedInput.Proofs.Script.Descriptions

/-!
# What a failure is called

The reason of a failure tells which call has failed: its name stands before the first parenthesis,
and after it what it was called with. Numbers are in decimal, keys have their names, and a character
is a number in hexadecimal, which is read back whatever the zeros in front of it.
-/

namespace TimedInput

namespace Numeral

/-- The number that figures with capital letters denote in base 16. -/
def hexValue (figures : Bytes) : Nat :=
  figures.foldl (fun n b => 16 * n + if b < 65 then b.toNat - 48 else b.toNat - 55) 0

theorem hexValue_snoc {d : Nat} (h : d < 16) (figures : Bytes) :
    hexValue (figures ++ [figure 65 d]) = 16 * hexValue figures + d := by
  have hfigure : ∀ d < 16, (if figure 65 d < 65 then (figure 65 d).toNat - 48
      else (figure 65 d).toNat - 55) = d := by decide
  simp only [hexValue, List.foldl_append, List.foldl_cons, List.foldl_nil, hfigure d h]

theorem hexValue_upperHex (n : Nat) : hexValue (upperHex n) = n := by
  induction n using Nat.strong_induction_on with
  | _ n ih =>
    rcases Nat.lt_or_ge n 16 with hn | hn
    · rw [upperHex, inBase_of_lt hn, ← List.nil_append [_], hexValue_snoc hn]
      exact Nat.zero_add n
    · have hquotient : hexValue (inBase 14 65 (n / 16)) = n / 16 :=
        ih (n / 16) (Nat.div_lt_self (by omega) (by omega))
      rw [upperHex, inBase_of_ge hn, hexValue_snoc (Nat.mod_lt n (by omega)), hquotient,
        Nat.div_add_mod]

theorem hexValue_replicate_append (k : Nat) (figures : Bytes) :
    hexValue (List.replicate k 48 ++ figures) = hexValue figures := by
  induction k with
  | zero => rfl
  | succ k ih =>
    rw [List.replicate_succ, List.cons_append]
    exact ih

theorem codePoint_inj {n m : Nat} (h : codePoint n = codePoint m) : n = m := by
  have hvalue (k : Nat) : hexValue (codePoint k) = k := by
    rw [codePoint, hexValue_replicate_append, hexValue_upperHex]
  rw [← hvalue n, h, hvalue]

end Numeral

namespace Call

/-- What a call does, without what it does it with. -/
inductive Kind where
  | move (mode : MoveMode)
  | button (press : Press)
  | key (press : Press)
  | typing
  deriving DecidableEq

namespace Kind

def all : List Kind :=
  [.move .absolute, .move .relative, .button .down, .button .up, .key .down, .key .up, .typing]

/-- The name of the call. -/
def word : Kind → Bytes
  | .move .absolute => ascii "moveAbsolute"
  | .move .relative => ascii "moveRelative"
  | .button .down => ascii "buttonDown"
  | .button .up => ascii "buttonUp"
  | .key .down => ascii "keyDown"
  | .key .up => ascii "keyUp"
  | .typing => ascii "typeCharacter"

theorem mem_all (kind : Kind) : kind ∈ all := by
  cases kind with
  | move mode => cases mode <;> decide
  | button press => cases press <;> decide
  | key press => cases press <;> decide
  | typing => decide

theorem word_inj {k l : Kind} (h : k.word = l.word) : k = l := by
  have hwords : ∀ k ∈ all, ∀ l ∈ all, k.word = l.word → k = l := by decide
  exact hwords k k.mem_all l l.mem_all h

theorem parenthesis_not_mem_word (kind : Kind) : 40 ∉ kind.word := by
  have hwords : ∀ kind ∈ all, 40 ∉ kind.word := by decide
  exact hwords kind kind.mem_all

end Kind

def kind : Call → Kind
  | .moveAbsolute .. => .move .absolute
  | .moveRelative .. => .move .relative
  | .buttonDown _ => .button .down
  | .buttonUp _ => .button .up
  | .keyDown _ => .key .down
  | .keyUp _ => .key .up
  | .typeCharacter _ => .typing

/-- What stands between the parentheses. -/
def details : Call → Bytes
  | .moveAbsolute x y | .moveRelative x y =>
    Numeral.ofInt x.toInt ++ 44 :: 32 :: Numeral.ofInt y.toInt
  | .buttonDown n | .buttonUp n => Numeral.ofInt n.toInt
  | .keyDown code | .keyUp code => code.name
  | .typeCharacter c => ascii "U+" ++ Numeral.codePoint c.toNat

theorem failure_eq (call : Call) :
    call.failure = call.kind.word ++ ascii "(" ++ call.details ++ ascii ") failed" := by
  cases call <;> simp [failure, name, arguments, kind, Kind.word, details, Bytes.join, ascii]

theorem coordinates_of_details {x y x' y' : Int32}
    (h : Numeral.ofInt x.toInt ++ 44 :: 32 :: Numeral.ofInt y.toInt =
      Numeral.ofInt x'.toInt ++ 44 :: 32 :: Numeral.ofInt y'.toInt) : x = x' ∧ y = y' := by
  have hcomma (i : Int) : 44 ∉ Numeral.ofInt i := Numeral.not_mem_ofInt rfl (by decide) i
  obtain ⟨hx, hrest⟩ := Bytes.append_cons_inj (hcomma _) (hcomma _) h
  have hy := (List.cons.inj hrest).2
  exact ⟨Int32.toInt_inj.mp (Numeral.ofInt_inj hx), Int32.toInt_inj.mp (Numeral.ofInt_inj hy)⟩

theorem eq_of_kind_of_details {a b : Call} (hkind : a.kind = b.kind)
    (hdetails : a.details = b.details) : a = b := by
  cases a with
  | moveAbsolute x y =>
    cases b with
    | moveAbsolute x' y' =>
      obtain ⟨rfl, rfl⟩ := coordinates_of_details hdetails
      rfl
    | _ => cases hkind
  | moveRelative dx dy =>
    cases b with
    | moveRelative dx' dy' =>
      obtain ⟨rfl, rfl⟩ := coordinates_of_details hdetails
      rfl
    | _ => cases hkind
  | buttonDown n =>
    cases b with
    | buttonDown n' => rw [Int32.toInt_inj.mp (Numeral.ofInt_inj hdetails)]
    | _ => cases hkind
  | buttonUp n =>
    cases b with
    | buttonUp n' => rw [Int32.toInt_inj.mp (Numeral.ofInt_inj hdetails)]
    | _ => cases hkind
  | keyDown code =>
    cases b with
    | keyDown code' => rw [KeyCode.name_inj hdetails]
    | _ => cases hkind
  | keyUp code =>
    cases b with
    | keyUp code' => rw [KeyCode.name_inj hdetails]
    | _ => cases hkind
  | typeCharacter c =>
    cases b with
    | typeCharacter c' =>
      have hnumber := Numeral.codePoint_inj (List.append_cancel_left hdetails)
      rw [UInt32.toNat_inj.mp hnumber]
    | _ => cases hkind

/-- No two calls fail for the same reason. -/
theorem failure_inj {a b : Call} (h : a.failure = b.failure) : a = b := by
  simp only [failure_eq, List.append_assoc] at h
  obtain ⟨hword, hrest⟩ := Bytes.append_cons_inj (Kind.parenthesis_not_mem_word _)
    (Kind.parenthesis_not_mem_word _) h
  exact eq_of_kind_of_details (Kind.word_inj hword) (List.append_cancel_right hrest)

end Call

end TimedInput
