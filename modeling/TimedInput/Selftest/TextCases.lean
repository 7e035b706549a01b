import TimedInput.Selftest.Trial
import TimedInput.Sharing.Pool
import TimedInput.Text.Utf8

/-!
# Trials of texts and shared objects

Cutting of texts, numerals, characters, and the counting of references.
-/

namespace TimedInput.Selftest

open Trial

def cuttingTexts : Trial Unit := do
  expect "pieces between separators, empty ones included"
    (Bytes.splitOn (ascii ";") (ascii "keydown a;keyup a;;text x") ==
      [ascii "keydown a", ascii "keyup a", [], ascii "text x"])
  expect "blanks at both ends are dropped" ((ascii "  \t100 \r").trim == ascii "100")
  expect "a blank text is trimmed to nothing" (ascii "   ").trim.isEmpty
  expect "capitals become small letters" ((ascii "F12").lower == ascii "f12")

def readingNumerals : Trial Unit := do
  expect "digits are a number" (Numeral.integer? (ascii "570") == some 570)
  expect "a minus sign is read" (Numeral.integer? (ascii "-42") == some (-42))
  let refused := ["", "12a", " 1", "+1", "99999999999999999999"]
  expect "anything else is refused" (refused.all fun s => (Numeral.integer? (ascii s)).isNone)

def decodingCharacters : Trial Unit := do
  let text := Utf8.encode ['a', 'é', 'あ', '😀']
  expect "one to four bytes make a character"
    (Utf8.decode text == [0x61, 0xe9, 0x3042, 0x1f600])
  expect "a broken sequence gives a character for each byte"
    (Utf8.decode [0xc3, 0x78] == [0xc3, 0x78])

/-- The pool after some operations, of which the answers do not matter. -/
def pooled (pool : Pool) (operations : List SlotOperation) : Pool :=
  operations.foldl (fun pool operation => (pool.apply operation).1) pool

def countingReferences : Trial Unit := do
  let owned := pooled (.new 3) [.make 0]
  expect "a new object has one reference" (owned.count (some 0) == 1)
  let copied := pooled owned [.copy 1 0]
  expect "a copy counts" (copied.count (some 0) == 2)
  let again := pooled copied [.copy 1 0]
  expect "the same copy again does not" (again.count (some 0) == 2)
  let left := pooled again [.reset 1]
  expect "a reference that goes is not counted" (left.count (some 0) == 1)
  let moved := pooled left [.move 2 0]
  expect "a move leaves nothing behind" (moved.slots == [none, none, some 0])
  expect "a move does not count" (moved.count (some 0) == 1)
  expect "the object lives" (moved.living == [0])
  let emptied := pooled moved [.reset 2, .reset 0]
  expect "the last reference takes the object with it" emptied.living.isEmpty

def textCases : List TrialCase :=
  [⟨ascii "Foundation_String", cuttingTexts⟩,
   ⟨ascii "Foundation_ToInt", readingNumerals⟩,
   ⟨ascii "Foundation_UTF8", decodingCharacters⟩,
   ⟨ascii "Foundation_RefPtr", countingReferences⟩]

end TimedInput.Selftest
