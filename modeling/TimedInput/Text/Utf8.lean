import TimedInput.Text.Bytes

/-!
# UTF-8

`decode` reads a text as characters. A lead byte announces one to three continuation
bytes; where they follow, they make one character with it, and every byte that begins
no such sequence stands for itself. Only the bit patterns are looked at, so a sequence
may be longer than its character needs, or spell a value that is no Unicode scalar.

`encode` is the shortest form of a list of Unicode scalars.
-/

namespace TimedInput.Utf8

/-- How many continuation bytes a lead byte announces, and the bits of the character that
it carries itself. -/
def lead? (b : UInt8) : Option (Nat × UInt32) :=
  if b < 0x80 then some (0, b.toUInt32)
  else if b < 0xc0 then none
  else if b < 0xe0 then some (1, b.toUInt32 - 0xc0)
  else if b < 0xf0 then some (2, b.toUInt32 - 0xe0)
  else if b < 0xf8 then some (3, b.toUInt32 - 0xf0)
  else none

def isContinuation (b : UInt8) : Bool :=
  0x80 ≤ b && b < 0xc0

/-- The character read so far with the six bits of one more continuation byte. -/
def extend (c : UInt32) (b : UInt8) : UInt32 :=
  c * 64 + (b.toUInt32 - 0x80)

/-- Takes `n` continuation bytes off the front, if they are there. -/
def follow? : Nat → UInt32 → Bytes → Option (UInt32 × Bytes)
  | 0, c, s => some (c, s)
  | _ + 1, _, [] => none
  | n + 1, c, b :: s => if isContinuation b then follow? n (extend c b) s else none

/-- The character that starts with the byte `b`, and the bytes after it. -/
def sequence? (b : UInt8) (s : Bytes) : Option (UInt32 × Bytes) :=
  (lead? b).bind fun (n, c) => follow? n c s

theorem length_of_follow? {n : Nat} {c d : UInt32} {s rest : Bytes}
    (h : follow? n c s = some (d, rest)) : s.length = n + rest.length := by
  induction n generalizing c s with
  | zero => simp_all [follow?]
  | succ n ih =>
    cases s with
    | nil => simp [follow?] at h
    | cons b s =>
      rw [follow?] at h
      split at h
      · have := ih h
        simp only [List.length_cons]
        omega
      · simp at h

theorem length_of_sequence? {b : UInt8} {c : UInt32} {s rest : Bytes}
    (h : sequence? b s = some (c, rest)) : rest.length ≤ s.length := by
  obtain ⟨⟨n, d⟩, _, hn⟩ := Option.bind_eq_some_iff.mp h
  have := length_of_follow? hn
  omega

/-- The characters of a text. A byte outside every sequence is a character of its own. -/
def decode : Bytes → List UInt32
  | [] => []
  | b :: s =>
    match h : sequence? b s with
    | some (c, rest) =>
      have := length_of_sequence? h
      c :: decode rest
    | none => b.toUInt32 :: decode s
termination_by s => s.length

/-- The shortest byte sequence of one Unicode scalar. -/
def encodeChar (c : Char) : Bytes :=
  let n := c.toNat
  let tail (k : Nat) : UInt8 := (0x80 + k % 64).toUInt8
  if n < 0x80 then [n.toUInt8]
  else if n < 0x800 then [(0xc0 + n / 64).toUInt8, tail n]
  else if n < 0x10000 then [(0xe0 + n / 4096).toUInt8, tail (n / 64), tail n]
  else [(0xf0 + n / 262144).toUInt8, tail (n / 4096), tail (n / 64), tail n]

def encode (cs : List Char) : Bytes :=
  cs.flatMap encodeChar

end TimedInput.Utf8
