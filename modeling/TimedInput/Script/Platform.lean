import TimedInput.Text.Bytes

/-!
# Platforms and what they support

Most of the language works everywhere. The exceptions are named as features, and one
table says which platform lacks which of them. Platform and feature numbers outside
the known ones are kept as they are: they fit no entry of the table.
-/

namespace TimedInput

inductive Platform where
  | windows
  | linux
  | macOS
  | unlisted (number : Int32)
  deriving DecidableEq, Repr

/-- Parts of the language that are not available everywhere; `plain` is all the rest. -/
inductive Feature where
  | plain
  | mouseButton4
  | mouseButton5
  | keyInsert
  | unlisted (number : Int32)
  deriving DecidableEq, Repr

namespace Platform

/-- The platform that scripts are compiled for unless another one is asked for. -/
def standard : Platform := .linux

def name : Platform → Bytes
  | .windows => ascii "Windows"
  | .linux => ascii "Linux"
  | .macOS => ascii "macOS"
  | .unlisted _ => []

def ofNumber (n : Int32) : Platform :=
  if n = 0 then .windows
  else if n = 1 then .linux
  else if n = 2 then .macOS
  else .unlisted n

/-- What is not listed as missing is supported. -/
def supports : Platform → Feature → Bool
  | .macOS, .mouseButton4 => false
  | .macOS, .mouseButton5 => false
  | .macOS, .keyInsert => false
  | _, _ => true

end Platform

namespace Feature

def number : Feature → Int32
  | .plain => 0
  | .mouseButton4 => 1
  | .mouseButton5 => 2
  | .keyInsert => 3
  | .unlisted n => n

def ofNumber (n : Int32) : Feature :=
  if n = 0 then .plain
  else if n = 1 then .mouseButton4
  else if n = 2 then .mouseButton5
  else if n = 3 then .keyInsert
  else .unlisted n

/-- The feature that a mouse button needs. -/
def ofButton (button : Int32) : Feature :=
  if button = 4 then .mouseButton4
  else if button = 5 then .mouseButton5
  else .plain

end Feature

end TimedInput
