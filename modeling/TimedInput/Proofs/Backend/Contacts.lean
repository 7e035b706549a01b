import Mathlib.Data.List.Pairwise
import TimedInput.Backend.Desktop
import TimedInput.Proofs.Playback.Footprint

/-!
# Contacts

What the system sees pressed and let go of in a stream of packets: the keys by their virtual keys,
and five mouse buttons by the flags and the data of their packets. Each switch that a script can
name is wired to a contact of its own.
-/

namespace TimedInput

/-- A virtual key of zero stands for a character. -/
inductive Contact where
  | key (virtualKey : UInt16) (h : virtualKey ≠ 0)
  | left
  | right
  | middle
  | extra1
  | extra2
  deriving DecidableEq

/-- The presses that flags make with one bit to press and one to let go. -/
def signals (flags pressed released : UInt32) : List Press :=
  (if flags &&& pressed = 0 then [] else [.down]) ++ (if flags &&& released = 0 then [] else [.up])

/-- What a packet does to a contact. The extra buttons share their flags, and the data tells which
of them is meant. -/
def Packet.presses : Contact → Packet → List Press
  | .key vk _, .key virtualKey _ flags =>
    if virtualKey = vk then [if flags &&& 2 = 0 then .down else .up] else []
  | .left, .mouse _ _ _ flags => signals flags 0x02 0x04
  | .right, .mouse _ _ _ flags => signals flags 0x08 0x10
  | .middle, .mouse _ _ _ flags => signals flags 0x20 0x40
  | .extra1, .mouse _ _ data flags => if data &&& 1 = 0 then [] else signals flags 0x80 0x100
  | .extra2, .mouse _ _ data flags => if data &&& 2 = 0 then [] else signals flags 0x80 0x100
  | _, _ => []

namespace Switch

/-- The switches that scripts can name: the keys of the table, and five buttons. -/
def named : List Switch :=
  Key.table.map (.key ·.code) ++ [.button 1, .button 2, .button 3, .button 4, .button 5]

/-- The contact that a switch is wired to. -/
def contact? : Switch → Option Contact
  | .key code =>
    match Desktop.virtualKey? code with
    | some vk => if h : vk ≠ 0 then some (.key vk h) else none
    | none => none
  | .button number =>
    if number = 1 then some .left
    else if number = 2 then some .right
    else if number = 3 then some .middle
    else if number = 4 then some .extra1
    else if number = 5 then some .extra2
    else none

theorem key_mem_named {key : Key} (h : key ∈ Key.table) : .key key.code ∈ named :=
  List.mem_append_left _ (List.mem_map_of_mem h)

theorem button_mem_named {number : Int32} (hleast : 1 ≤ number) (hmost : number ≤ 5) :
    .button number ∈ named := by
  rw [Int32.le_iff_toInt_le] at hleast hmost
  have hcases : number.toInt = 1 ∨ number.toInt = 2 ∨ number.toInt = 3 ∨ number.toInt = 4 ∨
      number.toInt = 5 := by
    change 1 ≤ number.toInt at hleast
    change number.toInt ≤ 5 at hmost
    omega
  apply List.mem_append_right
  rw [← number.ofInt_toInt]
  rcases hcases with h | h | h | h | h <;> rw [h] <;> decide

theorem isSome_contact?_of_named : ∀ sw ∈ named, sw.contact?.isSome = true := by
  decide +kernel

/-- No contact belongs to two of them. The semicolon is a key with two names. -/
theorem pairwise_contact?_named :
    named.Pairwise fun a b => a.contact? = b.contact? → a = b := by
  decide +kernel

theorem contact?_inj {a b : Switch} (ha : a ∈ named) (hb : b ∈ named)
    (h : a.contact? = b.contact?) : a = b := by
  have hsymm : Std.Symm fun a b : Switch => a.contact? = b.contact? → a = b :=
    ⟨fun _ _ h heq => (h heq.symm).symm⟩
  exact pairwise_contact?_named.forall_of_forall (fun _ _ _ => rfl) ha hb h

end Switch

namespace Desktop

section Packets

variable {packet : Packet} {down : Bool} (contact : Contact)

theorem presses_keyPacket {code : KeyCode} (h : keyPacket? down code = some packet) :
    packet.presses contact =
      if (Switch.key code).contact? = some contact then [if down then .down else .up] else [] := by
  obtain ⟨vk, hvk, rfl⟩ := Option.map_eq_some_iff.mp h
  have hflags : (if (if down then 0 else releaseFlag) &&& 2 = 0 then Press.down else Press.up) =
      if down then .down else .up := by
    cases down <;> rfl
  cases contact with
  | key other hother =>
    by_cases hsame : vk = other
    · subst hsame
      simp [Packet.presses, hflags, Switch.contact?, hvk, hother]
    · by_cases hzero : vk = 0 <;>
        simp [Packet.presses, hsame, Switch.contact?, hvk, hzero, hother.symm]
  | _ => by_cases hzero : vk = 0 <;> simp [Packet.presses, Switch.contact?, hvk, hzero]

theorem presses_buttonPacket {number : Int32} (h : buttonPacket? down number = some packet) :
    packet.presses contact =
      if (Switch.button number).contact? = some contact then [if down then .down else .up]
      else [] := by
  have hnumber : number = 1 ∨ number = 2 ∨ number = 3 ∨ number = 4 ∨ number = 5 := by
    by_contra hnot
    simp only [not_or] at hnot
    simp [buttonPacket?, hnot] at h
  rcases hnumber with rfl | rfl | rfl | rfl | rfl <;> cases h <;> cases down <;> cases contact <;>
    rfl

theorem presses_movePacket (desktop : Desktop) (p : Point) :
    (desktop.movePacket p).presses contact = [] := by
  cases contact <;> rfl

theorem presses_characterPackets (c : UInt32) :
    (characterPackets c).flatMap (Packet.presses contact) = [] := by
  have hunit : ∀ unit flags, (Packet.key 0 unit flags).presses contact = [] := by
    intro unit flags
    cases contact with
    | key vk h => simp [Packet.presses, h.symm]
    | _ => rfl
  simp [characterPackets, hunit]

end Packets

theorem isSome_buttonPacket (down : Bool) (number : Int32) :
    (buttonPacket? down number).isSome = (Switch.button number).contact?.isSome := by
  simp only [buttonPacket?, Switch.contact?, apply_ite Option.isSome, Option.isSome_some,
    Option.isSome_none]

theorem isSome_keyPacket {down : Bool} {code : KeyCode}
    (h : (Switch.key code).contact?.isSome = true) : (keyPacket? down code).isSome = true := by
  cases hvk : virtualKey? code with
  | none => simp [Switch.contact?, hvk] at h
  | some vk => simp [keyPacket?, hvk]

theorem isSome_packets_of_switch (desktop : Desktop) {sw : Switch}
    (h : sw.contact?.isSome = true) (press : Press) :
    (desktop.packets? (sw.call press)).isSome = true := by
  cases sw with
  | key code => cases press <;> simp [Switch.call, packets?, isSome_keyPacket h]
  | button number => cases press <;> simp [Switch.call, packets?, isSome_buttonPacket, h]

variable {desktop : Desktop} {packets : List Packet}

/-- The packets of a call that moves a switch do to a contact what the call does to the switch, if
the switch is wired to it. -/
theorem presses_of_switch {sw : Switch} {press : Press}
    (h : desktop.packets? (sw.call press) = some packets) (contact : Contact) :
    packets.flatMap (Packet.presses contact) =
      if sw.contact? = some contact then [press] else [] := by
  cases sw with
  | key code =>
    cases press with
    | down =>
      obtain ⟨packet, hpacket, rfl⟩ := Option.map_eq_some_iff.mp h
      simpa using presses_keyPacket contact hpacket
    | up =>
      obtain ⟨packet, hpacket, rfl⟩ := Option.map_eq_some_iff.mp h
      simpa using presses_keyPacket contact hpacket
  | button number =>
    cases press with
    | down =>
      obtain ⟨packet, hpacket, rfl⟩ := Option.map_eq_some_iff.mp h
      simpa using presses_buttonPacket contact hpacket
    | up =>
      obtain ⟨packet, hpacket, rfl⟩ := Option.map_eq_some_iff.mp h
      simpa using presses_buttonPacket contact hpacket

/-- Moves and characters touch no contact. -/
theorem presses_of_idle {call : Call} (hidle : ∀ (sw : Switch) press, call ≠ sw.call press)
    (h : desktop.packets? call = some packets) (contact : Contact) :
    packets.flatMap (Packet.presses contact) = [] := by
  cases call with
  | moveAbsolute x y =>
    obtain rfl := Option.some.inj h
    simp [presses_movePacket]
  | moveRelative dx dy =>
    obtain ⟨p, -, rfl⟩ := Option.map_eq_some_iff.mp h
    simp [presses_movePacket]
  | typeCharacter c =>
    obtain rfl := Option.some.inj h
    exact presses_characterPackets contact c
  | keyDown code => exact absurd rfl (hidle (.key code) .down)
  | keyUp code => exact absurd rfl (hidle (.key code) .up)
  | buttonDown number => exact absurd rfl (hidle (.button number) .down)
  | buttonUp number => exact absurd rfl (hidle (.button number) .up)

end Desktop

end TimedInput
