import TimedInput.Proofs.Backend.DesktopPlayback
import TimedInput.Proofs.Backend.Transcription

/-!
# Typing on a desktop

A text event is typed character by character, two steps for each: the call is begun and it
returns. No wait comes in between, so a request to cancel is not noticed before the last character
was typed.
-/

namespace TimedInput

/-- The code unit of a packet with the given flags. -/
def Packet.unit? (flags : UInt32) : Packet → Option UInt16
  | .key 0 scan given => if given = flags then some scan else none
  | _ => none

namespace Desktop

/-- The code units of packets with the given flags. -/
def unitsOf (flags : UInt32) (packets : List Packet) : List UInt16 :=
  packets.filterMap (Packet.unit? flags)

theorem unitsOf_map (flags given : UInt32) (us : List UInt16) :
    unitsOf flags (us.map (.key 0 · given)) = if given = flags then us else [] := by
  rw [unitsOf, List.filterMap_map]
  split
  · rename_i h
    simp [Packet.unit?, h]
  · rename_i h
    simp [Function.comp_def, Packet.unit?, h]

/-- Each code unit is pressed once and let go of once. -/
theorem unitsOf_typed (us : List UInt16) :
    unitsOf unicodeFlag (typed us) = us ∧ unitsOf (unicodeFlag + releaseFlag) (typed us) = us := by
  have happend (flags : UInt32) : unitsOf flags (typed us) =
      unitsOf flags (us.map (.key 0 · unicodeFlag)) ++
        unitsOf flags (us.map (.key 0 · (unicodeFlag + releaseFlag))) :=
    List.filterMap_append
  rw [happend, happend]
  simp only [unitsOf_map]
  exact ⟨List.append_nil us, List.nil_append us⟩

/-- What is sent for a character. -/
def request (c : Char) : List Packet :=
  typed (Utf16.units c.val)

theorem unitsOf_requests (cs : List Char) :
    let us := cs.flatMap fun c => Utf16.units c.val
    unitsOf unicodeFlag (cs.flatMap request) = us ∧
      unitsOf (unicodeFlag + releaseFlag) (cs.flatMap request) = us := by
  intro us
  simp only [unitsOf, List.filterMap_flatMap]
  exact ⟨List.flatMap_congr fun c _ => (unitsOf_typed _).1,
    List.flatMap_congr fun c _ => (unitsOf_typed _).2⟩

theorem length_requests (cs : List Char) :
    (cs.flatMap request).length = 2 * (cs.flatMap fun c => Utf16.units c.val).length := by
  induction cs with
  | nil => rfl
  | cons c cs ih =>
    have hrequest : (request c).length = 2 * (Utf16.units c.val).length := by
      rw [request, typed, List.length_append, List.length_map, List.length_map, Nat.two_mul]
    rw [List.flatMap_cons, List.flatMap_cons, List.length_append, List.length_append, ih,
      hrequest, Nat.mul_add]

end Desktop

namespace Run

open Desktop (request)

/-- The run has typed the characters since it was `first`, and done nothing else. -/
structure Typed (run first : Run Desktop) (done : List Char) : Prop where
  accepting : run.device.refusing = false
  state_eq : run.state = first.state
  log_eq : run.log = first.log ++ done.map fun c => .success (.typeCharacter c.val)
  sent_eq : run.device.sent = (done.map request).reverse ++ first.device.sent

/-- Where a run stands that has made `n` steps since it began to type. Some characters are done,
the last of them perhaps not quite, and others are left. -/
def Typing (run first : Run Desktop) (done left : List Char) (todo : Todo) (n : Nat) : Prop :=
  let calls := left.map fun c => .typeCharacter c.val
  run.Typed first done ∧
    (n = 2 * done.length ∧ run.stage = .issue calls (.proceed todo) ∨
      n + 1 = 2 * done.length ∧ (∃ c : Char,
        run.stage = .answer (.typeCharacter c.val) true calls (.proceed todo)) ∨
      n = 2 * done.length + 1 ∧ left = [] ∧ run.stage = .await todo)

section Steps

variable {change : Nat → Desktop → Desktop}
variable (hsent : ∀ now desktop, (change now desktop).sent = desktop.sent)
variable (haccepting : ∀ now desktop, desktop.refusing = false →
  (change now desktop).refusing = false)
include hsent haccepting

theorem Typed.beginCall {run first : Run Desktop} {done : List Char} (h : run.Typed first done)
    (now : Nat) (c : Char) (calls : List Call) (todo : Todo) :
    let next := run.beginCall (Desktop.backend.amid change) now (.typeCharacter c.val) calls
      (.proceed todo)
    next.Typed first (done ++ [c]) ∧
      next.stage = .answer (.typeCharacter c.val) true calls (.proceed todo) := by
  obtain ⟨hready, hstate, hlog, hsends⟩ := h
  have hcurrent := haccepting now run.device hready
  have hok : ((Desktop.backend.amid change).perform now (.typeCharacter c.val) run.device).1.ok =
      true := by
    change (!(change now run.device).refusing) = true
    rw [hcurrent]
    rfl
  refine ⟨⟨hcurrent, hstate, ?_, ?_⟩, congrArg (Stage.answer _ · calls _) hok⟩
  · rw [log_beginCall, hok, hlog, List.map_append, List.append_assoc]
    rfl
  · change request c :: (change now run.device).sent = _
    rw [hsent, hsends, List.map_append, List.reverse_append]
    rfl

theorem Typing.step {run first : Run Desktop} {done left : List Char} {todo : Todo} {n : Nat}
    (h : run.Typing first done left todo n) (hn : n ≤ 2 * (done ++ left).length) (now : Nat) :
    ∃ done' left', done' ++ left' = done ++ left ∧
      (run.step (Desktop.backend.amid change) now).Typing first done' left' todo (n + 1) := by
  obtain ⟨htyped, ⟨hdone, hs⟩ | ⟨hdone, c, hs⟩ | ⟨hdone, rfl, -⟩⟩ := h
  · cases left with
    | nil =>
      -- All is typed, and the step only goes on to the next event.
      have hstep : run.step (Desktop.backend.amid change) now =
          { run with stage := .await todo } := by
        rw [List.map_nil] at hs
        simp only [Run.step, hs]
      rw [hstep]
      obtain ⟨hready, hstate, hlog, hsends⟩ := htyped
      exact ⟨done, [], rfl, ⟨hready, hstate, hlog, hsends⟩, .inr (.inr ⟨by omega, rfl, rfl⟩)⟩
    | cons c left =>
      let calls := left.map fun c => Call.typeCharacter c.val
      have hstep : run.step (Desktop.backend.amid change) now =
          run.beginCall (Desktop.backend.amid change) now (.typeCharacter c.val) calls
            (.proceed todo) := by
        rw [List.map_cons] at hs
        simp only [Run.step, hs, calls]
      rw [hstep]
      obtain ⟨hnext, hstage⟩ := htyped.beginCall hsent haccepting now c calls todo
      refine ⟨done ++ [c], left, by simp, hnext, .inr (.inl ⟨?_, c, hstage⟩)⟩
      rw [List.length_append, List.length_singleton]
      omega
  · have hstep : run.step (Desktop.backend.amid change) now =
        { run with
          stage := .issue (left.map fun c => .typeCharacter c.val) (.proceed todo) } := by
      simp only [Run.step, hs]
      rfl
    rw [hstep]
    obtain ⟨hready, hstate, hlog, hsends⟩ := htyped
    exact ⟨done, left, rfl, ⟨hready, hstate, hlog, hsends⟩, .inl ⟨hdone, rfl⟩⟩
  · rw [List.append_nil] at hn
    omega

theorem Typing.move {run first : Run Desktop} {done left : List Char} {todo : Todo} {n : Nat}
    (h : run.Typing first done left todo n) (m : Move)
    (hn : n + steps [m] ≤ 2 * (done ++ left).length + 1) :
    ∃ done' left', done' ++ left' = done ++ left ∧
      (run.move (Desktop.backend.amid change) m).Typing first done' left' todo
        (n + steps [m]) := by
  cases m with
  | step now => exact h.step hsent haccepting (Nat.le_of_succ_le_succ hn) now
  | cancel =>
    refine ⟨done, left, rfl, ?_⟩
    change run.requestCancel.Typing first done left todo n
    obtain ⟨asked, hasked⟩ := run.exists_requestCancel_eq
    obtain ⟨⟨hready, hstate, hlog, hsends⟩, hstage⟩ := h
    rw [hasked]
    exact ⟨⟨hready, hstate, hlog, hsends⟩, hstage⟩

theorem Typing.follow {run first : Run Desktop} {done left : List Char} {todo : Todo} {n : Nat}
    (h : run.Typing first done left todo n) (moves : List Move)
    (hn : n + steps moves ≤ 2 * (done ++ left).length + 1) :
    ∃ done' left', done' ++ left' = done ++ left ∧
      (run.follow (Desktop.backend.amid change) moves).Typing first done' left' todo
        (n + steps moves) := by
  induction moves generalizing run done left n with
  | nil => exact ⟨done, left, rfl, h⟩
  | cons m moves ih =>
    have hsteps : steps (m :: moves) = steps [m] + steps moves := steps_append [m] moves
    rw [hsteps, ← Nat.add_assoc] at hn ⊢
    obtain ⟨done', left', heq, hmoved⟩ := h.move hsent haccepting m (by omega)
    obtain ⟨done'', left'', heq', hfollowed⟩ := ih hmoved (heq ▸ hn)
    exact ⟨done'', left'', heq'.trans heq, hfollowed⟩

end Steps

theorem typing_of_text (change : Nat → Desktop → Desktop) {run : Run Desktop} {time : UInt64}
    {cs : List Char} {seq : UInt32} {rest : Timeline} (hready : run.device.refusing = false)
    (hstage : run.stage = .await ⟨none, ⟨time, .text (Utf8.encode cs), seq⟩ :: rest⟩)
    (hcancel : run.cancelRequested = false) (now : Nat) :
    (run.step (Desktop.backend.amid change) now).Typing run [] cs ⟨none, rest⟩ 0 := by
  have hdecode : Utf8.decode (Utf8.encode cs) = cs.map (·.val) := by
    have happend := Utf8.decode_encode_append cs []
    rwa [Utf8.decode_nil, List.append_nil, List.append_nil] at happend
  have hstep : run.step (Desktop.backend.amid change) now =
      { run with
        stage := .issue ((Utf8.decode (Utf8.encode cs)).map .typeCharacter) (.proceed ⟨none, rest⟩)
        history := .began now ⟨time, .text (Utf8.encode cs), seq⟩ :: run.history } := by
    simp only [Run.step, hstage, wake, hcancel]
    rfl
  rw [hstep, hdecode, List.map_map]
  refine ⟨⟨hready, rfl, ?_, rfl⟩, .inl ⟨rfl, rfl⟩⟩
  rw [log_began]
  exact (List.append_nil _).symm

end Run

namespace Desktop

/-- On a desktop that takes what it is sent, an event that types Unicode scalars sends one request
for each of them, in their order, which presses the code units of the scalar and then lets go of
them. At every moment until all are typed, half of the steps so far, rounded up, is the number of
scalars that were sent, whatever requests to cancel come in between. Then the run goes on with
the next event, all calls have succeeded, and the input state is what it was. The units that were
pressed are the UTF-16 of the text, and so are those that were let go of. -/
theorem types_in_utf16 (change : Nat → Desktop → Desktop)
    (hsent : ∀ now desktop, (change now desktop).sent = desktop.sent)
    (haccepting : ∀ now desktop, desktop.refusing = false → (change now desktop).refusing = false)
    {run : Run Desktop} (hready : run.device.refusing = false) {time : UInt64} {cs : List Char}
    {seq : UInt32} {rest : Timeline}
    (hstage : run.stage = .await ⟨none, ⟨time, .text (Utf8.encode cs), seq⟩ :: rest⟩)
    (hcancel : run.cancelRequested = false) (now : Nat) (moves : List Move)
    (hsteps : steps moves ≤ 2 * cs.length + 1) :
    let typing := run.follow (Desktop.backend.amid change) (.step now :: moves)
    let done := cs.take ((steps moves + 1) / 2)
    let us := cs.flatMap fun c => Utf16.units c.val
    typing.device.sent = (done.map request).reverse ++ run.device.sent ∧
    typing.log = run.log ++ (done.map fun c => .success (.typeCharacter c.val)) ∧
    typing.state = run.state ∧
    (steps moves = 2 * cs.length + 1 → typing.stage = .await ⟨none, rest⟩ ∧ done = cs) ∧
    (∀ c ∈ cs, ∀ units, Utf16.Encodes c units ↔ units = Utf16.units c.val) ∧
    let packets := cs.flatMap request
    unitsOf unicodeFlag packets = us ∧ unitsOf (unicodeFlag + releaseFlag) packets = us ∧
      packets.length = 2 * us.length ∧ Utf16.decode us = cs.map (·.val) := by
  intro typing done us
  have hbegun := Run.typing_of_text change hready hstage hcancel now
  obtain ⟨typed, left, hall, htyped, hwhere⟩ :=
    hbegun.follow hsent haccepting moves (by simpa using hsteps)
  rw [List.nil_append] at hall
  rw [Nat.zero_add] at hwhere
  have hdone : done = typed := by
    simp only [done]
    rw [← hall]
    rcases hwhere with ⟨h, -⟩ | ⟨h, -⟩ | ⟨h, rfl, -⟩
    · exact List.take_left' (by omega)
    · exact List.take_left' (by omega)
    · rw [List.append_nil, List.take_of_length_le (by omega)]
  obtain ⟨-, hstate, hlog, hsends⟩ := htyped
  rw [hdone]
  refine ⟨hsends, hlog, hstate, ?_, ?_, ?_⟩
  · intro hlast
    have hlength := congrArg List.length hall
    rw [List.length_append] at hlength
    rcases hwhere with ⟨h, -⟩ | ⟨h, -⟩ | ⟨-, rfl, hs⟩
    · omega
    · omega
    · exact ⟨hs, by simpa using hall⟩
  · intro c _ units
    constructor
    · exact fun h => h.unique (Utf16.encodes_units c)
    · rintro rfl
      exact Utf16.encodes_units c
  · obtain ⟨hpressed, hreleased⟩ := unitsOf_requests cs
    exact ⟨hpressed, hreleased, length_requests cs, Utf16.decode_flatMap_units cs⟩

/-- A letter and a character above 0x10000, with a request to cancel between them. -/
theorem types_in_utf16_letter_and_pair :
    let cs := ['x', Char.ofNat 0x1f600]
    let fresh := Run.ofTimeline .standard [⟨5, .text (Utf8.encode cs), 0⟩] standard 0
    let moves : List Move := [.step 9, .cancel, .step 9, .step 9, .step 9, .step 9]
    let typing := (fresh.step backend 0).follow backend (.step 5000000 :: moves)
    typing.stage = .await ⟨none, []⟩ ∧ typing.state = (fresh.step backend 0).state ∧
      typing.device.sent = [typed [0xd83d, 0xde00], typed [0x78]] ∧
      Utf16.decode [0x78, 0xd83d, 0xde00] = [0x78, 0x1f600] := by
  intro cs fresh moves typing
  have hstage : (fresh.step backend 0).stage =
      .await ⟨none, ⟨5, .text (Utf8.encode cs), 0⟩ :: []⟩ := rfl
  obtain ⟨hsent, -, hstate, hlast, -, -, -, -, hdecode⟩ :=
    types_in_utf16 (fun _ desktop => desktop) (fun _ _ => rfl) (fun _ _ h => h) rfl hstage rfl
      5000000 moves (by decide)
  exact ⟨(hlast rfl).1, hstate, hsent.trans (by decide), hdecode⟩

end Desktop

end TimedInput
