import TimedInput.Proofs.Backend.Contacts
import TimedInput.Proofs.Playback.Failure
import TimedInput.Proofs.Playback.HeldInput
import TimedInput.Proofs.Script.Reports

/-!
# Playing on a desktop

Whatever a valid script asks for can be done on a desktop, as long as the system takes the
packets and knows where its cursor is. Every contact is then pressed and let go of by turns, and is
let go of at the end.
-/

namespace TimedInput

/-- The backend on a device that may change before each call. -/
def Backend.amid {σ : Type} (backend : Backend σ) (change : Nat → σ → σ) : Backend σ where
  perform now call device := backend.perform now call (change now device)
  pointer := backend.pointer

namespace Desktop

/-- The system takes what it is sent, and it knows where the cursor is. -/
structure Serving (desktop : Desktop) : Prop where
  accepting : desktop.refusing = false
  pointing : desktop.cursor.isSome = true

/-- What becomes of the screen and the cursor while a run does not call. -/
structure Surroundings where
  change : Nat → Desktop → Desktop
  sent_change : ∀ now desktop, (change now desktop).sent = desktop.sent
  serving_change : ∀ now desktop, desktop.Serving → (change now desktop).Serving

def Surroundings.backend (surroundings : Surroundings) : Backend Desktop :=
  Desktop.backend.amid surroundings.change

/-- Nobody touches the desktop but the run. -/
def Surroundings.calm : Surroundings where
  change _ desktop := desktop
  sent_change _ _ := rfl
  serving_change _ _ h := h

theorem Surroundings.backend_calm : calm.backend = Desktop.backend := rfl

theorem Surroundings.passive_backend (surroundings : Surroundings) :
    surroundings.backend.passive = surroundings.backend := by
  have hperform : surroundings.backend.passive.perform = surroundings.backend.perform := by
    funext now call desktop
    change ({ ((surroundings.change now desktop).perform call).1 with cancels := false },
      ((surroundings.change now desktop).perform call).2) = _
    have hcancels : ((surroundings.change now desktop).perform call).1.cancels = false := by
      unfold perform
      split <;> rfl
    rw [← hcancels]
    rfl
  exact congrArg (fun perform => Backend.mk perform surroundings.backend.pointer) hperform

/-- All that was sent, the first packet first. -/
def packets (desktop : Desktop) : List Packet :=
  desktop.sent.reverse.flatten

@[simp] theorem packets_cons (desktop : Desktop) (request : List Packet) :
    { desktop with sent := request :: desktop.sent }.packets = desktop.packets ++ request := by
  simp [packets]

theorem isSome_packets {desktop : Desktop} (h : desktop.Serving) {call : Call}
    (hcall : call.Within (· ∈ Switch.named)) : (desktop.packets? call).isSome = true := by
  have hswitch : ∀ (sw : Switch) (press : Press), call = sw.call press →
      (desktop.packets? call).isSome = true := by
    rintro sw press rfl
    have hcontact := Switch.isSome_contact?_of_named sw (hcall sw press rfl)
    exact isSome_packets_of_switch desktop hcontact press
  cases call with
  | moveAbsolute x y => rfl
  | moveRelative dx dy => simp [packets?, h.pointing]
  | typeCharacter c => rfl
  | keyDown code => exact hswitch (.key code) .down rfl
  | keyUp code => exact hswitch (.key code) .up rfl
  | buttonDown number => exact hswitch (.button number) .down rfl
  | buttonUp number => exact hswitch (.button number) .up rfl

/-- A call that moves named switches only is taken, and its packets follow what was sent before. -/
theorem Surroundings.exists_request (surroundings : Surroundings) {desktop : Desktop}
    (h : desktop.Serving) {call : Call} (hcall : call.Within (· ∈ Switch.named)) (now : Nat) :
    ∃ (current : Desktop) (request : List Packet), current.packets? call = some request ∧
      (surroundings.backend.perform now call desktop).1.ok = true ∧
      (surroundings.backend.perform now call desktop).2.Serving ∧
      (surroundings.backend.perform now call desktop).2.packets = desktop.packets ++ request := by
  let current := surroundings.change now desktop
  have hcurrent : current.Serving := surroundings.serving_change now desktop h
  obtain ⟨request, hrequest⟩ := Option.isSome_iff_exists.mp (isSome_packets hcurrent hcall)
  have hperform : surroundings.backend.perform now call desktop =
      (.plain !current.refusing, { current with sent := request :: current.sent }) := by
    change current.perform call = _
    rw [perform, hrequest]
  rw [hperform]
  refine ⟨current, request, hrequest, ?_, ⟨hcurrent.accepting, hcurrent.pointing⟩, ?_⟩
  · simp [Reply.plain, hcurrent.accepting]
  · rw [packets_cons, packets, surroundings.sent_change, packets]

section Requests

variable {desktop : Desktop} {call : Call} {request : List Packet} {contact : Contact}
variable (hcall : call.Within (· ∈ Switch.named)) (h : desktop.packets? call = some request)
include hcall h

theorem presses_of_wired {sw : Switch} (hnamed : sw ∈ Switch.named)
    (hcontact : sw.contact? = some contact) (purpose : Purpose) :
    request.flatMap (Packet.presses contact) =
      ((⟨purpose, call, true⟩ : Attempt).press? sw).toList := by
  by_cases hsame : ∃ press, call = sw.call press
  · obtain ⟨press, rfl⟩ := hsame
    rw [presses_of_switch h contact, if_pos hcontact, Attempt.press?_eq_some_iff.mpr ⟨rfl, rfl⟩]
    rfl
  · have hnone : (⟨purpose, call, true⟩ : Attempt).press? sw = none := by
      apply Option.eq_none_iff_forall_ne_some.mpr
      intro press hpress
      exact hsame ⟨press, (Attempt.press?_eq_some_iff.mp hpress).2⟩
    rw [hnone]
    by_cases hswitch : ∃ (other : Switch) (press : Press), call = other.call press
    · obtain ⟨other, press, rfl⟩ := hswitch
      rw [presses_of_switch h contact, if_neg]
      · rfl
      · -- two switches that scripts can name do not share a contact
        intro hother
        have heq := Switch.contact?_inj (hcall other press rfl) hnamed (hother.trans hcontact.symm)
        exact hsame ⟨press, congrArg (·.call press) heq⟩
    · exact presses_of_idle (by simpa using hswitch) h contact

theorem presses_of_unwired (hunwired : ∀ sw ∈ Switch.named, sw.contact? ≠ some contact) :
    request.flatMap (Packet.presses contact) = [] := by
  by_cases hswitch : ∃ (sw : Switch) (press : Press), call = sw.call press
  · obtain ⟨sw, press, rfl⟩ := hswitch
    rw [presses_of_switch h contact, if_neg (hunwired sw (hcall sw press rfl))]
  · exact presses_of_idle (by simpa using hswitch) h contact

end Requests

/-- The run has reached the desktop with all its calls: none has failed, and what the packets do to
a contact is what the calls do to the switch that is wired to it. -/
structure Served (run : Run Desktop) : Prop where
  serving : run.device.Serving
  ok : ∀ a ∈ run.log, a.ok = true
  wired : ∀ sw ∈ Switch.named, ∀ contact, sw.contact? = some contact →
    run.device.packets.flatMap (Packet.presses contact) = presses sw run.log
  unwired : ∀ contact, (∀ sw ∈ Switch.named, sw.contact? ≠ some contact) →
    run.device.packets.flatMap (Packet.presses contact) = []

theorem Served.step {surroundings : Surroundings} {run : Run Desktop} {now : Nat}
    (h : Served run) (hconfined : (run.step surroundings.backend now).Confined (· ∈ Switch.named)) :
    Served (run.step surroundings.backend now) := by
  obtain ⟨hserving, hok, hwired, hunwired⟩ := h
  obtain ⟨call, calls, next, heq⟩ | ⟨hlog, hdevice⟩ :=
    run.step_called_or_silent surroundings.backend now
  · have hcall : call.Within (· ∈ Switch.named) := by
      apply hconfined.log ⟨next.purpose, call, _⟩
      rw [heq, Run.log_beginCall]
      exact List.mem_append_right _ List.mem_cons_self
    obtain ⟨current, request, hrequest, hreply, hafter, hpackets⟩ :=
      surroundings.exists_request hserving hcall now
    have hlog : (run.beginCall surroundings.backend now call calls next).log =
        run.log ++ [⟨next.purpose, call, true⟩] := by
      rw [Run.log_beginCall, hreply]
    change (run.beginCall surroundings.backend now call calls next).device.packets = _ at hpackets
    rw [heq]
    constructor
    · exact hafter
    · rw [hlog]
      intro a ha
      rcases List.mem_append.mp ha with ha | ha
      · exact hok a ha
      · rw [List.mem_singleton.mp ha]
    · intro sw hnamed contact hcontact
      rw [hpackets, hlog, List.flatMap_append, hwired sw hnamed contact hcontact, presses_append,
        presses_of_wired hcall hrequest hnamed hcontact next.purpose, presses_cons]
      change _ = _ ++ (_ ++ [])
      rw [List.append_nil]
    · intro contact hcontact
      rw [hpackets, List.flatMap_append, hunwired contact hcontact,
        presses_of_unwired hcall hrequest hcontact]
      rfl
  · constructor
    · rw [hdevice]
      exact hserving
    · rw [hlog]
      exact hok
    · rw [hlog, hdevice]
      exact hwired
    · rw [hdevice]
      exact hunwired

theorem Served.requestCancel {run : Run Desktop} (h : Served run) : Served run.requestCancel := by
  obtain ⟨hserving, hok, hwired, hunwired⟩ := h
  constructor <;> simp only [Run.requestCancel_device, Run.requestCancel_log] <;> assumption

theorem served_follow (surroundings : Surroundings) (settings : Settings) {timeline : Timeline}
    {desktop : Desktop} (begun : Nat) (moves : List Move)
    (htimeline : ∀ event ∈ timeline, ∀ sw, event.action.switch? = some sw → sw ∈ Switch.named)
    (hserving : desktop.Serving) (hsent : desktop.sent = []) :
    Served
      ((Run.ofTimeline settings timeline desktop begun).follow surroundings.backend moves) := by
  have hnothing : desktop.packets = [] := by simp [packets, hsent]
  have hfirst : Served (.ofTimeline settings timeline desktop begun) := by
    refine ⟨hserving, nofun, ?_, ?_⟩
    · intro sw hnamed contact hcontact
      change desktop.packets.flatMap _ = []
      rw [hnothing]
      rfl
    · intro contact hcontact
      change desktop.packets.flatMap _ = []
      rw [hnothing]
      rfl
  have hconfined := Run.confined_ofTimeline settings desktop begun htimeline
  refine (Run.follow_induction (P := fun run => run.Confined (· ∈ Switch.named) ∧ Served run)
    ?_ ⟨hconfined, hfirst⟩ moves).2
  rintro run m ⟨hconfined, hserved⟩
  refine ⟨hconfined.move m, ?_⟩
  cases m with
  | step now => exact hserved.step (hconfined.step now)
  | cancel => exact hserved.requestCancel

section Fresh

variable {surroundings : Surroundings} {settings : Settings} {timeline : Timeline}
variable {desktop : Desktop} {begun : Nat} {fresh : Run Desktop}
variable (hfresh : fresh = .ofTimeline settings timeline desktop begun) {instants : Nat → Nat}
variable {last : Nat} (hover : (fresh.nth surroundings.backend instants last).isOver = true)
variable (hserved : Served (fresh.nth surroundings.backend instants last))
include hfresh hover hserved

theorem completed_of_served :
    (fresh.nth surroundings.backend instants last).stage = .ended .completed ∧
      (Player.started (fresh.nth surroundings.backend instants last)).error = [] := by
  rw [← surroundings.passive_backend] at hover hserved ⊢
  exact Run.completed_of_ok surroundings.backend hfresh instants hover
    fun a ha _ => hserved.ok a ha

/-- A contact that no switch is wired to is never touched, and any other one is pressed and let go
of as its switch is. -/
theorem exists_pairs_of_served (contact : Contact) :
    ∃ n, (fresh.nth surroundings.backend instants last).device.packets.flatMap
      (Packet.presses contact) = (List.replicate n [.down, .up]).flatten := by
  by_cases hwired : ∃ sw ∈ Switch.named, sw.contact? = some contact
  · obtain ⟨sw, hnamed, hcontact⟩ := hwired
    rw [hserved.wired sw hnamed contact hcontact]
    have hphase : (fresh.nth surroundings.backend instants last).Phase surroundings.backend
        ⟨[], [], desktop.cursor⟩ := by
      rw [Run.nth_eq_follow, hfresh]
      exact Run.phase_follow ..
    exact Run.exists_pairs hphase hover hserved.ok sw
  · refine ⟨0, hserved.unwired contact ?_⟩
    simpa using hwired

end Fresh

end Desktop

/-- The actions that clauses are accepted for name no switches but these. -/
theorem Action.Accepted.named {platform : Platform} {action : Action} (h : action.Accepted platform)
    {sw : Switch} (hsw : action.switch? = some sw) : sw ∈ Switch.named := by
  rcases h with h | ⟨payload, rfl, -⟩
  · cases action with
    | button press number =>
      obtain rfl := Option.some.inj hsw
      exact Switch.button_mem_named h.1 h.2.1
    | key press code =>
      obtain rfl := Option.some.inj hsw
      obtain ⟨key, hkey, rfl, -⟩ := h
      exact Switch.key_mem_named hkey
    | _ => cases hsw
  · cases hsw

namespace Desktop

/-- A valid script can be played on a desktop from its first event to its last: the player takes it,
every call succeeds and the run is complete. Whatever becomes of the screen and the cursor
meanwhile, each key and each button is seen pressed and let go of by turns, first the one and
at last the other. The keys and buttons that scripts can name are seen to do what the calls say. -/
theorem plays_every_script (platform : Platform) (source : Bytes)
    (hvalid : (Script.compile platform source).isValid = true) (surroundings : Surroundings)
    (settings : Settings) (desktop : Desktop) (hserving : desktop.Serving)
    (hsent : desktop.sent = []) (begun : Nat) (instants : Nat → Nat) :
    let script := Script.compile platform source
    let plain := (Run.ofTimeline settings script.timeline desktop begun).nth
      surroundings.backend instants
    (Player.idle (some desktop)).start settings script begun = (.started (plain 0), true) ∧
    (∀ n, ∀ a ∈ (plain n).log, a.ok = true) ∧
    (∃ last, (plain last).isOver = true) ∧
    ∀ last, (plain last).isOver = true →
      let run := plain last
      let seen (contact : Contact) := run.device.packets.flatMap (Packet.presses contact)
      run.stage = .ended .completed ∧ (Player.started run).error = [] ∧
      (∀ contact, ∃ n, seen contact = (List.replicate n [.down, .up]).flatten) ∧
      ∀ sw ∈ Switch.named, ∃ contact, sw.contact? = some contact ∧
        seen contact = presses sw run.log := by
  intro script plain
  have hserved : ∀ n, Served (plain n) := by
    intro n
    simp only [plain, Run.nth_eq_follow]
    apply served_follow surroundings settings begun _ _ hserving hsent
    intro event hevent sw hsw
    exact (Script.accepted_of_mem_timeline hevent).named hsw
  refine ⟨?_, fun n => (hserved n).ok, Run.exists_nth_isOver .., ?_⟩
  · simp only [Player.start, script, hvalid, if_true]
    rfl
  · intro last hover run seen
    obtain ⟨hended, herror⟩ := completed_of_served rfl hover (hserved last)
    refine ⟨hended, herror, exists_pairs_of_served rfl hover (hserved last), ?_⟩
    intro sw hnamed
    obtain ⟨contact, hcontact⟩ :=
      Option.isSome_iff_exists.mp (Switch.isSome_contact?_of_named sw hnamed)
    exact ⟨contact, hcontact, (hserved last).wired sw hnamed contact hcontact⟩

theorem plays_every_script_shifted_letter :
    let script := Script.compile .macOS (ascii "5>keydown A;text x;release both\n0>keydown shift")
    let run := (Run.ofTimeline .standard script.timeline .standard 0).nth Desktop.backend id 40
    script.isValid = true ∧ Desktop.standard.Serving ∧ Desktop.standard.sent = [] ∧
      run.isOver = true ∧ run.stage = .ended .completed ∧
      ∃ n, run.device.packets.flatMap (Packet.presses (.key 0x10 (by decide))) =
        (List.replicate n [.down, .up]).flatten := by
  intro script run
  have hvalid : script.isValid = true := by decide +kernel
  have hserving : Desktop.standard.Serving := ⟨rfl, rfl⟩
  have hover : run.isOver = true := by decide +kernel
  obtain ⟨-, -, -, hplays⟩ := plays_every_script .macOS _ hvalid .calm .standard .standard hserving
    rfl 0 id
  rw [Surroundings.backend_calm] at hplays
  obtain ⟨hended, -, hpairs, -⟩ := hplays 40 hover
  exact ⟨hvalid, hserving, rfl, hover, hended, hpairs _⟩

end Desktop

end TimedInput
