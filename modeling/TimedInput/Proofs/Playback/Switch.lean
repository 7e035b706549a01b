import TimedInput.Playback.Run

/-!
# Switches

A key or a mouse button is a switch: one call presses it and another lets go of it. The
lists of an input state stay strictly ascending, so a call changes the position of its own
switch and of no other. What a log of calls makes of a switch can be read off its last
successful press.
-/

namespace TimedInput

section Ascending

variable {α : Type} [LT α] [DecidableLT α]

theorem mem_insertAscending [Std.Trichotomous (α := α) (· < ·)] {a b : α} {l : List α} :
    b ∈ insertAscending a l ↔ b = a ∨ b ∈ l := by
  induction l with
  | nil => simp [insertAscending]
  | cons c rest ih =>
    rw [insertAscending]
    split
    · simp
    · rename_i hac
      split
      · simp only [List.mem_cons, ih]
        exact or_left_comm
      · rename_i hca
        have heq : a = c := Std.Trichotomous.trichotomous a c hac hca
        simp [heq]

theorem pairwise_insertAscending [Std.Trichotomous (α := α) (· < ·)]
    [Trans (α := α) (· < ·) (· < ·) (· < ·)] {a : α} {l : List α} (h : l.Pairwise (· < ·)) :
    (insertAscending a l).Pairwise (· < ·) := by
  induction l with
  | nil => simp [insertAscending]
  | cons c rest ih =>
    obtain ⟨hc, hrest⟩ := List.pairwise_cons.mp h
    rw [insertAscending]
    split
    · rename_i hac
      refine List.pairwise_cons.mpr ⟨?_, h⟩
      intro b hb
      rcases List.mem_cons.mp hb with rfl | hb
      · exact hac
      · exact Trans.trans hac (hc b hb)
    · split
      · rename_i hca
        refine List.pairwise_cons.mpr ⟨?_, ih hrest⟩
        intro b hb
        rcases mem_insertAscending.mp hb with rfl | hb
        · exact hca
        · exact hc b hb
      · exact h

omit [DecidableLT α] in
theorem nodup_of_ascending [Std.Irrefl (α := α) (· < ·)] {l : List α}
    (h : l.Pairwise (· < ·)) : l.Nodup := by
  apply h.imp
  intro a b hab heq
  exact Std.Irrefl.irrefl (r := (· < · : α → α → Prop)) b (heq ▸ hab)

end Ascending

instance : Std.Irrefl (α := KeyCode) (· < ·) where
  irrefl a := Std.Irrefl.irrefl (r := (· < · : Int32 → Int32 → Prop)) a.value

instance : Std.Trichotomous (α := KeyCode) (· < ·) where
  trichotomous a b hab hba :=
    congrArg KeyCode.mk (Std.Trichotomous.trichotomous (r := (· < ·)) a.value b.value hab hba)

instance : Trans (α := KeyCode) (· < ·) (· < ·) (· < ·) where
  trans hab hbc :=
    Trans.trans (r := (· < · : Int32 → Int32 → Prop)) (s := (· < ·)) hab hbc

namespace InputState

/-- The lists are ascending and without repetition. -/
structure Ordered (s : InputState) : Prop where
  keys : s.keys.Pairwise (· < ·)
  buttons : s.buttons.Pairwise (· < ·)

theorem ordered_empty (pointer : Option Point) : Ordered ⟨[], [], pointer⟩ :=
  ⟨.nil, .nil⟩

theorem Ordered.after {s : InputState} (h : s.Ordered) (call : Call) : (s.after call).Ordered := by
  cases call with
  | keyDown code => exact ⟨pairwise_insertAscending h.keys, h.buttons⟩
  | buttonDown number => exact ⟨h.keys, pairwise_insertAscending h.buttons⟩
  | keyUp code => exact ⟨h.keys.sublist List.erase_sublist, h.buttons⟩
  | buttonUp number => exact ⟨h.keys, h.buttons.sublist List.erase_sublist⟩
  | moveAbsolute x y => exact ⟨h.keys, h.buttons⟩
  | moveRelative dx dy => exact ⟨h.keys, h.buttons⟩
  | typeCharacter c => exact h

end InputState

inductive Switch where
  | key (code : KeyCode)
  | button (number : Int32)
  deriving DecidableEq, Repr

namespace Switch

/-- The call that moves a switch to the given position. -/
def call (sw : Switch) (press : Press) : Call :=
  match sw, press with
  | .key code, .down => .keyDown code
  | .key code, .up => .keyUp code
  | .button number, .down => .buttonDown number
  | .button number, .up => .buttonUp number

theorem call_inj {a b : Switch} {p q : Press} (h : a.call p = b.call q) : a = b ∧ p = q := by
  cases a <;> cases b <;> cases p <;> cases q <;> simp_all [call]

def Held (s : InputState) : Switch → Prop
  | .key code => code ∈ s.keys
  | .button number => number ∈ s.buttons

instance (s : InputState) (sw : Switch) : Decidable (sw.Held s) :=
  match sw with
  | .key code => inferInstanceAs (Decidable (code ∈ s.keys))
  | .button number => inferInstanceAs (Decidable (number ∈ s.buttons))

theorem held_after {s : InputState} (hs : s.Ordered) (sw : Switch) (c : Call) :
    sw.Held (s.after c) ↔ c = sw.call .down ∨ sw.Held s ∧ c ≠ sw.call .up := by
  have hkeys := nodup_of_ascending hs.keys
  have hbuttons := nodup_of_ascending hs.buttons
  cases sw with
  | key code =>
    cases c
    case keyDown other =>
      simp [Held, call, InputState.after, InputState.holdKey, mem_insertAscending, eq_comm]
    case keyUp other =>
      simp only [Held, call, InputState.after, InputState.unholdKey, hkeys.mem_erase_iff]
      simp [and_comm, eq_comm]
    all_goals simp [Held, call, InputState.after, InputState.setPointer, InputState.movePointer,
      InputState.holdButton, InputState.unholdButton]
  | button number =>
    cases c
    case buttonDown other =>
      simp [Held, call, InputState.after, InputState.holdButton, mem_insertAscending, eq_comm]
    case buttonUp other =>
      simp only [Held, call, InputState.after, InputState.unholdButton, hbuttons.mem_erase_iff]
      simp [and_comm, eq_comm]
    all_goals simp [Held, call, InputState.after, InputState.setPointer, InputState.movePointer,
      InputState.holdKey, InputState.unholdKey]

/-- Whether the switch is down or up. -/
def position (s : InputState) (sw : Switch) : Press :=
  if sw.Held s then .down else .up

theorem position_eq_down {s : InputState} {sw : Switch} :
    sw.position s = .down ↔ sw.Held s := by
  unfold position
  split <;> simp_all

theorem position_empty (sw : Switch) (pointer : Option Point) :
    sw.position ⟨[], [], pointer⟩ = .up := by
  cases sw <;> simp [position, Held]

end Switch

namespace InputState

/-- Everything that is held, in the order in which it is let go of. -/
def switches (s : InputState) : List Switch :=
  s.keys.map .key ++ s.buttons.map .button

theorem mem_switches {s : InputState} {sw : Switch} : sw ∈ s.switches ↔ sw.Held s := by
  cases sw <;> simp [switches, Switch.Held]

theorem Ordered.nodup_switches {s : InputState} (h : s.Ordered) : s.switches.Nodup := by
  refine List.nodup_append.mpr ⟨?_, ?_, ?_⟩
  · exact List.Pairwise.map _ (fun a b hne heq => hne (Switch.key.inj heq))
      (nodup_of_ascending h.keys)
  · exact List.Pairwise.map _ (fun a b hne heq => hne (Switch.button.inj heq))
      (nodup_of_ascending h.buttons)
  · intro a ha b hb heq
    obtain ⟨code, _, rfl⟩ := List.mem_map.mp ha
    obtain ⟨number, _, rfl⟩ := List.mem_map.mp hb
    cases heq

theorem keyReleases_eq (s : InputState) :
    s.keyReleases = (s.keys.map Switch.key).map (·.call .up) := by
  simp [keyReleases, Switch.call]

theorem buttonReleases_eq (s : InputState) :
    s.buttonReleases = (s.buttons.map Switch.button).map (·.call .up) := by
  simp [buttonReleases, Switch.call]

theorem releases_eq (s : InputState) : s.releases = s.switches.map (·.call .up) := by
  simp only [releases, switches, List.map_append, keyReleases_eq, buttonReleases_eq]

theorem call_up_mem_releases {s : InputState} {sw : Switch} :
    sw.call .up ∈ s.releases ↔ sw.Held s := by
  rw [releases_eq, ← mem_switches]
  constructor
  · intro h
    obtain ⟨other, hother, heq⟩ := List.mem_map.mp h
    exact (Switch.call_inj heq).1 ▸ hother
  · exact fun h => List.mem_map_of_mem h

/-- Letting go of the first thing leaves the rest to be let go of. -/
theorem releases_after {s : InputState} {call : Call} {calls : List Call}
    (h : s.releases = call :: calls) : (s.after call).releases = calls := by
  obtain ⟨keys, buttons, pointer⟩ := s
  cases keys with
  | cons code keys =>
    simp only [releases, keyReleases, List.map_cons, List.cons_append, List.cons.injEq] at h
    obtain ⟨rfl, rfl⟩ := h
    simp [after, unholdKey, releases, keyReleases, buttonReleases]
  | nil =>
    cases buttons with
    | cons number buttons =>
      simp only [releases, keyReleases, buttonReleases, List.map_nil, List.nil_append,
        List.map_cons, List.cons.injEq] at h
      obtain ⟨rfl, rfl⟩ := h
      simp [after, unholdButton, releases, keyReleases, buttonReleases]
    | nil => simp [releases, keyReleases, buttonReleases] at h

theorem isEmpty_of_releases {s : InputState} (h : s.releases = []) : s.isEmpty = true := by
  simp only [releases, keyReleases, buttonReleases, List.append_eq_nil_iff,
    List.map_eq_nil_iff] at h
  simp [isEmpty, h]

end InputState

end TimedInput
