import Mathlib.Data.List.Chain
import TimedInput.Proofs.Playback.Switch

/-!
# Logs of calls

The log of a run is its calls with their answers, the earliest first. A log is orderly from
a state if it presses only what is up and lets go only of what is down, where a call that
failed has changed nothing. In an orderly log the successful presses of a switch alternate.
-/

namespace TimedInput

/-- A call that was made, and whether it succeeded. -/
structure Attempt where
  purpose : Purpose
  call : Call
  ok : Bool
  deriving DecidableEq, Repr

def Entry.attempt? : Entry → Option Attempt
  | .called _ purpose call reply => some ⟨purpose, call, reply.ok⟩
  | _ => none

/-- The calls of a history that has the latest entry first. -/
def attempts (history : List Entry) : List Attempt :=
  history.reverse.filterMap Entry.attempt?

theorem attempts_cons (entry : Entry) (history : List Entry) :
    attempts (entry :: history) = attempts history ++ entry.attempt?.toList := by
  cases h : entry.attempt? <;> simp [attempts, h]

def Run.log {σ : Type} (run : Run σ) : List Attempt :=
  attempts run.history

namespace Attempt

def success (call : Call) : Attempt :=
  ⟨.dispatch, call, true⟩

@[simp] theorem map_call_success (calls : List Call) :
    (calls.map success).map (·.call) = calls := by
  simp [success, Function.comp_def]

/-- The position into which a successful call moves the switch. -/
def press? (sw : Switch) (a : Attempt) : Option Press :=
  if a.ok = false then none
  else if a.call = sw.call .down then some .down
  else if a.call = sw.call .up then some .up
  else none

theorem press?_eq_some_iff {sw : Switch} {a : Attempt} {press : Press} :
    a.press? sw = some press ↔ a.ok = true ∧ a.call = sw.call press := by
  have hne : sw.call .down ≠ sw.call .up := fun h => nomatch (Switch.call_inj h).2
  unfold press?
  split
  · simp_all
  · split
    · cases press <;> simp_all
    · split <;> cases press <;> simp_all

end Attempt

/-- The positions that a switch was successfully moved into, one after the other. -/
def presses (sw : Switch) (log : List Attempt) : List Press :=
  log.filterMap (Attempt.press? sw)

theorem presses_cons (sw : Switch) (a : Attempt) (log : List Attempt) :
    presses sw (a :: log) = (a.press? sw).toList ++ presses sw log := by
  cases h : a.press? sw <;> simp [presses, h]

theorem presses_append (sw : Switch) (log more : List Attempt) :
    presses sw (log ++ more) = presses sw log ++ presses sw more :=
  List.filterMap_append

theorem mem_presses {sw : Switch} {log : List Attempt} {press : Press} :
    press ∈ presses sw log ↔ ∃ a ∈ log, a.ok = true ∧ a.call = sw.call press := by
  simp only [presses, List.mem_filterMap, Attempt.press?_eq_some_iff]

/-- The calls for events. -/
def dispatched (log : List Attempt) : List Attempt :=
  log.filter (·.purpose = .dispatch)

theorem dispatched_eq_self {log : List Attempt} (h : ∀ a ∈ log, a.purpose = .dispatch) :
    dispatched log = log :=
  List.filter_eq_self.mpr fun a ha => decide_eq_true (h a ha)

theorem dispatched_append_drained {log drained : List Attempt}
    (hlog : ∀ a ∈ log, a.purpose = .dispatch) (hdrained : ∀ a ∈ drained, a.purpose = .drain) :
    dispatched (log ++ drained) = log := by
  have hnil : dispatched drained = [] := by
    apply List.filter_eq_nil_iff.mpr
    intro a ha
    simp [hdrained a ha]
  rw [dispatched, List.filter_append]
  change dispatched log ++ dispatched drained = log
  rw [dispatched_eq_self hlog, hnil, List.append_nil]

/-- Presses that alternate from up and end there come in pairs. -/
theorem exists_pairs_of_isChain : ∀ {presses : List Press},
    (.up :: presses).IsChain (· ≠ ·) → presses.getLast? ≠ some .down →
      ∃ n, presses = (List.replicate n [.down, .up]).flatten
  | [], _, _ => ⟨0, rfl⟩
  | [.down], _, hlast => absurd rfl hlast
  | .up :: _, hchain, _ => by simp at hchain
  | .down :: .down :: _, hchain, _ => by simp at hchain
  | .down :: .up :: rest, hchain, hlast => by
    have hrest : (Press.up :: rest).IsChain (· ≠ ·) := hchain.tail.tail
    have hend : rest.getLast? ≠ some .down := by
      cases rest with
      | nil => simp
      | cons press rest => simpa using hlast
    obtain ⟨n, hn⟩ := exists_pairs_of_isChain hrest hend
    exact ⟨n + 1, by rw [hn]; rfl⟩

namespace InputState

/-- The state after a call, which has no effect if it fails. -/
def attempt (s : InputState) (a : Attempt) : InputState :=
  if a.ok = true then s.after a.call else s

def replay (s : InputState) (log : List Attempt) : InputState :=
  log.foldl attempt s

@[simp] theorem replay_nil (s : InputState) : s.replay [] = s := rfl

@[simp] theorem replay_cons (s : InputState) (a : Attempt) (log : List Attempt) :
    s.replay (a :: log) = (s.attempt a).replay log := rfl

@[simp] theorem replay_append (s : InputState) (log more : List Attempt) :
    s.replay (log ++ more) = (s.replay log).replay more :=
  List.foldl_append

@[simp] theorem attempt_success (s : InputState) (call : Call) :
    s.attempt (.success call) = s.after call := rfl

theorem Ordered.attempt {s : InputState} (h : s.Ordered) (a : Attempt) : (s.attempt a).Ordered := by
  unfold InputState.attempt
  split
  · exact h.after a.call
  · exact h

theorem Ordered.replay {s : InputState} (h : s.Ordered) (log : List Attempt) :
    (s.replay log).Ordered := by
  induction log generalizing s with
  | nil => exact h
  | cons a log ih => exact ih (h.attempt a)

theorem position_attempt {s : InputState} (hs : s.Ordered) (sw : Switch) (a : Attempt) :
    sw.position (s.attempt a) = (a.press? sw).getD (sw.position s) := by
  obtain ⟨purpose, call, ok⟩ := a
  have hne : sw.call .down ≠ sw.call .up := fun h => nomatch (Switch.call_inj h).2
  cases ok with
  | false => rfl
  | true =>
    have hafter := Switch.held_after hs sw call
    simp only [attempt, Attempt.press?, Switch.position, hafter, if_true]
    by_cases hdown : call = sw.call .down
    · simp [hdown]
    · by_cases hup : call = sw.call .up
      · simp [hup, hne.symm]
      · simp [hdown, hup]

/-- A switch is where its last successful press has left it. -/
theorem position_replay {s : InputState} (hs : s.Ordered) (sw : Switch) (log : List Attempt) :
    sw.position (s.replay log) = (presses sw log).getLast?.getD (sw.position s) := by
  induction log generalizing s with
  | nil => rfl
  | cons a log ih =>
    rw [replay_cons, ih (hs.attempt a), position_attempt hs, presses_cons, List.getLast?_append]
    cases (presses sw log).getLast? with
    | some press => rfl
    | none => cases a.press? sw <;> rfl

theorem held_replay_iff {s : InputState} (hs : s.Ordered) {sw : Switch}
    (hup : sw.position s = .up) (log : List Attempt) :
    sw.Held (s.replay log) ↔ (presses sw log).getLast? = some .down := by
  rw [← Switch.position_eq_down, position_replay hs, hup]
  cases (presses sw log).getLast? <;> simp

/-- May the call be made? Only what is up is pressed, and only what is down is let go of. -/
def Admits (s : InputState) (call : Call) : Prop :=
  ∀ (sw : Switch) (press : Press), call = sw.call press → (sw.Held s ↔ press = .up)

def Orderly (s : InputState) : List Attempt → Prop
  | [] => True
  | a :: log => s.Admits a.call ∧ (s.attempt a).Orderly log

theorem orderly_append {s : InputState} {log more : List Attempt} :
    s.Orderly (log ++ more) ↔ s.Orderly log ∧ (s.replay log).Orderly more := by
  induction log generalizing s with
  | nil => simp [Orderly]
  | cons a log ih =>
    simp only [List.cons_append, Orderly, ih, replay_cons, and_assoc]

theorem Orderly.snoc {s : InputState} {log : List Attempt} (h : s.Orderly log) {a : Attempt}
    (ha : (s.replay log).Admits a.call) : s.Orderly (log ++ [a]) :=
  orderly_append.mpr ⟨h, ha, trivial⟩

theorem orderly_of_idle {s : InputState} {log : List Attempt}
    (h : ∀ a ∈ log, ∀ (sw : Switch) (press : Press), a.call ≠ sw.call press) : s.Orderly log := by
  induction log generalizing s with
  | nil => trivial
  | cons a log ih =>
    refine ⟨?_, ih (fun b hb => h b (List.mem_cons_of_mem a hb))⟩
    intro sw press heq
    exact absurd heq (h a List.mem_cons_self sw press)

/-- A switch is pressed or let go of, unless it is already where it is to be. -/
theorem orderly_optional {s : InputState} (sw : Switch) (press : Press) {calls : List Call}
    (h : calls = [] ∨ (sw.Held s ↔ press = .up) ∧ calls = [sw.call press]) :
    s.Orderly (calls.map .success) := by
  rcases h with rfl | ⟨hheld, rfl⟩
  · trivial
  · refine ⟨?_, trivial⟩
    intro other position heq
    obtain ⟨rfl, rfl⟩ := Switch.call_inj heq
    exact hheld

/-- Different held switches can be let go of in any order, whichever of the calls fail. -/
theorem orderly_releases {s : InputState} (hs : s.Ordered) {log : List Attempt}
    (held : List Switch) (hlog : log.map (·.call) = held.map (·.call .up)) (hnodup : held.Nodup)
    (hheld : ∀ sw ∈ held, sw.Held s) : s.Orderly log := by
  induction log generalizing s held with
  | nil => trivial
  | cons a log ih =>
    cases held with
    | nil => cases hlog
    | cons sw held =>
      simp only [List.map_cons, List.cons.injEq] at hlog
      obtain ⟨hcall, hlog⟩ := hlog
      obtain ⟨hnotin, hnodup⟩ := List.nodup_cons.mp hnodup
      refine ⟨?_, ih (hs.attempt a) held hlog hnodup ?_⟩
      · intro other press heq
        obtain ⟨rfl, rfl⟩ := Switch.call_inj (hcall.symm.trans heq)
        simp [hheld sw List.mem_cons_self]
      · intro other hother
        have hne : other ≠ sw := fun heq => hnotin (heq ▸ hother)
        unfold attempt
        split
        · refine (Switch.held_after hs other a.call).mpr (.inr ⟨?_, ?_⟩)
          · exact hheld other (List.mem_cons_of_mem sw hother)
          · intro heq
            exact hne (Switch.call_inj (hcall.symm.trans heq)).1.symm
        · exact hheld other (List.mem_cons_of_mem sw hother)

/-- From where it is, a switch is moved to and fro. -/
theorem isChain_presses {s : InputState} (hs : s.Ordered) {log : List Attempt}
    (h : s.Orderly log) (sw : Switch) : (sw.position s :: presses sw log).IsChain (· ≠ ·) := by
  induction log generalizing s with
  | nil => exact .singleton _
  | cons a log ih =>
    have hrest := ih (hs.attempt a) h.2
    rw [position_attempt hs] at hrest
    rw [presses_cons]
    cases hpress : a.press? sw with
    | none => simpa [hpress] using hrest
    | some press =>
      rw [hpress] at hrest
      refine .cons_cons ?_ hrest
      have hadmits := h.1 sw press (Attempt.press?_eq_some_iff.mp hpress).2
      intro heq
      unfold Switch.position at heq
      split at heq <;> simp_all

/-- If the calls that let go of everything succeed, nothing is held after them. -/
theorem releases_replay {s : InputState} {log : List Attempt}
    (hok : ∀ a ∈ log, a.ok = true) (hlog : log.map (·.call) = s.releases) :
    (s.replay log).releases = [] := by
  induction log generalizing s with
  | nil => exact hlog.symm
  | cons a log ih =>
    have ha : s.attempt a = s.after a.call := by
      rw [attempt, if_pos (hok a List.mem_cons_self)]
    rw [replay_cons, ha]
    apply ih
    · exact fun b hb => hok b (List.mem_cons_of_mem a hb)
    · exact (releases_after hlog.symm).symm

end InputState

end TimedInput
