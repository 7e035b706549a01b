import TimedInput.Backend.Rehearsal
import TimedInput.Proofs.Playback.Chronicle

/-!
# Watching a run

An owner who waits, sleeps and asks, but neither cancels nor closes the player, decides only when
the clock moves on. The run that such an owner watches is the one that a single long wait
plays, and the answers to waits of limited time say when it ends.
-/

namespace TimedInput

variable {σ : Type}

/-- As long as no word wraps, a wait lasts as long as it is meant to. -/
theorem Instant.waited_of_fits {now : Nat} {ms : UInt64}
    (hleast : -9223372036854775808 ≤ ms.toInt64.toInt * 1000000)
    (hmost : now + ms.toInt64.toInt * 1000000 < 9223372036854775808) :
    waited now ms = (ms.toInt64.toInt * 1000000).toNat := by
  have hword : (ms.toInt64 * 1000000).toInt = ms.toInt64.toInt * 1000000 := by
    have hmillion : Int64.toInt 1000000 = 1000000 := rfl
    rw [Int64.toInt_mul, hmillion]
    exact Int.bmod_eq_of_le (by omega) (by omega)
  have hspan : ofWait ms = (ms.toInt64.toInt * 1000000).toNat := by
    rw [ofWait, Int64.toNatClampNeg, hword]
  rw [waited, hspan, ite_eq_left_iff]
  omega

/-- A wait of three hundred years is over at once. -/
example : Instant.waited 0 9467085600000 = 0 := by decide

/-- What an owner does who only watches. Waits are in milliseconds. -/
inductive Watch where
  | wait
  | waitFor (ms : UInt64)
  | sleep (span : Nat)
  | askState
  | askError
  | askInputState
  deriving DecidableEq, Repr

/-- What such an act tells. -/
inductive Sight where
  | state (state : PlayState)
  | settled (settled : Bool)
  | error (error : Bytes)
  | inputState (inputState : InputState)
  | nothing
  deriving DecidableEq

/-- Whatever plays at that time, such an act takes no time. -/
def Watch.isInstant (clock : Nat) : Watch → Bool
  | .wait => false
  | .waitFor ms => Instant.waited clock ms == 0
  | .sleep span => span == 0
  | .askState | .askError | .askInputState => true

namespace Session

def watch (s : Session σ) : Watch → Session σ × Sight
  | .wait => (s.wait, .state s.wait.state)
  | .waitFor ms =>
    let span := Instant.waited s.clock ms
    ((s.waitFor span).1, .settled (s.waitFor span).2)
  | .sleep span => (s.sleep span, .nothing)
  | .askState => (s, .state s.state)
  | .askError => (s, .error s.player.error)
  | .askInputState => (s, .inputState s.player.inputState)

def watchAll (s : Session σ) (acts : List Watch) : Session σ :=
  acts.foldl (fun s act => (s.watch act).1) s

/-- What happened between two moments of a session, in its order. -/
def news (before after : Session σ) : List Entry :=
  let count := after.player.history.length - before.player.history.length
  (after.player.history.take count).reverse

/-- What happened during each act, one act after the other. -/
def chronicle (s : Session σ) : List Watch → List Entry
  | [] => []
  | act :: acts => s.news (s.watch act).1 ++ (s.watch act).1.chronicle acts

theorem suffix_history_play (s : Session σ) (deadline : Option Nat) :
    s.player.history <:+ (s.play deadline).player.history := by
  obtain ⟨backend, settings, clock, player⟩ := s
  cases player with
  | started run =>
    obtain ⟨new, hnew, -⟩ := run.exists_history_playUntil backend deadline clock
    exact ⟨new, hnew.symm⟩
  | _ => exact List.suffix_rfl

theorem suffix_history_waitFor (s : Session σ) (span : Nat) :
    s.player.history <:+ (s.waitFor span).1.player.history := by
  have hplay := s.suffix_history_play (some (s.clock + span))
  simp only [waitFor]
  split
  · exact List.suffix_rfl
  · split
    · exact hplay
    · exact hplay

theorem suffix_history_sleep (s : Session σ) (span : Nat) :
    s.player.history <:+ (s.sleep span).player.history := by
  have hplay := s.suffix_history_play (some (s.clock + span))
  simp only [sleep]
  split
  · exact List.suffix_rfl
  · exact hplay

theorem suffix_history_watch (s : Session σ) (act : Watch) :
    s.player.history <:+ (s.watch act).1.player.history := by
  cases act with
  | wait => exact s.suffix_history_play none
  | waitFor ms => exact s.suffix_history_waitFor (Instant.waited s.clock ms)
  | sleep span => exact s.suffix_history_sleep span
  | _ => exact List.suffix_rfl

theorem append_news {s t : Session σ} (h : s.player.history <:+ t.player.history) :
    s.player.history.reverse ++ s.news t = t.player.history.reverse := by
  obtain ⟨new, hnew⟩ := h
  have hcount : t.player.history.length - s.player.history.length = new.length := by
    rw [← hnew, List.length_append]
    omega
  rw [news, hcount, ← hnew, List.take_left, List.reverse_append]

/-- The pieces of a chronicle fit together. -/
theorem append_chronicle (s : Session σ) (acts : List Watch) :
    s.player.history.reverse ++ s.chronicle acts =
      (s.watchAll acts).player.history.reverse := by
  induction acts generalizing s with
  | nil => exact List.append_nil _
  | cons act acts ih =>
    rw [chronicle, ← List.append_assoc, append_news (s.suffix_history_watch act)]
    exact ih (s.watch act).1

theorem watchAll_append (s : Session σ) (acts others : List Watch) :
    s.watchAll (acts ++ others) = (s.watchAll acts).watchAll others :=
  List.foldl_append

theorem watch_of_isInstant (s : Session σ) {act : Watch} (h : act.isInstant s.clock = true) :
    (s.watch act).1 = s := by
  cases act with
  | wait => cases h
  | waitFor ms =>
    have hspan : Instant.waited s.clock ms = 0 := by simpa [Watch.isInstant] using h
    simp [watch, waitFor, hspan]
  | sleep span =>
    have hspan : span = 0 := by simpa [Watch.isInstant] using h
    simp [watch, sleep, hspan]
  | _ => rfl

theorem wait_of_isSettled {s : Session σ} (h : s.isSettled = true) : s.wait = s := by
  obtain ⟨backend, settings, clock, player⟩ := s
  cases player with
  | started run =>
    rw [isSettled_started] at h
    simp only [wait, play, Run.playUntil_of_isOver backend _ _ h]
  | _ => rfl

theorem waitFor_of_isSettled {s : Session σ} (h : s.isSettled = true) (span : Nat) :
    s.waitFor span = (s, true) := by
  simp [waitFor, h]

theorem isSettled_wait (s : Session σ) : s.wait.isSettled = true := by
  obtain ⟨backend, settings, clock, player⟩ := s
  cases player with
  | started run =>
    have hover := run.isOver_playUntil backend clock
    simpa [wait, play] using hover
  | _ => rfl

/-- A run that has come to its end during a sleep is the one that a wait leaves. -/
theorem player_sleep_of_isSettled {s : Session σ} {span : Nat}
    (h : (s.sleep span).isSettled = true) : (s.sleep span).player = s.wait.player := by
  obtain ⟨backend, settings, clock, player⟩ := s
  by_cases hspan : span = 0
  · have hsleep : sleep (mk backend settings clock player) span =
        mk backend settings clock player := by simp [sleep, hspan]
    rw [hsleep] at h ⊢
    rw [wait_of_isSettled h]
  cases player with
  | started run =>
    have hwhole := run.playUntil_none_resume backend (clock + span) clock
    simp only [sleep, hspan, if_false, play, isSettled_started] at h
    simp only [Run.playUntil_of_isOver backend _ _ h] at hwhole
    simp only [sleep, hspan, if_false, play, wait, ← hwhole]
  | _ => simp [sleep, hspan, play, wait]

/-- Where a session can come to when time passes that was begun at another moment: its end is
still to come, or it is over. -/
inductive Onward (begun : Session σ) : Session σ → Prop where
  | pending {s : Session σ} (h : s.isSettled = false) (hwait : s.wait = begun.wait)
    (hclock : s.clock < begun.wait.clock) : Onward begun s
  | finished {s : Session σ} (h : s.isSettled = true) (hplayer : s.player = begun.wait.player)
    (hclock : begun.wait.clock ≤ s.clock) : Onward begun s

section Onward

variable {begun s : Session σ}

theorem onward_wait (hwait : s.wait = begun.wait) : Onward begun s.wait := by
  apply Onward.finished
  · exact s.isSettled_wait
  · rw [hwait]
  · rw [hwait]

theorem onward_sleep (h : s.isSettled = false) (hwait : s.wait = begun.wait) {span : Nat}
    (hspan : span ≠ 0) : Onward begun (s.sleep span) := by
  have hiff := isSettled_sleep_iff h hspan
  rw [hwait] at hiff
  cases hsettled : (s.sleep span).isSettled with
  | true =>
    refine .finished hsettled ?_ ?_
    · rw [player_sleep_of_isSettled hsettled, hwait]
    · rw [clock_sleep]
      exact hiff.mp hsettled
  | false =>
    refine .pending hsettled ((wait_sleep hsettled).trans hwait) ?_
    rw [clock_sleep]
    rw [hsettled] at hiff
    simpa using hiff

theorem onward_waitFor (h : s.isSettled = false) (hwait : s.wait = begun.wait) {span : Nat}
    (hspan : span ≠ 0) : Onward begun (s.waitFor span).1 := by
  rw [waitFor_eq hspan]
  split
  · exact onward_wait hwait
  · exact onward_sleep h hwait hspan

theorem onward_watch (h : s.isSettled = false) (hwait : s.wait = begun.wait) {act : Watch}
    (hact : act.isInstant s.clock = false) : Onward begun (s.watch act).1 := by
  cases act with
  | wait => exact onward_wait hwait
  | waitFor ms =>
    have hspan : Instant.waited s.clock ms ≠ 0 := by simpa [Watch.isInstant] using hact
    exact onward_waitFor h hwait hspan
  | sleep span =>
    have hspan : span ≠ 0 := by simpa [Watch.isInstant] using hact
    exact onward_sleep h hwait hspan
  | _ => cases hact

/-- What is over stays as it is, while the clock may go on. -/
theorem watch_of_isSettled (h : s.isSettled = true) (act : Watch) :
    (s.watch act).1.isSettled = true ∧ (s.watch act).1.player = s.player ∧
      s.clock ≤ (s.watch act).1.clock := by
  have hwait := wait_of_isSettled h
  cases act with
  | wait =>
    rw [watch, hwait]
    exact ⟨h, rfl, Nat.le_refl _⟩
  | waitFor ms =>
    rw [watch, waitFor_of_isSettled h]
    exact ⟨h, rfl, Nat.le_refl _⟩
  | sleep span =>
    have hsleep := isSettled_sleep_of_isSettled h span
    refine ⟨hsleep, ?_, ?_⟩
    · rw [watch, player_sleep_of_isSettled hsleep, hwait]
    · rw [watch, clock_sleep]
      omega
  | _ => exact ⟨h, rfl, Nat.le_refl _⟩

theorem Onward.watch (h : Onward begun s) (act : Watch) : Onward begun (s.watch act).1 := by
  cases h with
  | pending hpending hwait hclock =>
    cases hact : act.isInstant s.clock with
    | true =>
      rw [watch_of_isInstant s hact]
      exact .pending hpending hwait hclock
    | false => exact onward_watch hpending hwait hact
  | finished hsettled hplayer hclock =>
    obtain ⟨hsettled', hplayer', hclock'⟩ := watch_of_isSettled hsettled act
    exact .finished hsettled' (hplayer'.trans hplayer) (Nat.le_trans hclock hclock')

theorem Onward.watchAll (h : Onward begun s) (acts : List Watch) :
    Onward begun (s.watchAll acts) := by
  induction acts generalizing s with
  | nil => exact h
  | cons act acts ih => exact ih (h.watch act)

/-- As long as every act is instantaneous, a session stays where it has begun. -/
theorem watchAll_cases (h : begun.isSettled = false) (acts : List Watch) :
    (acts.all (·.isInstant begun.clock) = true ∧ begun.watchAll acts = begun) ∨
      (acts.all (·.isInstant begun.clock) = false ∧ Onward begun (begun.watchAll acts)) := by
  induction acts with
  | nil => exact .inl ⟨rfl, rfl⟩
  | cons act acts ih =>
    cases hact : act.isInstant begun.clock with
    | true =>
      have hcons : begun.watchAll (act :: acts) = begun.watchAll acts :=
        congrArg (Session.watchAll · acts) (begun.watch_of_isInstant hact)
      rw [hcons, List.all_cons, hact, Bool.true_and]
      exact ih
    | false =>
      refine .inr ⟨?_, (onward_watch h rfl hact).watchAll acts⟩
      rw [List.all_cons, hact, Bool.false_and]

theorem Onward.player_wait (h : Onward begun s) : s.wait.player = begun.wait.player := by
  cases h with
  | pending hpending hwait hclock => rw [hwait]
  | finished hsettled hplayer hclock => rw [wait_of_isSettled hsettled, hplayer]

theorem waitFor_eq_false_iff (h : s.isSettled = false) (hwait : s.wait = begun.wait) {span : Nat}
    (hspan : span ≠ 0) : (s.waitFor span).2 = false ↔ s.clock + span < begun.wait.clock := by
  have hiff := isSettled_sleep_iff h hspan
  rw [hwait] at hiff
  rw [waitFor_eq hspan]
  cases hsettled : (s.sleep span).isSettled with
  | true =>
    have hle := hiff.mp hsettled
    simp only [if_true, Bool.true_eq_false, false_iff]
    omega
  | false =>
    rw [hsettled] at hiff
    simpa using hiff

/-- Once time has passed, a wait of limited time says whether the end is later than its own. -/
theorem Onward.waitFor_eq_false_iff (h : Onward begun s) (span : Nat) :
    (s.waitFor span).2 = false ↔ s.clock + span < begun.wait.clock := by
  cases h with
  | pending hpending hwait hclock =>
    by_cases hspan : span = 0
    · simpa [waitFor, hspan, hpending] using hclock
    · exact Session.waitFor_eq_false_iff hpending hwait hspan
  | finished hsettled hplayer hclock =>
    simp only [waitFor_of_isSettled hsettled, Bool.true_eq_false, false_iff]
    omega

end Onward

/-- Whoever only watches sees the same run in the end, act by act. A wait of limited time says no
if the run ends later than it, and if it lasts no time at all and none has passed yet, as long as
its nanoseconds and the clock at its end are signed words. -/
theorem watching_disturbs_nothing (backend : Backend σ) (settings : Settings) (device : σ)
    (clock : Nat) {script : Script} (hscript : script.isValid = true)
    (acts others : List Watch) :
    let begun := ((new backend settings (some device) clock).start script).1
    let last := begun.watchAll (acts ++ [.wait])
    let other := begun.watchAll (others ++ [.wait])
    begun.chronicle (acts ++ [.wait]) = begun.chronicle (others ++ [.wait]) ∧
      last.player.printed settings.verbose = other.player.printed settings.verbose ∧
      last.state = other.state ∧ last.player.error = other.player.error ∧
      last.player.inputState = other.player.inputState ∧
      ∀ ms : UInt64,
        let now := (begun.watchAll acts).clock
        let span := ms.toInt64.toInt * 1000000
        now + span < 9223372036854775808 → -9223372036854775808 ≤ span →
          (((begun.watchAll acts).watch (.waitFor ms)).2 = .settled false ↔
            now + span.toNat < begun.wait.clock ∨
              (span ≤ 0 ∧ acts.all (·.isInstant clock) = true)) := by
  intro begun last other
  have hclock : begun.clock = clock := rfl
  have hplayer : begun.player =
      .started (Run.ofTimeline settings script.timeline device clock) := by
    simp [begun, start, new, Player.start, hscript]
  have hpending : begun.isSettled = false := by
    simp [isSettled, state, hplayer, Player.state, Run.ofTimeline]
  have hhistory : begun.player.history = [] := by
    rw [hplayer]
    rfl
  have hend : ∀ acts, (begun.watchAll (acts ++ [.wait])).player = begun.wait.player := by
    intro acts
    rw [watchAll_append]
    change (begun.watchAll acts).wait.player = _
    rcases watchAll_cases hpending acts with ⟨-, hacts⟩ | ⟨-, honward⟩
    · rw [hacts]
    · exact honward.player_wait
  have hchronicle : ∀ acts, begun.chronicle (acts ++ [.wait]) =
      begun.wait.player.history.reverse := by
    intro acts
    have h := begun.append_chronicle (acts ++ [.wait])
    rwa [hhistory, hend, List.reverse_nil, List.nil_append] at h
  have hlast : last.player = other.player := (hend acts).trans (hend others).symm
  refine ⟨(hchronicle acts).trans (hchronicle others).symm, by rw [hlast],
    congrArg Player.state hlast, by rw [hlast], by rw [hlast], ?_⟩
  intro ms now span hmost hleast
  have hwaited : Instant.waited (begun.watchAll acts).clock ms = span.toNat :=
    Instant.waited_of_fits hleast hmost
  have hzero : span ≤ 0 ↔ span.toNat = 0 := Int.toNat_eq_zero.symm
  rw [watch, hwaited, Sight.settled.injEq, hzero]
  rcases watchAll_cases hpending acts with ⟨hall, hacts⟩ | ⟨hall, honward⟩
  · rw [hclock] at hall
    simp only [now, hacts, hall]
    by_cases hspan : span.toNat = 0
    · simp [waitFor, hspan, hpending]
    · simp [waitFor_eq_false_iff hpending rfl hspan, hspan]
  · rw [hclock] at hall
    rw [honward.waitFor_eq_false_iff, hall]
    simp [now]

theorem watching_disturbs_nothing_held_key :
    let script : Script := ⟨.linux, [⟨5, .key .down ⟨97⟩, 0⟩], [], []⟩
    let begun := ((new Rehearsal.backend .standard (some .smooth) 0).start script).1
    script.isValid = true ∧
      begun.chronicle [.waitFor 2, .askState, .sleep 1000000, .wait] = begun.chronicle [.wait] ∧
      (begun.watchAll [.waitFor 2, .askState, .sleep 1000000, .wait]).state =
        (begun.watchAll [.wait]).state ∧
      (begun.watch (.waitFor 0)).2 = .settled false := by
  intro script begun
  have hscript : script.isValid = true := rfl
  obtain ⟨hchronicle, -, hstate, -, -, -⟩ := watching_disturbs_nothing Rehearsal.backend
    .standard .smooth 0 hscript [.waitFor 2, .askState, .sleep 1000000] []
  obtain ⟨-, -, -, -, -, hanswer⟩ := watching_disturbs_nothing Rehearsal.backend
    .standard .smooth 0 hscript [] []
  exact ⟨hscript, hchronicle, hstate, (hanswer 0 (by decide) (by decide)).mpr (.inr ⟨by decide, rfl⟩)⟩

/-- The run of an empty timeline ends when it begins, but a wait for no time does not see that. -/
theorem waitFor_zero_misses_end :
    let begun := ((new Rehearsal.backend .standard (some .smooth) 0).start .empty).1
    ¬((begun.watch (.waitFor 0)).2 = .settled false ↔
      begun.clock + Instant.ofMilliseconds 0 < begun.wait.clock) := by
  intro begun
  let run := Run.ofTimeline .standard [] Rehearsal.smooth 0
  have hbegun : begun = mk Rehearsal.backend .standard 0 (.started run) := rfl
  have hend : begun.wait.clock = 0 := by
    have hplayed : (run.playUntil Rehearsal.backend none 0).1 = 0 := by
      rw [Run.playUntil_of_ready _ rfl (Nat.le_refl 0) (by simp),
        Run.playUntil_of_ready _ rfl (Nat.le_refl 0) (by simp),
        Run.playUntil_of_ready _ rfl (Nat.le_refl 0) (by simp), Run.playUntil_of_isOver _ _ _ rfl]
    rw [hbegun]
    exact hplayed
  have hanswer : (begun.watch (.waitFor 0)).2 = .settled false := by
    have hspan : Instant.waited 0 0 = 0 := rfl
    have hover : run.isOver = false := rfl
    simp [hbegun, watch, waitFor, hspan, hover]
  intro h
  have hlater := h.mp hanswer
  rw [hend] at hlater
  exact Nat.not_lt_zero _ hlater

end Session

end TimedInput
