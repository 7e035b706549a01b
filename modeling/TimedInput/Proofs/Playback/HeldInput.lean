import TimedInput.Proofs.Playback.Phase

/-!
# Held input

No input that was pressed outlives its run, whichever calls fail and whenever the run is
cancelled: a run presses only what is up and lets go only of what is down, and what is held
when it has dispatched its last event is released before it is over.
-/

namespace TimedInput

namespace Run

variable {σ : Type}

theorem Phase.orderly {backend : Backend σ} {first : InputState} (hfirst : first.Ordered)
    {run : Run σ} (h : run.Phase backend first) : first.Orderly run.log := by
  rcases h with h | ⟨front, outcome, horderly, -, h⟩
  · unfold Dispatching at h
    split at h
    · rw [h.1]
      trivial
    · exact h.orderly
    · exact h.1.orderly
    · obtain ⟨done, hlog, hplayed, hadmits, -⟩ := h
      rw [hlog]
      exact hplayed.orderly.snoc (hplayed.state_eq ▸ hadmits)
    · exact h.elim
  · obtain ⟨back, calls, hlog, -, hback⟩ := h.exists_back
    have hheld := hfirst.replay front
    have hall : (first.replay front).Orderly (back ++ calls.map .success) := by
      apply InputState.orderly_releases hheld _ _ hheld.nodup_switches
        (fun sw => InputState.mem_switches.mp)
      rw [List.map_append, Attempt.map_call_success, hback, InputState.releases_eq]
    rw [hlog]
    exact InputState.orderly_append.mpr ⟨horderly, (InputState.orderly_append.mp hall).1⟩

/-- A call is under way. -/
def isCalling (run : Run σ) : Bool :=
  match run.stage with
  | .answer .. => true
  | _ => false

theorem Phase.held_iff {backend : Backend σ} {first : InputState} {run : Run σ}
    (h : run.Phase backend first) (hcalling : run.isCalling = false)
    (hlog : ∀ a ∈ run.log, a.purpose = .dispatch) (sw : Switch) :
    sw.Held run.state ↔ sw.Held (first.replay run.log) := by
  rcases h with h | ⟨front, outcome, -, -, back, hfront, hdrain, hstage⟩
  · unfold Dispatching at h
    unfold isCalling at hcalling
    split at h
    · obtain ⟨hnil, hstate, hpointer⟩ := h
      rw [hnil, hstate, hpointer]
      cases sw <;> rfl
    · rw [h.state_eq]
    · rw [h.1.state_eq]
    · simp_all
    · exact h.elim
  · have hback : back = [] := by
      apply List.eq_nil_iff_forall_not_mem.mpr
      intro a ha
      have hdispatch := hlog a (hfront ▸ List.mem_append_right front ha)
      rw [hdrain a ha] at hdispatch
      cases hdispatch
    have hreleases : run.state.releases = (first.replay front).releases := by
      unfold isCalling at hcalling
      split at hstage
      · exact hstage.2.2.trans (by simpa [hback] using hstage.2.1)
      · simp_all
      · exact hstage.2.2.trans (by simpa [hback] using hstage.2.1)
      · exact hstage.elim
    rw [hfront, hback, List.append_nil, ← InputState.call_up_mem_releases, hreleases,
      InputState.call_up_mem_releases]

theorem Phase.admits {backend : Backend σ} {first : InputState} {run : Run σ}
    (h : run.Phase backend first) {call : Call} {calls : List Call} {next : Next}
    (hstage : run.stage = .issue (call :: calls) next) : run.state.Admits call := by
  rcases h with h | ⟨front, outcome, -, -, back, -, -, h⟩
  · cases next with
    | proceed todo =>
      simp only [Dispatching, hstage] at h
      exact h.2.1
    | finish o => simp [Dispatching, hstage] at h
  · cases next with
    | proceed todo => simp [hstage] at h
    | finish o =>
      simp only [hstage] at h
      obtain ⟨-, -, hreleases⟩ := h
      intro sw press heq
      rw [InputState.releases_eq] at hreleases
      have hmem : call ∈ run.state.switches.map (·.call .up) := hreleases ▸ List.mem_cons_self
      obtain ⟨other, hother, hcall⟩ := List.mem_map.mp hmem
      obtain ⟨rfl, rfl⟩ := Switch.call_inj (hcall.trans heq)
      simpa using InputState.mem_switches.mp hother

/-- Every successful press is answered by an attempt to let go, and if all these attempts fail, the
last one is made when the run releases what it holds. -/
theorem ups_of_down {first : InputState} (hfirst : first.Ordered) {front back : List Attempt}
    {sw : Switch} (hup : sw.position first = .up) (hdrain : ∀ a ∈ back, a.purpose = .drain)
    (hback : back.map (·.call) = (first.replay front).releases)
    {before after : List Attempt} {purpose : Purpose}
    (hlog : front ++ back = before ++ ⟨purpose, sw.call .down, true⟩ :: after) :
    let ups := after.filter (·.call = sw.call .up)
    ups ≠ [] ∧ ((∀ a ∈ ups, a.ok = false) → ups.getLast?.map (·.purpose) = some .drain) := by
  intro ups
  have hnotback : ⟨purpose, sw.call .down, true⟩ ∉ back := by
    intro hmem
    have hcall := hback ▸ List.mem_map_of_mem (f := Attempt.call) hmem
    rw [InputState.releases_eq] at hcall
    obtain ⟨other, -, heq⟩ := List.mem_map.mp hcall
    cases (Switch.call_inj heq).2
  obtain ⟨rest, hfront, rfl⟩ : ∃ rest,
      front = before ++ ⟨purpose, sw.call .down, true⟩ :: rest ∧ after = rest ++ back := by
    rcases List.append_eq_append_iff.mp hlog with ⟨more, -, h⟩ | ⟨more, hfront, h⟩
    · exact absurd (by simp [h]) hnotback
    · cases more with
      | nil =>
        have hback : back = ⟨purpose, sw.call .down, true⟩ :: after := h.symm
        exact absurd (hback ▸ List.mem_cons_self) hnotback
      | cons a rest =>
        obtain ⟨rfl, rfl⟩ := List.cons.inj h
        exact ⟨rest, hfront, rfl⟩
  by_cases hheld : sw.Held (first.replay front)
  · -- what is still held is released at the end, and these calls come last
    obtain ⟨a, ha, hcall⟩ := List.mem_map.mp (hback ▸ InputState.call_up_mem_releases.mpr hheld)
    have hin : a ∈ back.filter (·.call = sw.call .up) :=
      List.mem_filter.mpr ⟨ha, decide_eq_true hcall⟩
    obtain ⟨last, hlast⟩ : ∃ last, (back.filter (·.call = sw.call .up)).getLast? = some last :=
      ⟨_, List.getLast?_eq_some_getLast (List.ne_nil_of_mem hin)⟩
    have hups : ups.getLast? = some last := by
      simp only [ups, List.filter_append, List.getLast?_append, hlast, Option.some_or]
    refine ⟨fun h => by simp [h] at hups, fun _ => ?_⟩
    rw [hups, Option.map_some, hdrain last (List.mem_filter.mp (List.mem_of_getLast? hlast)).1]
  · have hreplay := (InputState.held_replay_iff hfirst hup front).not.mp hheld
    have hpress : (⟨purpose, sw.call .down, true⟩ : Attempt).press? sw = some .down :=
      Attempt.press?_eq_some_iff.mpr ⟨rfl, rfl⟩
    have hmem : Press.up ∈ presses sw rest := by
      rw [hfront, presses_append, presses_cons, hpress] at hreplay
      simp only [Option.toList_some, List.getLast?_append] at hreplay
      cases hq : (presses sw rest).getLast? with
      | none => simp [hq] at hreplay
      | some press =>
        cases press with
        | down => simp [hq] at hreplay
        | up => exact List.mem_of_getLast? hq
    obtain ⟨a, ha, hok, hcall⟩ := mem_presses.mp hmem
    have hin : a ∈ ups :=
      List.mem_filter.mpr ⟨List.mem_append_left back ha, decide_eq_true hcall⟩
    refine ⟨List.ne_nil_of_mem hin, fun hfail => ?_⟩
    rw [hfail a hin] at hok
    cases hok

theorem exists_pairs {backend : Backend σ} {pointer : Option Point} {run : Run σ}
    (hphase : run.Phase backend ⟨[], [], pointer⟩) (hover : run.isOver = true)
    (hok : ∀ a ∈ run.log, a.ok = true) (sw : Switch) :
    ∃ n, presses sw run.log = (List.replicate n [.down, .up]).flatten := by
  have hfirst := InputState.ordered_empty pointer
  have hup := sw.position_empty pointer
  apply exists_pairs_of_isChain
  · exact hup ▸ InputState.isChain_presses hfirst (hphase.orderly hfirst) sw
  · obtain ⟨-, front, back, hlog, -, -, hback⟩ := hphase.of_over hover
    have hreleased : ((⟨[], [], pointer⟩ : InputState).replay run.log).releases = [] := by
      rw [hlog, InputState.replay_append]
      apply InputState.releases_replay _ hback
      intro a ha
      exact hok a (hlog ▸ List.mem_append_right front ha)
    intro hlast
    have hheld := (InputState.held_replay_iff hfirst hup run.log).mpr hlast
    have hmem := InputState.call_up_mem_releases.mpr hheld
    rw [hreleased] at hmem
    cases hmem

/-- For every timeline, every backend and every schedule: before anything is released, the state
holds a switch between two calls exactly if the last successful press in the log is a press down;
a call presses only what is up and lets go only of what is down, by the state and by the log, so the
successful presses alternate; every successful press down is followed by a call that lets go, the
last of which is made by the release at the end unless one of them succeeded; and the state
that is published at the end holds nothing. -/
theorem held_input_never_leaks (backend : Backend σ) (settings : Settings) (timeline : Timeline)
    (device : σ) (begun : Nat) (moves : List Move) (sw : Switch) :
    let run := (ofTimeline settings timeline device begun).follow backend moves
    (run.isCalling = false → (∀ a ∈ run.log, a.purpose = .dispatch) →
      (sw.Held run.state ↔ (presses sw run.log).getLast? = some .down)) ∧
    (∀ press calls next, run.stage = .issue (sw.call press :: calls) next →
      (sw.Held run.state ↔ press = .up)) ∧
    (∀ before purpose press ok after,
      run.log = before ++ ⟨purpose, sw.call press, ok⟩ :: after →
        ((presses sw before).getLast? = some .down ↔ press = .up)) ∧
    (.up :: presses sw run.log).IsChain (· ≠ ·) ∧
    (run.isOver = true → ∀ before purpose after,
      run.log = before ++ ⟨purpose, sw.call .down, true⟩ :: after →
        let ups := after.filter (·.call = sw.call .up)
        ups ≠ [] ∧
          ((∀ a ∈ ups, a.ok = false) → ups.getLast?.map (·.purpose) = some .drain)) ∧
    (run.isOver = true → (Player.started run).inputState.isEmpty = true) := by
  intro run
  have hphase := phase_follow backend settings timeline device begun moves
  have hfirst := InputState.ordered_empty (backend.pointer device)
  have hup := sw.position_empty (backend.pointer device)
  have horderly := hphase.orderly hfirst
  refine ⟨?_, ?_, ?_, ?_, ?_, ?_⟩
  · intro hcalling hlog
    rw [← InputState.held_replay_iff hfirst hup]
    exact hphase.held_iff hcalling hlog sw
  · intro press calls next hstage
    exact hphase.admits hstage sw press rfl
  · intro before purpose press ok after hlog
    rw [hlog] at horderly
    obtain ⟨-, hadmits, -⟩ := InputState.orderly_append.mp horderly
    rw [← InputState.held_replay_iff hfirst hup]
    exact hadmits sw press rfl
  · exact hup ▸ InputState.isChain_presses hfirst horderly sw
  · intro hover before purpose after hlog
    obtain ⟨-, front, back, heq, -, hdrain, hback⟩ := hphase.of_over hover
    exact ups_of_down hfirst hup hdrain hback (heq.symm.trans hlog)
  · intro hover
    rw [Player.inputState, if_pos hover]
    exact InputState.isEmpty_of_releases (hphase.of_over hover).1

end Run

end TimedInput
