import Mathlib.Data.List.Sort
import TimedInput.Script.Timeline

/-!
# Chronological order

A timeline is the source sorted by time. The events of one time stand as in the source, and
their numbers make the order strict, so there is no other way to sort them. Lines that all
have different times can be written in any order.
-/

namespace TimedInput

namespace Event

/-- Earlier, or at the same time but earlier in the source. -/
def Precedes (a b : Event) : Prop :=
  a.time < b.time ∨ a.time = b.time ∧ a.seq < b.seq

/-- What happens and when, without the place in the source. -/
def timed (e : Event) : UInt64 × Action :=
  (e.time, e.action)

theorem Precedes.time_le {a b : Event} (h : a.Precedes b) : a.time ≤ b.time := by
  rcases h with h | ⟨h, -⟩
  · exact UInt64.le_of_lt h
  · exact h ▸ UInt64.le_refl a.time

theorem Precedes.asymm {a b : Event} (h : a.Precedes b) : ¬b.Precedes a := by
  rintro (h' | ⟨htime, hseq⟩)
  · exact UInt64.not_le.mpr h' h.time_le
  · rcases h with h | ⟨-, h⟩
    · exact UInt64.lt_irrefl _ (htime ▸ h)
    · exact UInt32.lt_asymm h hseq

end Event

theorem eq_of_filter_time_eq {α : Type} {l m : List (UInt64 × α)}
    (hl : l.Pairwise (·.1 ≤ ·.1)) (hm : m.Pairwise (·.1 ≤ ·.1))
    (h : ∀ time, l.filter (·.1 = time) = m.filter (·.1 = time)) : l = m := by
  induction l generalizing m with
  | nil =>
    cases m with
    | nil => rfl
    | cons b m => simpa using h b.1
  | cons a l ih =>
    cases m with
    | nil => simpa using h a.1
    | cons b m =>
      obtain ⟨ha, hl'⟩ := List.pairwise_cons.mp hl
      obtain ⟨hb, hm'⟩ := List.pairwise_cons.mp hm
      -- the first of either list is in the other one and so not before the first of that
      have hleast : a.1 = b.1 := by
        have hamem : a ∈ (b :: m).filter (·.1 = a.1) := by
          rw [← h]
          simp
        have hbmem : b ∈ (a :: l).filter (·.1 = b.1) := by
          rw [h]
          simp
        apply UInt64.le_antisymm
        · rcases List.mem_cons.mp (List.mem_filter.mp hbmem).1 with rfl | hmem
          · exact UInt64.le_refl b.1
          · exact ha b hmem
        · rcases List.mem_cons.mp (List.mem_filter.mp hamem).1 with rfl | hmem
          · exact UInt64.le_refl a.1
          · exact hb a hmem
      have hfirst := h a.1
      simp only [List.filter_cons, hleast, decide_true, if_true, List.cons.injEq] at hfirst
      obtain ⟨rfl, -⟩ := hfirst
      apply congrArg (List.cons a)
      apply ih hl' hm'
      intro time
      have hrest := h time
      simp only [List.filter_cons] at hrest
      split at hrest
      · exact (List.cons.inj hrest).2
      · exact hrest

namespace Timeline

theorem insert_eq_orderedInsert (e : Event) (events : Timeline) :
    insert e events = events.orderedInsert (·.time ≤ ·.time) e := by
  induction events with
  | nil => rfl
  | cons first rest ih => rw [insert, List.orderedInsert, ih]

/-- An event comes before all that are not earlier than it. -/
theorem pairwise_insert {e : Event} {events : Timeline} (h : events.Pairwise Event.Precedes)
    (hseq : ∀ other ∈ events, e.seq < other.seq) : (insert e events).Pairwise Event.Precedes := by
  induction events with
  | nil => exact List.pairwise_singleton Event.Precedes e
  | cons first rest ih =>
    obtain ⟨hfirst, hrest⟩ := List.pairwise_cons.mp h
    rw [insert]
    split
    · rename_i hle
      refine List.pairwise_cons.mpr ⟨?_, h⟩
      intro other hother
      have hge : e.time ≤ other.time := by
        rcases List.mem_cons.mp hother with rfl | hmem
        · exact hle
        · exact UInt64.le_trans hle (hfirst other hmem).time_le
      rcases UInt64.lt_or_eq_of_le hge with hlt | heq
      · exact .inl hlt
      · exact .inr ⟨heq, hseq other hother⟩
    · rename_i hle
      refine List.pairwise_cons.mpr ⟨?_, ih hrest ?_⟩
      · intro other hother
        rw [insert_eq_orderedInsert] at hother
        rcases (List.mem_orderedInsert _).mp hother with rfl | hmem
        · exact .inl (UInt64.not_le.mp hle)
        · exact hfirst other hmem
      · exact fun other hother => hseq other (List.mem_cons_of_mem first hother)

/-- What an event is put behind has another time. -/
theorem filter_insert (e : Event) (events : Timeline) (time : UInt64) :
    (insert e events).filter (·.time = time) = (e :: events).filter (·.time = time) := by
  induction events with
  | nil => rfl
  | cons first rest ih =>
    rw [insert]
    split
    · rfl
    · rename_i hle
      have hne : e.time = time → first.time ≠ time := by
        intro he hfirst
        apply hle
        rw [he, hfirst]
        exact UInt64.le_refl time
      by_cases he : e.time = time
      · simp_all
      · simp_all [List.filter_cons]

theorem foldr_insert_eq_insertionSort (events : List Event) :
    events.foldr insert [] = events.insertionSort (·.time ≤ ·.time) := by
  induction events with
  | nil => rfl
  | cons e events ih =>
    rw [List.foldr_cons, ih, insert_eq_orderedInsert, List.insertionSort_cons]

theorem pairwise_foldr_insert {events : List Event} (h : events.Pairwise (·.seq < ·.seq)) :
    (events.foldr insert []).Pairwise Event.Precedes := by
  induction events with
  | nil => exact .nil
  | cons e events ih =>
    obtain ⟨he, hevents⟩ := List.pairwise_cons.mp h
    apply pairwise_insert (ih hevents)
    intro other hother
    rw [foldr_insert_eq_insertionSort] at hother
    exact he other ((List.mem_insertionSort _).mp hother)

theorem filter_foldr_insert (events : List Event) (time : UInt64) :
    (events.foldr insert []).filter (·.time = time) = events.filter (·.time = time) := by
  induction events with
  | nil => rfl
  | cons e events ih =>
    rw [List.foldr_cons, filter_insert, List.filter_cons, List.filter_cons, ih]

section SourceOrder

variable (lines : List ScheduledLine)

/-- The actions of the source with their times. -/
def timedActions : List (UInt64 × Action) :=
  lines.flatMap fun line => line.actions.map (line.time, ·)

theorem length_timedActions :
    (timedActions lines).length = (lines.flatMap (·.actions)).length := by
  simp [timedActions, List.length_flatMap]

theorem map_timed_inSourceOrder : (inSourceOrder lines).map Event.timed = timedActions lines := by
  calc (inSourceOrder lines).map Event.timed
      = (timedActions lines).zipIdx.map Prod.fst := by
        rw [inSourceOrder, List.map_map]
        rfl
    _ = timedActions lines := List.zipIdx_map_fst 0 _

theorem ofLines_perm : (ofLines lines).Perm (inSourceOrder lines) := by
  rw [ofLines, foldr_insert_eq_insertionSort]
  exact List.perm_insertionSort _ (inSourceOrder lines)

/-- No action is lost and none is added, however many there are. -/
theorem actions_perm : ((ofLines lines).map (·.action)).Perm (lines.flatMap (·.actions)) := by
  have hperm := (ofLines_perm lines).map fun e => e.timed.2
  have hactions : (inSourceOrder lines).map (fun e => e.timed.2) = lines.flatMap (·.actions) := by
    calc (inSourceOrder lines).map (fun e => e.timed.2)
        = ((inSourceOrder lines).map Event.timed).map (·.2) := by rw [List.map_map]; rfl
      _ = lines.flatMap (·.actions) := by
        rw [map_timed_inSourceOrder, timedActions, List.map_flatMap]
        simp [Function.comp_def]
  rw [hactions] at hperm
  exact hperm

/-- An event has the time of a line that asks for its action. -/
theorem exists_of_mem_ofLines {event : Event} (h : event ∈ ofLines lines) :
    ∃ line ∈ lines, event.time = line.time ∧ event.action ∈ line.actions := by
  have hsource := (ofLines_perm lines).mem_iff.mp h
  have htimed := List.mem_map_of_mem (f := Event.timed) hsource
  rw [map_timed_inSourceOrder, timedActions, List.mem_flatMap] at htimed
  obtain ⟨line, hline, hmem⟩ := htimed
  obtain ⟨action, haction, heq⟩ := List.mem_map.mp hmem
  obtain ⟨htime, rfl⟩ := Prod.ext_iff.mp heq
  exact ⟨line, hline, htime.symm, haction⟩

theorem actions_of_filter_timed (events : List Event) (time : UInt64) :
    (events.filter (·.time = time)).map (·.action) =
      ((events.map Event.timed).filter (·.1 = time)).map (·.2) := by
  rw [List.filter_map, List.map_map]
  rfl

theorem filter_timedActions (time : UInt64) :
    ((timedActions lines).filter (·.1 = time)).map (·.2) =
      (lines.filter (·.time = time)).flatMap (·.actions) := by
  induction lines with
  | nil => rfl
  | cons line lines ih =>
    have hline : timedActions (line :: lines) =
        line.actions.map (line.time, ·) ++ timedActions lines := rfl
    rw [hline, List.filter_append, List.map_append, ih, List.filter_map, List.map_map]
    by_cases h : line.time = time
    · simp [h, Function.comp_def]
    · simp [h, Function.comp_def]

/-- The events of one time are the actions of the lines with this time, as they stand in the
source. -/
theorem actions_at (time : UInt64) :
    ((ofLines lines).filter (·.time = time)).map (·.action) =
      (lines.filter (·.time = time)).flatMap (·.actions) := by
  rw [ofLines, filter_foldr_insert, actions_of_filter_timed, map_timed_inSourceOrder,
    filter_timedActions]

end SourceOrder

section Numbered

variable {lines : List ScheduledLine}
variable (hcount : (lines.flatMap (·.actions)).length ≤ 4294967296)
include hcount

theorem toNat_seq_of_mem {item : (UInt64 × Action) × Nat}
    (h : item ∈ (timedActions lines).zipIdx) : item.2.toUInt32.toNat = item.2 := by
  have hlt := List.snd_lt_of_mem_zipIdx h
  rw [length_timedActions] at hlt
  apply UInt32.toNat_ofNat_of_lt'
  change item.2 < 4294967296
  omega

theorem inSourceOrder_numbered :
    (inSourceOrder lines).map (fun e => (e.timed, e.seq.toNat)) =
      (timedActions lines).zipIdx := by
  rw [inSourceOrder, List.map_map]
  calc (timedActions lines).zipIdx.map _
      = (timedActions lines).zipIdx.map id := by
        apply List.map_congr_left
        intro item hitem
        exact congrArg (Prod.mk item.1) (toNat_seq_of_mem hcount hitem)
    _ = (timedActions lines).zipIdx := List.map_id _

theorem pairwise_seq_inSourceOrder : (inSourceOrder lines).Pairwise (·.seq < ·.seq) := by
  have hindices : (timedActions lines).zipIdx.Pairwise (·.2 < ·.2) := by
    rw [← List.pairwise_map (f := Prod.snd) (R := (· < ·)), List.zipIdx_map_snd]
    exact List.pairwise_lt_range' 1
  rw [← inSourceOrder_numbered hcount, List.pairwise_map] at hindices
  exact hindices.imp fun h => UInt32.lt_iff_toNat_lt.mpr h

theorem pairwise_ofLines : (ofLines lines).Pairwise Event.Precedes :=
  pairwise_foldr_insert (pairwise_seq_inSourceOrder hcount)

theorem ofLines_perm_numbered :
    ((ofLines lines).map fun e => (e.timed, e.seq.toNat)).Perm (timedActions lines).zipIdx := by
  rw [← inSourceOrder_numbered hcount]
  exact (ofLines_perm lines).map _

/-- There is one way only to sort the events by time and number. -/
theorem eq_ofLines {sorted : Timeline} (hperm : sorted.Perm (inSourceOrder lines))
    (hsorted : sorted.Pairwise Event.Precedes) : sorted = ofLines lines := by
  apply List.Perm.eq_of_pairwise _ hsorted (pairwise_ofLines hcount)
    (hperm.trans (ofLines_perm lines).symm)
  intro a b _ _ hab hba
  exact absurd hba hab.asymm

/-- Lines can change places as long as those of one time stay in their order. -/
theorem timed_ofLines_eq {other : List ScheduledLine}
    (hother : (other.flatMap (·.actions)).length ≤ 4294967296)
    (h : ∀ time, other.filter (·.time = time) = lines.filter (·.time = time)) :
    (ofLines other).map Event.timed = (ofLines lines).map Event.timed := by
  have hsorted : ∀ {lines : List ScheduledLine},
      (lines.flatMap (·.actions)).length ≤ 4294967296 →
        ((ofLines lines).map Event.timed).Pairwise (·.1 ≤ ·.1) := by
    intro lines hcount
    exact List.pairwise_map.mpr ((pairwise_ofLines hcount).imp Event.Precedes.time_le)
  apply eq_of_filter_time_eq (hsorted hother) (hsorted hcount)
  intro time
  have hpairs : ∀ lines : List ScheduledLine,
      ((ofLines lines).map Event.timed).filter (·.1 = time) =
        ((lines.filter (·.time = time)).flatMap (·.actions)).map (time, ·) := by
    intro lines
    rw [← actions_at, List.filter_map, List.map_map]
    apply List.map_congr_left
    intro e he
    have htime := of_decide_eq_true (List.mem_filter.mp he).2
    exact congrArg (·, e.action) htime
  rw [hpairs, hpairs, h]

end Numbered

theorem filter_time_eq_of_perm {lines other : List ScheduledLine} (hperm : other.Perm lines)
    (hne : lines.Pairwise (·.time ≠ ·.time)) (time : UInt64) :
    other.filter (·.time = time) = lines.filter (·.time = time) := by
  have hfilter := hperm.filter (·.time = time)
  have hdistinct := hne.filter (·.time = time)
  -- no two lines have this time
  cases hlines : lines.filter (·.time = time) with
  | nil =>
    rw [hlines] at hfilter
    exact hfilter.eq_nil
  | cons line rest =>
    cases rest with
    | nil =>
      rw [hlines] at hfilter
      exact List.perm_singleton.mp hfilter
    | cons next rest =>
      have htime : ∀ item ∈ line :: next :: rest, item.time = time := by
        intro item hitem
        rw [← hlines] at hitem
        exact of_decide_eq_true (List.mem_filter.mp hitem).2
      rw [hlines] at hdistinct
      have hne' := (List.pairwise_cons.mp hdistinct).1 next List.mem_cons_self
      apply absurd _ hne'
      rw [htime line List.mem_cons_self, htime next (by simp)]

/-- The timeline of lines with no more than 2^32 actions. It has the actions of the source with the
times of their lines, numbered from zero in the order of the source, and is strictly ascending by
time and number; nothing else is a sorted arrangement of these events. The events of one time
are the actions of all lines of that time, one line after the other. Lines may be put into another
order without effect if their times are all different, or if those of one time keep theirs. -/
theorem ofLines_sorts_stably {lines : List ScheduledLine}
    (hcount : (lines.flatMap (·.actions)).length ≤ 4294967296) :
    ((ofLines lines).map fun e => ((e.time, e.action), e.seq.toNat)).Perm
      (lines.flatMap fun line => line.actions.map (line.time, ·)).zipIdx ∧
    (ofLines lines).Pairwise
      (fun a b => a.time < b.time ∨ a.time = b.time ∧ a.seq < b.seq) ∧
    (∀ sorted : Timeline, sorted.Perm (inSourceOrder lines) →
      sorted.Pairwise (fun a b => a.time < b.time ∨ a.time = b.time ∧ a.seq < b.seq) →
      sorted = ofLines lines) ∧
    (∀ time, ((ofLines lines).filter (·.time = time)).map (·.action) =
      (lines.filter (·.time = time)).flatMap (·.actions)) ∧
    (∀ other : List ScheduledLine, other.Perm lines →
      (lines.Pairwise (·.time ≠ ·.time) ∨
        ∀ time, other.filter (·.time = time) = lines.filter (·.time = time)) →
      (ofLines other).map (fun e => (e.time, e.action)) =
        (ofLines lines).map (fun e => (e.time, e.action))) := by
  refine ⟨ofLines_perm_numbered hcount, pairwise_ofLines hcount, ?_, actions_at lines, ?_⟩
  · intro sorted hperm hsorted
    exact eq_ofLines hcount hperm hsorted
  · intro other hperm h
    have hother : (other.flatMap (·.actions)).length ≤ 4294967296 := by
      rw [(hperm.flatMap_right _).length_eq]
      exact hcount
    apply timed_ofLines_eq hcount hother
    rcases h with hne | hkept
    · exact filter_time_eq_of_perm hperm hne
    · exact hkept

theorem ofLines_sorts_stably_tie :
    let a := Action.key .down ⟨97⟩
    let b := Action.key .up ⟨97⟩
    let c := Action.text [99]
    let lines : List ScheduledLine := [⟨5, [a, b]⟩, ⟨2, [c]⟩, ⟨5, [c, a]⟩]
    (lines.flatMap (·.actions)).length ≤ 4294967296 ∧
      ofLines lines = [⟨2, c, 2⟩, ⟨5, a, 0⟩, ⟨5, b, 1⟩, ⟨5, c, 3⟩, ⟨5, a, 4⟩] ∧
      ((ofLines lines).filter (·.time = 5)).map (·.action) = [a, b, c, a] := by
  intro a b c lines
  have hcount : (lines.flatMap (·.actions)).length ≤ 4294967296 := by decide
  exact ⟨hcount, by decide, (ofLines_sorts_stably hcount).2.2.2.1 5⟩

end Timeline

end TimedInput
