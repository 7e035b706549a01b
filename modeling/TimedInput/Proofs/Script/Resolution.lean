import TimedInput.Proofs.Script.Reports
import TimedInput.Proofs.Script.RoundTrip
import TimedInput.Time.Instant

/-!
# Resolution of times

Times are resolved line by line in words of 64 bits. The base of relative ones is never later than
the latest time, so the words say what numbers without a bound would say: a timestamp is accepted
exactly if the time that it means is not too late. What is wrong with the actions of a line does
not matter to its time.
-/

namespace TimedInput

namespace Timestamp

theorem meant_le_of_inRange {timestamp : Timestamp} {base : UInt64} (hbase : base ≤ maxTime)
    (h : timestamp.inRange base = true) : timestamp.meant base.toNat ≤ maxTime.toNat := by
  cases timestamp with
  | absolute ms => exact UInt64.le_iff_toNat_le.mp (of_decide_eq_true h)
  | relative ms =>
    simp only [inRange, Bool.and_eq_true, decide_eq_true_eq, UInt64.le_iff_toNat_le,
      UInt64.toNat_sub_of_le maxTime base hbase] at h
    have hle := UInt64.le_iff_toNat_le.mp hbase
    change base.toNat + ms.toNat ≤ maxTime.toNat
    omega

/-- A time that is not too late is resolved without wrapping. -/
theorem toNat_resolve {timestamp : Timestamp} {base : UInt64}
    (h : timestamp.meant base.toNat ≤ maxTime.toNat) :
    (timestamp.resolve base).toNat = timestamp.meant base.toNat := by
  cases timestamp with
  | absolute ms => rfl
  | relative ms =>
    have hlt : base.toNat + ms.toNat < 18446744073709551616 := h.trans_lt maxTime.toNat_lt
    change (base + ms).toNat = base.toNat + ms.toNat
    rw [UInt64.toNat_add]
    exact Nat.mod_eq_of_lt hlt

end Timestamp

namespace SourceLine

/-- The timestamp of a line that has a separator and a well-formed timestamp in front of it. -/
def timestamp? (line : SourceLine) : Option Timestamp :=
  (split? line.text).bind fun (token, _) => Timestamp.parse? token

/-- The time of a line whose timestamp is accepted, in numbers without a bound. -/
def time? (base : Nat) (line : SourceLine) : Option Nat :=
  (line.timestamp?.map (·.meant base)).filter (· ≤ maxTime.toNat)

/-- The time of the last of the lines whose timestamp is accepted, and zero if there is none. -/
def lastTime (lines : List SourceLine) : Nat :=
  lines.foldl (fun base line => (line.time? base).getD base) 0

theorem timestamp?_of_eq {line : SourceLine} {before source : Bytes}
    (h : line.text = before ++ 62 :: source) (hbefore : 62 ∉ before) :
    line.timestamp? = Timestamp.parse? before.trim := by
  rw [timestamp?, split?_of_eq h hbefore]
  rfl

theorem timestamp?_of_not_mem {line : SourceLine} (h : 62 ∉ line.text) :
    line.timestamp? = none := by
  rw [timestamp?, split?_of_not_mem h]
  rfl

theorem time?_of_le {line : SourceLine} {base : Nat} {timestamp : Timestamp}
    (hread : line.timestamp? = some timestamp) (h : timestamp.meant base ≤ maxTime.toNat) :
    line.time? base = some (timestamp.meant base) := by
  rw [time?, hread]
  exact Option.filter_some_pos (decide_eq_true h)

theorem time?_of_lt {line : SourceLine} {base : Nat}
    (h : ∀ timestamp, line.timestamp? = some timestamp → maxTime.toNat < timestamp.meant base) :
    line.time? base = none := by
  rw [time?, Option.filter_eq_none_iff]
  intro time htime
  obtain ⟨timestamp, hread, rfl⟩ := Option.map_eq_some_iff.mp htime
  simpa using h timestamp hread

end SourceLine

theorem Clause.kind_of_shares {platform : Platform} {clauses : List Bytes}
    {shares : List LineActions} (h : List.Forall₂ (Share platform) clauses shares) :
    ∀ cause ∈ shares.flatMap (·.causes), cause.kind.isSyntactic = false := by
  induction h with
  | nil => exact nofun
  | cons hshare _ ih =>
    intro cause hcause
    rw [List.flatMap_cons] at hcause
    rcases List.mem_append.mp hcause with hcause | hcause
    · cases hshare with
      | blank => cases hcause
      | accepted => cases hcause
      | rejected _ _ _ _ hkind => exact hkind cause hcause
    · exact ih cause hcause

section Lines

variable {platform : Platform} {base : UInt64}

/-- The time of a line and the rest of it are judged apart, and only a time is refused as one. -/
theorem SourceLine.Report.parts {line : SourceLine} {reading : LineReading}
    (h : line.Report platform base reading) :
    (line.timestamp? = none ∧ reading.base = base) ∨
      ∃ token refusal others, line.timestamp? = Timestamp.parse? token ∧
        Timestamp.Share base token reading.base refusal ∧
        reading.errors = (refusal ++ others).map (⟨line.number, ·⟩) ∧
        ∀ cause ∈ others, cause.kind ≠ .invalidTimestamp := by
  cases h with
  | unparted hnot => exact .inl ⟨timestamp?_of_not_mem hnot, rfl⟩
  | idle htext hbefore htime _ hkind =>
    refine .inr ⟨_, _, _, timestamp?_of_eq htext hbefore, htime, rfl, ?_⟩
    intro cause hcause
    rw [List.mem_singleton.mp hcause, hkind]
    nofun
  | active htext hbefore htime _ hshares =>
    refine .inr ⟨_, _, _, timestamp?_of_eq htext hbefore, htime, rfl, ?_⟩
    intro cause hcause hinvalid
    have hkind := Clause.kind_of_shares hshares cause hcause
    rw [hinvalid] at hkind
    cases hkind

variable (hbase : base ≤ maxTime)
include hbase

theorem Timestamp.Share.time {token : Bytes} {time : UInt64} {refusal : List Cause}
    (h : Share base token time refusal) :
    (∃ timestamp, parse? token = some timestamp ∧
        timestamp.meant base.toNat ≤ maxTime.toNat ∧
        time.toNat = timestamp.meant base.toNat ∧ refusal = []) ∨
      (∀ timestamp, parse? token = some timestamp →
        maxTime.toNat < timestamp.meant base.toNat) ∧
      time = base ∧ ∃ cause ∈ refusal, cause.kind = .invalidTimestamp := by
  cases h with
  | @accepted timestamp hread hrange =>
    have hle := meant_le_of_inRange hbase hrange
    exact .inl ⟨timestamp, hread, hle, toNat_resolve hle, rfl⟩
  | refused hkind hlate =>
    refine .inr ⟨?_, rfl, _, List.mem_cons_self, hkind⟩
    intro timestamp hread
    by_contra hle
    have hrange := inRange_of_meant_le (Nat.not_lt.mp hle)
    rw [hlate timestamp hread] at hrange
    cases hrange

end Lines

namespace LineReading

/-- The base that lines leave after others that leave the given one. -/
def baseAfter (platform : Platform) (base : UInt64) (lines : List SourceLine) : UInt64 :=
  lines.foldl (fun base line => (ofLine platform base line).base) base

variable (platform : Platform) {base : UInt64}

theorem ofLines_append (lines more : List SourceLine) :
    ofLines platform base (lines ++ more) =
      ofLines platform base lines ++ ofLines platform (baseAfter platform base lines) more := by
  induction lines generalizing base with
  | nil => rfl
  | cons line lines ih => exact congrArg (ofLine platform base line :: ·) ih

variable (hbase : base ≤ maxTime)
include hbase

/-- A line leaves its own time as the base if its timestamp is accepted, and else the base that it
has found. -/
theorem base_ofLine (line : SourceLine) :
    (ofLine platform base line).base ≤ maxTime ∧
      (ofLine platform base line).base.toNat = (line.time? base.toNat).getD base.toNat := by
  rcases (report_ofLine platform base line).parts with
    ⟨hnone, hsame⟩ | ⟨token, refusal, others, hread, htime, -, -⟩
  · rw [hsame, SourceLine.time?_of_lt (by simp [hnone])]
    exact ⟨hbase, rfl⟩
  · rcases htime.time hbase with ⟨timestamp, hparse, hle, hmeant, -⟩ | ⟨hlate, hsame, -⟩
    · rw [UInt64.le_iff_toNat_le, hmeant, SourceLine.time?_of_le (hread.trans hparse) hle]
      exact ⟨hle, rfl⟩
    · rw [← hread] at hlate
      rw [hsame, SourceLine.time?_of_lt hlate]
      exact ⟨hbase, rfl⟩

/-- A well-formed timestamp is complained of exactly if it means too late a time. -/
theorem accepts_time_iff {line : SourceLine} {timestamp : Timestamp}
    (h : line.timestamp? = some timestamp) :
    (∀ d ∈ (ofLine platform base line).errors, d.cause.kind ≠ .invalidTimestamp) ↔
      timestamp.meant base.toNat ≤ maxTime.toNat := by
  rcases (report_ofLine platform base line).parts with
    ⟨hnone, -⟩ | ⟨token, refusal, others, hread, htime, herrors, hothers⟩
  · rw [hnone] at h
    cases h
  · rw [h] at hread
    rw [herrors, List.forall_mem_map]
    rcases htime.time hbase with ⟨other, hparse, hle, -, rfl⟩ | ⟨hlate, -, cause, hcause, hkind⟩
    · obtain rfl := Option.some.inj (hread.trans hparse)
      exact iff_of_true hothers hle
    · refine iff_of_false ?_ (Nat.not_le.mpr (hlate timestamp hread.symm))
      intro hnone
      exact hnone cause (List.mem_append_left others hcause) hkind

theorem baseAfter_spec (lines : List SourceLine) :
    baseAfter platform base lines ≤ maxTime ∧
      (baseAfter platform base lines).toNat =
        lines.foldl (fun base line => (line.time? base).getD base) base.toNat := by
  induction lines generalizing base with
  | nil => exact ⟨hbase, rfl⟩
  | cons line lines ih =>
    obtain ⟨hle, hnat⟩ := base_ofLine platform hbase line
    rw [List.foldl_cons, ← hnat]
    exact ih hle

theorem base_le_of_mem_ofLines {lines : List SourceLine} {reading : LineReading}
    (h : reading ∈ ofLines platform base lines) : reading.base ≤ maxTime := by
  induction lines generalizing base with
  | nil => cases h
  | cons line lines ih =>
    obtain ⟨hle, -⟩ := base_ofLine platform hbase line
    rcases List.mem_cons.mp h with rfl | h
    · exact hle
    · exact ih hle h

end LineReading

namespace Action

/-- How long an action takes. -/
def duration : Action → UInt64
  | .move _ _ _ duration => duration
  | _ => 0

theorem Accepted.toNat_duration_le {platform : Platform} {action : Action}
    (h : action.Accepted platform) : action.duration.toNat ≤ 2147483647 := by
  rcases h with h | ⟨payload, rfl, -, -⟩
  · cases action with
    | move mode x y duration =>
      cases mode with
      | relative => exact h
      | absolute => exact h.2.2
    | _ => exact Nat.zero_le _
  · exact Nat.zero_le _

end Action

theorem Script.time_le_of_mem_timeline {platform : Platform} {source : Bytes} {event : Event}
    (h : event ∈ (compile platform source).timeline) : event.time ≤ maxTime := by
  cases hvalid : (compile platform source).isValid with
  | false =>
    rw [timeline_of_invalid hvalid] at h
    cases h
  | true =>
    rw [timeline_of_valid hvalid] at h
    obtain ⟨line, hline, htime, -⟩ := Timeline.exists_of_mem_ofLines _ h
    obtain ⟨reading, hreading, rfl⟩ := List.mem_map.mp hline
    rw [htime]
    have hzero : (0 : UInt64) ≤ maxTime := UInt64.le_iff_toNat_le.mpr (Nat.zero_le _)
    exact LineReading.base_le_of_mem_ofLines _ hzero hreading

/-- The base of relative times is always the time of the last line before whose timestamp was
accepted, or zero, and it is never later than the latest time. A well-formed timestamp is accepted
exactly if the time that it means is not too late, and its line has that time then, whatever is
wrong with the rest of it. Every other line leaves the base as it is. So the events of a script are
not too late, and the end of none of them is out of the range of instants. -/
theorem Script.times_are_exact (platform : Platform) (source : Bytes) :
    let script := compile platform source
    let lines := SourceLine.ofSource source
    let readings := LineReading.ofLines platform 0 lines
    (∀ before after, lines = before ++ after →
      let base := LineReading.baseAfter platform 0 before
      base ≤ maxTime ∧ base.toNat = SourceLine.lastTime before ∧
      (maxTime - base).toNat = maxTime.toNat - base.toNat ∧
      readings = LineReading.ofLines platform 0 before ++ LineReading.ofLines platform base after ∧
      ∀ line rest, after = line :: rest →
        let reading := LineReading.ofLine platform base line
        (∀ timestamp, line.timestamp? = some timestamp →
          ((∀ d ∈ reading.errors, d.cause.kind ≠ .invalidTimestamp) ↔
            timestamp.meant base.toNat ≤ maxTime.toNat) ∧
          (timestamp.meant base.toNat ≤ maxTime.toNat →
            reading.base = timestamp.resolve base ∧
            reading.base.toNat = timestamp.meant base.toNat)) ∧
        (line.time? base.toNat = none → reading.base = base)) ∧
    script.errors = readings.flatMap (·.errors) ∧
    (script.isValid = true →
      script.timeline = Timeline.ofLines (readings.map fun r => ⟨r.base, r.actions⟩)) ∧
    ∀ event ∈ script.timeline,
      event.time ≤ maxTime ∧ event.action.duration.toNat ≤ 2147483647 ∧
      ∀ start ≤ 2 ^ 62,
        start + Instant.ofMilliseconds event.time.toNat +
          Instant.ofMilliseconds event.action.duration.toNat < 2 ^ 63 := by
  intro script lines readings
  have hzero : (0 : UInt64) ≤ maxTime := UInt64.le_iff_toNat_le.mpr (Nat.zero_le _)
  refine ⟨?_, rfl, timeline_of_valid, ?_⟩
  · intro before after hlines base
    obtain ⟨hbase, hlast⟩ := LineReading.baseAfter_spec platform hzero before
    refine ⟨hbase, hlast, UInt64.toNat_sub_of_le maxTime base hbase, ?_, ?_⟩
    · simp only [readings]
      rw [hlines, LineReading.ofLines_append]
    · intro line rest hafter reading
      obtain ⟨-, hnat⟩ := LineReading.base_ofLine platform hbase line
      refine ⟨?_, ?_⟩
      · intro timestamp hread
        refine ⟨LineReading.accepts_time_iff platform hbase hread, ?_⟩
        intro hle
        rw [SourceLine.time?_of_le hread hle] at hnat
        refine ⟨UInt64.toNat_inj.mp ?_, hnat⟩
        rw [Timestamp.toNat_resolve hle]
        exact hnat
      · intro hnone
        rw [hnone] at hnat
        exact UInt64.toNat_inj.mp hnat
  · intro event hevent
    have htime := time_le_of_mem_timeline hevent
    have hduration := (accepted_of_mem_timeline hevent).toNat_duration_le
    refine ⟨htime, hduration, ?_⟩
    intro start hstart
    have hlatest : event.time.toNat ≤ 2305843009213 := UInt64.le_iff_toNat_le.mp htime
    unfold Instant.ofMilliseconds
    omega

end TimedInput
