import TimedInput.Proofs.Backend.DryRun
import TimedInput.Proofs.Playback.Announcements
import TimedInput.Proofs.Playback.Reasons

/-!
# Lines on paper

Each call of a dry run is one line: the milliseconds, and what is done. None of these lines is long
enough to be cut. What is done to a switch can be read off the lines: they name it, and nothing else
that is printed looks like them. So a line that presses something has one that releases it after it.
-/

namespace TimedInput

open Bytes (Inline)

namespace Bytes

theorem length_padLeft (n : Nat) (s : Bytes) : (s.padLeft n).length = max n s.length := by
  rw [padLeft, List.length_append, List.length_replicate]
  omega

theorem mem_of_mem_padLeft {n : Nat} {s : Bytes} {b : UInt8} (h : b ∈ s.padLeft n) :
    b = 32 ∨ b ∈ s :=
  (List.mem_append.mp h).imp_left List.eq_of_mem_replicate

theorem Inline.padLeft {s : Bytes} (h : s.Inline) (n : Nat) : (s.padLeft n).Inline := by
  intro b hb
  rcases mem_of_mem_padLeft hb with rfl | hmem
  · decide
  · exact h b hmem

end Bytes

namespace Numeral

theorem length_inBase_le (base k : Nat) {n : Nat} (h : n < (base + 2) ^ (k + 1)) (letter : UInt8) :
    (inBase base letter n).length ≤ k + 1 := by
  induction k generalizing n with
  | zero =>
    rw [Nat.zero_add, Nat.pow_one] at h
    rw [inBase_of_lt h]
    exact Nat.le_refl 1
  | succ k ih =>
    rcases Nat.lt_or_ge n (base + 2) with hn | hn
    · rw [inBase_of_lt hn]
      exact Nat.le_add_left 1 (k + 1)
    · have hquotient : n / (base + 2) < (base + 2) ^ (k + 1) := by
        rw [Nat.div_lt_iff_lt_mul (by omega), ← Nat.pow_succ]
        exact h
      rw [inBase_of_ge hn, List.length_append, List.length_singleton]
      exact Nat.succ_le_succ (ih hquotient)

theorem length_ofInt_le (x : Int32) : (ofInt x.toInt).length ≤ 11 := by
  have hleast := x.le_toInt
  have hmost := x.toInt_lt
  have hdigits (n : Nat) (hn : n ≤ 2 ^ 31) : (ofNat n).length ≤ 10 :=
    length_inBase_le 8 9 (by omega) 97
  cases hx : x.toInt with
  | ofNat n =>
    rw [hx, Int.ofNat_eq_natCast] at hmost
    exact (hdigits n (by omega)).trans (by decide)
  | negSucc n => exact Nat.succ_le_succ (hdigits (n + 1) (by omega))

theorem inline_codePoint (n : Nat) : (codePoint n).Inline := by
  have hfigures : ∀ d < 16, figure 65 d ≠ 0 ∧ figure 65 d ≠ Comment.newline := by decide
  apply Inline.append
  · intro b hb
    rw [List.eq_of_mem_replicate hb]
    decide
  · intro b hb
    obtain ⟨d, hd, rfl⟩ := exists_figure_of_mem_inBase hb
    exact hfigures d hd

theorem length_codePoint_le (c : UInt32) : (codePoint c.toNat).length ≤ 8 := by
  have hhex : (upperHex c.toNat).length ≤ 8 := length_inBase_le 14 7 c.toNat_lt 65
  rw [codePoint, List.length_append, List.length_replicate]
  omega

end Numeral

theorem KeyCode.length_name_le (code : KeyCode) : code.name.length ≤ 10 := by
  have htable : ∀ key ∈ Key.table, key.name.length ≤ 10 := by decide +kernel
  unfold name
  split
  · rename_i key hkey
    exact htable key (List.mem_of_find?_eq_some hkey)
  · have hhex : (Numeral.lowerHex code.value.toUInt32.toNat).length ≤ 8 :=
      Numeral.length_inBase_le 14 7 code.value.toUInt32.toNat_lt 97
    rw [List.length_append]
    exact Nat.add_le_add (Nat.le_refl 2) hhex

namespace Call.Kind

/-- What a line says of a call, up to what it is done with. -/
def phrase : Kind → Bytes
  | .move .absolute => ascii "Move mouse to "
  | .move .relative => ascii "Move mouse by "
  | .button .down => ascii "Press mouse button "
  | .button .up => ascii "Release mouse button "
  | .key .down => ascii "Press key "
  | .key .up => ascii "Release key "
  | .typing => ascii "Type "

/-- No two kinds of calls can be mistaken for each other. -/
theorem eq_of_phrase_prefix {k l : Kind} {s t : Bytes} (h : k.phrase ++ s = l.phrase ++ t) :
    k = l := by
  have hphrases : ∀ k ∈ all, ∀ l ∈ all, k.phrase <+: l.phrase → k = l := by decide
  have hk : k.phrase <+: l.phrase ++ t := ⟨s, h⟩
  rcases List.prefix_or_prefix_of_prefix hk (List.prefix_append _ _) with hprefix | hprefix
  · exact hphrases k k.mem_all l l.mem_all hprefix
  · exact (hphrases l l.mem_all k k.mem_all hprefix).symm

end Call.Kind

namespace Printer

/-- What a call is done with, where a character is shown as it is if that can be printed. -/
def object : Call → Bytes
  | .typeCharacter c => typed c
  | call => call.details

theorem wording_eq (call : Call) : wording call = call.kind.phrase ++ object call := by
  cases call <;> simp [wording, Call.kind, Call.Kind.phrase, object, Call.details, ascii]

theorem inline_typed (c : UInt32) : (typed c).Inline := by
  unfold typed
  split
  · rename_i hprintable
    simp only [Bool.and_eq_true, decide_eq_true_eq, UInt32.le_iff_toNat_le,
      UInt32.lt_iff_toNat_lt] at hprintable
    obtain ⟨hleast, hmost⟩ := hprintable
    change 32 ≤ c.toNat at hleast
    change c.toNat < 127 at hmost
    have hbyte : c.toUInt8.toNat = c.toNat := Nat.mod_eq_of_lt (by omega)
    refine .append (.append (by decide) ?_) (by decide)
    intro b hb
    rw [List.mem_singleton.mp hb]
    constructor
    · intro hnul
      rw [hnul] at hbyte
      change 0 = c.toNat at hbyte
      omega
    · intro hfeed
      rw [hfeed] at hbyte
      change 10 = c.toNat at hbyte
      omega
  · exact .append (by decide) (Numeral.inline_codePoint _)

theorem inline_wording (call : Call) : (wording call).Inline := by
  cases call with
  | moveAbsolute x y =>
    exact .append (.append (.append (by decide) (.ofInt _)) (by decide)) (.ofInt _)
  | moveRelative dx dy =>
    exact .append (.append (.append (by decide) (.ofInt _)) (by decide)) (.ofInt _)
  | buttonDown n => exact .append (by decide) (.ofInt _)
  | buttonUp n => exact .append (by decide) (.ofInt _)
  | keyDown code => exact .append (by decide) code.inline_name
  | keyUp code => exact .append (by decide) code.inline_name
  | typeCharacter c => exact .append (by decide) (inline_typed c)

theorem length_typed_le (c : UInt32) : (typed c).length ≤ 10 := by
  have hcode := Numeral.length_codePoint_le c
  unfold typed
  split
  · simp [ascii]
  · rw [List.length_append]
    exact Nat.add_le_add (Nat.le_refl 2) hcode

theorem length_object_le (call : Call) : (object call).length ≤ 24 := by
  have hcoordinates (x y : Int32) :
      (Numeral.ofInt x.toInt ++ 44 :: 32 :: Numeral.ofInt y.toInt).length ≤ 24 := by
    have hx := Numeral.length_ofInt_le x
    have hy := Numeral.length_ofInt_le y
    simp only [List.length_append, List.length_cons]
    omega
  have hnumber (n : Int32) : (Numeral.ofInt n.toInt).length ≤ 24 :=
    (Numeral.length_ofInt_le n).trans (by decide)
  have hname (code : KeyCode) : code.name.length ≤ 24 := code.length_name_le.trans (by decide)
  cases call with
  | moveAbsolute x y => exact hcoordinates x y
  | moveRelative dx dy => exact hcoordinates dx dy
  | buttonDown n => exact hnumber n
  | buttonUp n => exact hnumber n
  | keyDown code => exact hname code
  | keyUp code => exact hname code
  | typeCharacter c => exact (length_typed_le c).trans (by decide)

theorem length_wording_le (call : Call) : (wording call).length ≤ 45 := by
  have hphrases : ∀ kind ∈ Call.Kind.all, kind.phrase.length ≤ 21 := by decide
  have hphrase := hphrases call.kind call.kind.mem_all
  have hobject := length_object_le call
  rw [wording_eq, List.length_append]
  omega

/-- A line with a text and the milliseconds of an instant, right-aligned in six places. -/
def stamped (now : Nat) (text : Bytes) : Bytes :=
  ascii "[" ++ (Numeral.ofNat (Instant.milliseconds now)).padLeft 6 ++ ascii "ms] " ++ text ++
    ascii "\n"

theorem nul_not_mem_stamped (now : Nat) {text : Bytes} (h : text.Inline) :
    0 ∉ stamped now text := by
  have hline : (ascii "[" ++ (Numeral.ofNat (Instant.milliseconds now)).padLeft 6 ++
      ascii "ms] " ++ text).Inline :=
    .append (.append (.append (by decide) (.padLeft (.ofNat _) 6)) (by decide)) h
  rw [stamped, List.mem_append, not_or]
  exact ⟨hline.not_mem_nul, by decide⟩

theorem length_stamped_le {now : Nat} (hnow : now ≤ horizon) (text : Bytes) :
    (stamped now text).length ≤ text.length + 26 := by
  have hdigits : (Numeral.ofNat (Instant.milliseconds now)).length ≤ 20 := by
    apply Numeral.length_inBase_le 8 19
    unfold horizon at hnow
    unfold Instant.milliseconds
    omega
  simp only [stamped, List.length_append, Bytes.length_padLeft]
  change 1 + _ + 4 + _ + 1 ≤ _
  omega

/-- Before the horizon, nothing that is printed of a call is cut. -/
theorem line_eq_stamped {now : Nat} (hnow : now ≤ horizon) (call : Call) :
    (Printer.new 0).line now call = stamped now (wording call) := by
  have hwording := length_wording_le call
  have hlength := length_stamped_le hnow (wording call)
  have hclip : (wording call).clip 255 = wording call := List.take_of_length_le (by omega)
  rw [line, hclip]
  change (stamped now (wording call)).untilNul.clip 2047 = _
  rw [Bytes.untilNul_of_not_mem (nul_not_mem_stamped now (inline_wording call))]
  exact List.take_of_length_le (by omega)

theorem stamped_inj {now later : Nat} {s t : Bytes} (h : stamped now s = stamped later t) :
    s = t := by
  have hmark (n : Nat) : 109 ∉ (Numeral.ofNat n).padLeft 6 := by
    intro hmem
    rcases Bytes.mem_of_mem_padLeft hmem with hspace | hdigit
    · cases hspace
    · cases Numeral.isDigit_of_mem_ofNat hdigit
  simp only [stamped, List.append_assoc] at h
  obtain ⟨-, hrest⟩ := Bytes.append_cons_inj (hmark _) (hmark _) (List.append_cancel_left h)
  have htexts : ascii "s] " ++ (s ++ ascii "\n") = ascii "s] " ++ (t ++ ascii "\n") := hrest
  exact List.append_cancel_right (List.append_cancel_left htexts)

end Printer

namespace Switch

/-- What a line says when the switch is moved. -/
def notice : Switch → Press → Bytes
  | .key code, .down => ascii "Press key " ++ code.name
  | .key code, .up => ascii "Release key " ++ code.name
  | .button number, .down => ascii "Press mouse button " ++ Numeral.ofInt number.toInt
  | .button number, .up => ascii "Release mouse button " ++ Numeral.ofInt number.toInt

variable {sw : Switch} {press : Press}

theorem wording_call (sw : Switch) (press : Press) :
    Printer.wording (sw.call press) = sw.notice press := by
  cases sw <;> cases press <;> rfl

theorem wording_eq_notice_iff {call : Call} :
    Printer.wording call = sw.notice press ↔ call = sw.call press := by
  constructor
  · intro h
    rw [← wording_call, Printer.wording_eq, Printer.wording_eq] at h
    have hkind : call.kind = (sw.call press).kind := Call.Kind.eq_of_phrase_prefix h
    rw [hkind] at h
    have hobject := List.append_cancel_left h
    have hswitch : Printer.object (sw.call press) = (sw.call press).details := by
      cases sw <;> cases press <;> rfl
    rw [hswitch] at hobject
    apply Call.eq_of_kind_of_details hkind
    cases call with
    | typeCharacter c => cases sw <;> cases press <;> cases hkind
    | _ => exact hobject
  · rintro rfl
    exact wording_call sw press

/-- What a printed line tells of the switch. -/
def noticed? (sw : Switch) (line : Nat × Bytes) : Option Press :=
  if line.2 = Printer.stamped line.1 (sw.notice .down) then some .down
  else if line.2 = Printer.stamped line.1 (sw.notice .up) then some .up
  else none

theorem noticed?_eq_some_iff {line : Nat × Bytes} :
    sw.noticed? line = some press ↔ line.2 = Printer.stamped line.1 (sw.notice press) := by
  have hne : sw.notice .down ≠ sw.notice .up := by
    intro h
    rw [← wording_call, wording_eq_notice_iff] at h
    cases (Switch.call_inj h).2
  unfold noticed?
  split
  · rename_i hdown
    cases press with
    | down => simp [hdown]
    | up =>
      rw [hdown]
      exact iff_of_false nofun fun h => hne (Printer.stamped_inj h)
  · split <;> cases press <;> simp_all

/-- The positions that the switch was moved into, as it is printed. -/
def notices (sw : Switch) (lines : List (Nat × Bytes)) : List Press :=
  lines.filterMap sw.noticed?

end Switch

namespace Entry

/-- What is printed when it happens, with the instant. -/
def shown (verbose : Bool) (e : Entry) : Nat × Bytes :=
  (e.instant, e.printed verbose)

theorem shown_called (verbose : Bool) {now : Nat} {purpose : Purpose} {call : Call} {reply : Reply}
    (hprinted : (called now purpose call reply).IsPrinted 0) (hnear : now ≤ horizon) :
    (called now purpose call reply).shown verbose =
      (now, Printer.stamped now (Printer.wording call)) := by
  obtain rfl : reply = Printer.reply 0 now call := hprinted
  exact Prod.ext rfl (Printer.line_eq_stamped hnear call)

variable {e : Entry} (verbose : Bool) (hprinted : e.IsPrinted 0) (hnear : e.instant ≤ horizon)
include hprinted hnear

theorem printed_eq_stamped_iff (sw : Switch) (press : Press) :
    e.printed verbose = Printer.stamped e.instant (sw.notice press) ↔
      e.attempt?.bind (Attempt.press? sw) = some press := by
  cases e with
  | began instant event =>
    -- a line begins with a bracket, and an announcement with a letter
    have hbracket : (Printer.stamped instant (sw.notice press)).head? = some 91 := rfl
    have hletter : (announcement event).head? = some 65 := rfl
    refine iff_of_false ?_ nofun
    intro h
    have hhead := congrArg List.head? h
    rw [Entry.instant, hbracket] at hhead
    cases verbose with
    | true => cases hletter.symm.trans hhead
    | false => cases hhead
  | stuck instant call => exact hprinted.elim
  | called instant purpose call reply =>
    have hline : (called instant purpose call reply).printed verbose =
        Printer.stamped instant (Printer.wording call) :=
      (Prod.mk.inj (shown_called verbose hprinted hnear)).2
    have hok : reply.ok = true := congrArg Reply.ok hprinted
    rw [hline, attempt?, Option.bind_some, Attempt.press?_eq_some_iff, hok]
    constructor
    · intro h
      exact ⟨rfl, Switch.wording_eq_notice_iff.mp (Printer.stamped_inj h)⟩
    · rintro ⟨-, hcall⟩
      rw [Switch.wording_eq_notice_iff.mpr hcall, Entry.instant]

theorem noticed?_shown (sw : Switch) :
    sw.noticed? (e.shown verbose) = e.attempt?.bind (Attempt.press? sw) := by
  apply Option.ext
  intro press
  rw [Switch.noticed?_eq_some_iff]
  exact printed_eq_stamped_iff verbose hprinted hnear sw press

end Entry

theorem flatMap_releases (verbose : Bool) {now : Nat} (hnow : now ≤ horizon) (s : InputState) :
    (s.releases.map fun call =>
        .called now .drain call (Printer.reply 0 now call)).flatMap (Entry.printed verbose) =
      s.keys.flatMap (fun code => Printer.stamped now (ascii "Release key " ++ code.name)) ++
        s.buttons.flatMap fun number =>
          Printer.stamped now (ascii "Release mouse button " ++ Numeral.ofInt number.toInt) := by
  have hline (call : Call) :
      (Entry.called now .drain call (Printer.reply 0 now call)).printed verbose =
        Printer.stamped now (Printer.wording call) := Printer.line_eq_stamped hnow call
  simp only [InputState.releases, InputState.keyReleases, InputState.buttonReleases,
    List.map_append, List.map_map, List.flatMap_append, List.flatMap_map, Function.comp_apply, hline]
  rfl

/-- What is printed of a switch is what is done to it. -/
theorem notices_shown (verbose : Bool) {entries : List Entry}
    (h : ∀ e ∈ entries, e.IsPrinted 0 ∧ e.instant ≤ horizon) (sw : Switch) :
    sw.notices (entries.map (Entry.shown verbose)) =
      presses sw (entries.filterMap Entry.attempt?) := by
  rw [Switch.notices, presses, List.filterMap_map, List.filterMap_filterMap]
  apply List.filterMap_congr
  intro e he
  exact Entry.noticed?_shown verbose (h e he).1 (h e he).2 sw

namespace Run

variable {run : Run Printer} {clock : Nat} (h : run.OnPaper 0 clock) (hclock : clock ≤ horizon)
include h hclock

theorem OnPaper.printed_near : ∀ e ∈ run.history.reverse, e.IsPrinted 0 ∧ e.instant ≤ horizon := by
  intro e he
  rw [List.mem_reverse] at he
  exact ⟨h.printing.entries e he, (h.dated.past e he).trans hclock⟩

/-- A line that tells of a press is followed by one that tells of the release. -/
theorem OnPaper.exists_release_line (hover : run.isOver = true)
    {verbose : Bool} {sw : Switch} {now : Nat} {front back : List (Nat × Bytes)}
    (hpress : run.history.reverse.map (Entry.shown verbose) =
      front ++ (now, Printer.stamped now (sw.notice .down)) :: back) :
    ∃ later, (later, Printer.stamped later (sw.notice .up)) ∈ back ∧ now ≤ later := by
  have hnear := h.printed_near hclock
  obtain ⟨before, rest, heq, rfl, hrest⟩ := List.map_eq_append_iff.mp hpress
  obtain ⟨e, after, rfl, hline, rfl⟩ := List.map_eq_cons_iff.mp hrest
  obtain ⟨hinstant, htext⟩ := Prod.mk.inj hline
  subst hinstant
  obtain ⟨hprinted, hsoon⟩ := hnear e (by simp [heq])
  rw [Entry.printed_eq_stamped_iff verbose hprinted hsoon] at htext
  cases e with
  | called instant purpose call reply =>
    obtain ⟨-, rfl⟩ := Attempt.press?_eq_some_iff.mp htext
    obtain ⟨later, purpose', reply', hmem, hle⟩ := h.exists_release hover heq
    obtain ⟨hprinted', hsoon'⟩ := hnear _ (heq ▸ List.mem_append_right _ (.tail _ hmem))
    refine ⟨later, List.mem_map.mpr ⟨_, hmem, ?_⟩, hle⟩
    rw [Entry.shown_called verbose hprinted' hsoon', Switch.wording_call]
  | _ => cases htext

end Run

end TimedInput
