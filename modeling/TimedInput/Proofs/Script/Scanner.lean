import TimedInput.Proofs.Text.Splitting
import TimedInput.Script.Compilation

/-!
# Comments in one pass

The two passes over a source that blank its comments come to what one scanner finds, which
reads the source once from the left and keeps two flags. The scanner also knows on which
line a comment without an end has begun.
-/

namespace TimedInput.Comment

structure Scanner where
  inBlock : Bool
  inLine : Bool
  newlines : Nat
  /-- How many line feeds stand before the block comment that was opened last. -/
  opener : Nat
  deriving DecidableEq, Repr

namespace Scanner

def initial : Scanner :=
  ⟨false, false, 0, 0⟩

/-- Reads a byte that neither opens nor closes a block comment; `rest` stands after it. The second
slash of a line comment must not be the first byte of a block comment. -/
def read (sc : Scanner) (b : UInt8) (rest : Bytes) : UInt8 × Scanner :=
  if b = newline then (newline, { sc with inLine := false, newlines := sc.newlines + 1 })
  else if sc.inBlock || sc.inLine then (32, sc)
  else if lineOpener.isPrefixOf (b :: rest) && !blockOpener.isPrefixOf rest then
    (32, { sc with inLine := true })
  else (b, sc)

/-- What is left of a text, and the scanner at its end. -/
def scan (sc : Scanner) : Bytes → Bytes × Scanner
  | [] => ([], sc)
  | [b] => ([(sc.read b []).1], (sc.read b []).2)
  | b :: c :: rest =>
    if sc.inBlock = false ∧ b = 47 ∧ c = 42 then
      let (text, last) := scan { sc with inBlock := true, opener := sc.newlines } rest
      (32 :: 32 :: text, last)
    else if sc.inBlock = true ∧ b = 42 ∧ c = 47 then
      let (text, last) := scan { sc with inBlock := false } rest
      (32 :: 32 :: text, last)
    else
      let (text, last) := scan (sc.read b (c :: rest)).2 (c :: rest)
      ((sc.read b (c :: rest)).1 :: text, last)

end Scanner

/-- What ends the present state of affairs: a closer in a block comment, an opener elsewhere. -/
def marker (inBlock : Bool) : Bytes :=
  if inBlock then blockCloser else blockOpener

def keep (inBlock : Bool) (s : Bytes) : Bytes :=
  if inBlock then blank s else s

/-- The first pass, begun within a block comment or outside. -/
def blockPass (inBlock : Bool) : Bytes → Bytes
  | b :: c :: rest =>
    if [b, c] = marker inBlock then 32 :: 32 :: blockPass (!inBlock) rest
    else keep inBlock [b] ++ blockPass inBlock (c :: rest)
  | s => keep inBlock s

/-- The second pass, begun within a line comment or outside. -/
def linePass (inLine : Bool) : Bytes → Bytes
  | [] => []
  | b :: rest =>
    if b = newline then newline :: linePass false rest
    else if inLine || lineOpener.isPrefixOf (b :: rest) then 32 :: linePass true rest
    else b :: linePass false rest

theorem keep_cons (inBlock : Bool) (b : UInt8) (s : Bytes) :
    keep inBlock (b :: s) = keep inBlock [b] ++ keep inBlock s := by
  cases inBlock <;> rfl

theorem breakOn_marker (inBlock : Bool) (b c : UInt8) (rest : Bytes) :
    Bytes.breakOn (marker inBlock) (b :: c :: rest) =
      if [b, c] = marker inBlock then some ([], rest)
      else (Bytes.breakOn (marker inBlock) (c :: rest)).map fun (before, after) =>
        (b :: before, after) := by
  obtain ⟨x, y, hmarker⟩ : ∃ x y, marker inBlock = [x, y] := by
    cases inBlock <;> exact ⟨_, _, rfl⟩
  rw [Bytes.breakOn, hmarker]
  by_cases h : [b, c] = [x, y]
  · cases h
    simp
  · have hprefix : List.isPrefixOf [x, y] (b :: c :: rest) = false := by
      rw [← Bool.not_eq_true, List.isPrefixOf_iff_prefix]
      rintro ⟨tail, htail⟩
      cases htail
      exact h rfl
    simp [h, hprefix]

theorem breakOn_marker_of_short {inBlock : Bool} {s : Bytes}
    (h : ∀ b c rest, s ≠ b :: c :: rest) : Bytes.breakOn (marker inBlock) s = none := by
  rcases s with _ | ⟨b, _ | ⟨c, rest⟩⟩
  · cases inBlock <;> rfl
  · cases inBlock <;> simp [Bytes.breakOn, marker, blockOpener, blockCloser, ascii]
  · exact absurd rfl (h b c rest)

theorem blockPass_of_none {inBlock : Bool} {s : Bytes}
    (h : Bytes.breakOn (marker inBlock) s = none) : blockPass inBlock s = keep inBlock s := by
  fun_induction blockPass inBlock s with
  | case1 inBlock b c rest hmarker ih =>
    rw [breakOn_marker, if_pos hmarker] at h
    cases h
  | case2 inBlock b c rest hmarker ih =>
    rw [breakOn_marker, if_neg hmarker, Option.map_eq_none_iff] at h
    rw [ih h, ← keep_cons]
  | case3 inBlock s hshort => rfl

/-- The first pass goes on to the next marker and changes sides there. -/
theorem blockPass_of_some {inBlock : Bool} {s before after : Bytes}
    (h : Bytes.breakOn (marker inBlock) s = some (before, after)) :
    blockPass inBlock s = keep inBlock before ++ 32 :: 32 :: blockPass (!inBlock) after := by
  fun_induction blockPass inBlock s generalizing before with
  | case1 inBlock b c rest hmarker ih =>
    rw [breakOn_marker, if_pos hmarker] at h
    cases h
    cases inBlock <;> rfl
  | case2 inBlock b c rest hmarker ih =>
    rw [breakOn_marker, if_neg hmarker] at h
    obtain ⟨⟨first, last⟩, hrest, heq⟩ := Option.map_eq_some_iff.mp h
    cases heq
    rw [ih hrest, keep_cons inBlock b first, List.append_assoc]
  | case3 inBlock s hshort =>
    rw [breakOn_marker_of_short hshort] at h
    cases h

theorem blockPass_false (s : Bytes) : blockPass false s = blankBlocks s := by
  fun_induction blankBlocks s with
  | case1 s hopen => exact blockPass_of_none hopen
  | case2 s before inside hopen hclose =>
    have hinside : blockPass true inside = blank inside := blockPass_of_none hclose
    have hs : blockPass false s = before ++ 32 :: 32 :: blockPass true inside :=
      blockPass_of_some hopen
    rw [hs, hinside]
    rfl
  | case3 s before inside hopen body after hclose _ ih =>
    have hinside : blockPass true inside = blank body ++ 32 :: 32 :: blockPass false after :=
      blockPass_of_some hclose
    have hs : blockPass false s = before ++ 32 :: 32 :: blockPass true inside :=
      blockPass_of_some hopen
    rw [hs, hinside, ih]
    simp [blank, blockOpener, blockCloser, ascii, newline]

theorem isPrefixOf_lineOpener (b : UInt8) (s : Bytes) :
    lineOpener.isPrefixOf (b :: s) = true ↔ b = 47 ∧ s.head? = some 47 := by
  rcases s with _ | ⟨c, s⟩
  · simp [lineOpener, ascii, List.isPrefixOf]
  · rw [List.isPrefixOf_iff_prefix]
    constructor
    · rintro ⟨tail, htail⟩
      cases htail
      exact ⟨rfl, rfl⟩
    · rintro ⟨rfl, hc⟩
      cases hc
      exact ⟨s, rfl⟩

theorem blankLineComment_cons (b : UInt8) (s : Bytes) :
    blankLineComment (b :: s) =
      if lineOpener.isPrefixOf (b :: s) then blank (b :: s) else b :: blankLineComment s := by
  unfold blankLineComment
  rw [Bytes.breakOn]
  by_cases hopen : lineOpener.isPrefixOf (b :: s) = true
  · obtain ⟨tail, htail⟩ := List.isPrefixOf_iff_prefix.mp hopen
    rw [if_pos hopen, if_pos hopen, ← htail]
    rfl
  · rw [if_neg hopen, if_neg hopen]
    cases Bytes.breakOn lineOpener s <;> rfl

theorem head?_of_splitOn {b c : UInt8} {s first : Bytes} {others : List Bytes} (hc : c ≠ b)
    (h : Bytes.splitOn [b] s = first :: others) : s.head? = some c ↔ first.head? = some c := by
  rcases s with _ | ⟨d, s⟩
  · rw [Bytes.splitOn_of_not_mem List.not_mem_nil] at h
    cases h
    exact Iff.rfl
  · rw [Bytes.splitOn_cons] at h
    split at h
    · rename_i hd
      cases h
      simp [hd, hc.symm]
    · cases hs : Bytes.splitOn [b] s with
      | nil => exact absurd hs Bytes.splitOn_ne_nil
      | cons piece pieces =>
        rw [hs] at h
        cases h
        exact Iff.rfl

/-- The second pass blanks the comment of every line, and all of a line that it has begun within a
comment. -/
theorem linePass_eq {s first : Bytes} {others : List Bytes} (inLine : Bool)
    (h : Bytes.splitOn [newline] s = first :: others) :
    linePass inLine s =
      Bytes.join [newline]
        ((if inLine then blank first else blankLineComment first) ::
          others.map blankLineComment) := by
  induction s generalizing inLine first others with
  | nil =>
    rw [Bytes.splitOn_of_not_mem List.not_mem_nil] at h
    cases h
    cases inLine <;> rfl
  | cons b s ih =>
    rw [Bytes.splitOn_cons] at h
    obtain ⟨piece, pieces, hs⟩ :=
      List.exists_cons_of_ne_nil (Bytes.splitOn_ne_nil (b := newline) (s := s))
    rw [hs] at h
    by_cases hb : b = newline
    · rw [if_pos hb] at h
      cases h
      have hempty : (if inLine then blank [] else blankLineComment []) = [] := by
        cases inLine <;> rfl
      rw [linePass, if_pos hb, ih false hs, hempty, List.map_cons, Bytes.join_cons_cons]
      rfl
    · rw [if_neg hb] at h
      cases h
      have hopen : lineOpener.isPrefixOf (b :: s) = lineOpener.isPrefixOf (b :: piece) := by
        rw [Bool.eq_iff_iff, isPrefixOf_lineOpener, isPrefixOf_lineOpener,
          head?_of_splitOn (by decide) hs]
      rw [linePass, if_neg hb]
      cases inLine with
      | true =>
        simp only [Bool.true_or, if_true, ih true hs]
        rw [← Bytes.join_cons_head]
        simp [blank, hb]
      | false =>
        rw [Bool.false_or, hopen, if_neg Bool.false_ne_true, blankLineComment_cons]
        split
        · rw [ih true hs, if_pos rfl, ← Bytes.join_cons_head]
          simp [blank, hb]
        · rw [ih false hs, if_neg Bool.false_ne_true, Bytes.join_cons_head]

theorem linePass_false (s : Bytes) :
    linePass false s =
      Bytes.join [newline] ((Bytes.splitOn [newline] s).map blankLineComment) := by
  obtain ⟨first, others, hs⟩ :=
    List.exists_cons_of_ne_nil (Bytes.splitOn_ne_nil (b := newline) (s := s))
  rw [linePass_eq false hs, hs]
  rfl

namespace Scanner

theorem linePass_space (inLine : Bool) (s : Bytes) :
    linePass inLine (32 :: s) = 32 :: linePass inLine s := by
  have hopen : lineOpener.isPrefixOf (32 :: s) = false := rfl
  cases inLine <;> simp [linePass, hopen, newline]

theorem isPrefixOf_blockOpener (b c : UInt8) (s : Bytes) :
    blockOpener.isPrefixOf (b :: c :: s) = true ↔ [b, c] = marker false := by
  rw [List.isPrefixOf_iff_prefix]
  constructor
  · rintro ⟨tail, htail⟩
    cases htail
    rfl
  · intro h
    cases h
    exact ⟨s, rfl⟩

/-- Outside of block comments the first pass changes a slash only if it begins one. -/
theorem head?_blockPass (s : Bytes) :
    (blockPass false s).head? = some 47 ↔
      s.head? = some 47 ∧ blockOpener.isPrefixOf s = false := by
  rcases s with _ | ⟨b, _ | ⟨c, rest⟩⟩
  · exact iff_of_false nofun (fun h => nomatch h.1)
  · have hshort : blockOpener.isPrefixOf [b] = false := Bool.and_false _
    simp [blockPass, keep, hshort]
  · rw [blockPass, ← Bool.not_eq_true, isPrefixOf_blockOpener]
    split
    · rename_i hmarker
      exact iff_of_false (by simp) (fun h => h.2 hmarker)
    · rename_i hmarker
      simp [keep, hmarker]

theorem read_inBlock (sc : Scanner) (b : UInt8) (rest : Bytes) :
    (sc.read b rest).2.inBlock = sc.inBlock := by
  unfold read
  split
  · rfl
  · split
    · rfl
    · split <;> rfl

/-- A byte outside the markers is read as the second pass reads what the first one leaves. -/
theorem linePass_keep (sc : Scanner) (b : UInt8) (rest : Bytes) :
    linePass sc.inLine (keep sc.inBlock [b] ++ blockPass sc.inBlock rest) =
      (sc.read b rest).1 :: linePass (sc.read b rest).2.inLine (blockPass sc.inBlock rest) := by
  obtain ⟨inBlock, inLine, newlines, opener⟩ := sc
  by_cases hb : b = newline
  · subst hb
    cases inBlock <;> simp [linePass, read, keep, blank]
  · cases inBlock with
    | true =>
      have hblank : keep true [b] = [32] := by simp [keep, blank, hb]
      rw [hblank]
      simp [read, hb, linePass_space]
    | false =>
      have hopen : lineOpener.isPrefixOf (b :: blockPass false rest) =
          (lineOpener.isPrefixOf (b :: rest) && !blockOpener.isPrefixOf rest) := by
        rw [Bool.eq_iff_iff, isPrefixOf_lineOpener, head?_blockPass, Bool.and_eq_true,
          isPrefixOf_lineOpener, Bool.not_eq_true', and_assoc]
      have hkeep : keep false [b] ++ blockPass false rest = b :: blockPass false rest := rfl
      rw [hkeep, linePass, if_neg hb, hopen]
      cases inLine with
      | true => simp [read, hb]
      | false =>
        cases h : lineOpener.isPrefixOf (b :: rest) && !blockOpener.isPrefixOf rest <;>
          simp [read, hb, h]

theorem ne_marker {sc : Scanner} {b c : UInt8} (hopen : ¬(sc.inBlock = false ∧ b = 47 ∧ c = 42))
    (hclose : ¬(sc.inBlock = true ∧ b = 42 ∧ c = 47)) : [b, c] ≠ marker sc.inBlock := by
  intro h
  cases hblock : sc.inBlock with
  | false =>
    rw [hblock] at h
    cases h
    exact hopen ⟨hblock, rfl, rfl⟩
  | true =>
    rw [hblock] at h
    cases h
    exact hclose ⟨hblock, rfl, rfl⟩

theorem scan_fst (sc : Scanner) (s : Bytes) :
    (sc.scan s).1 = linePass sc.inLine (blockPass sc.inBlock s) := by
  fun_induction scan sc s with
  | case1 sc => cases sc.inBlock <;> rfl
  | case2 sc b =>
    have hread := sc.linePass_keep b []
    have hnil : blockPass sc.inBlock [] = [] := by cases sc.inBlock <;> rfl
    rw [hnil, List.append_nil] at hread
    exact hread.symm
  | case3 sc b c rest hopen text last hscan ih =>
    obtain ⟨hblock, rfl, rfl⟩ := hopen
    have hpass : blockPass sc.inBlock (47 :: 42 :: rest) = 32 :: 32 :: blockPass true rest := by
      have hmarker : [47, 42] = marker false := rfl
      rw [hblock, blockPass, if_pos hmarker, Bool.not_false]
    rw [hscan] at ih
    rw [hpass, linePass_space, linePass_space]
    exact congrArg (32 :: 32 :: ·) ih
  | case4 sc b c rest hnot hclose text last hscan ih =>
    obtain ⟨hblock, rfl, rfl⟩ := hclose
    have hpass : blockPass sc.inBlock (42 :: 47 :: rest) = 32 :: 32 :: blockPass false rest := by
      have hmarker : [42, 47] = marker true := rfl
      rw [hblock, blockPass, if_pos hmarker, Bool.not_true]
    rw [hscan] at ih
    rw [hpass, linePass_space, linePass_space]
    exact congrArg (32 :: 32 :: ·) ih
  | case5 sc b c rest hopen hclose text last hscan ih =>
    rw [hscan, read_inBlock] at ih
    rw [blockPass, if_neg (ne_marker hopen hclose), linePass_keep, ← ih]

theorem scan_initial (source : Bytes) : (initial.scan source).1 = strip source := by
  rw [scan_fst, strip, ← linePass_false, ← blockPass_false]
  rfl

theorem read_opener (sc : Scanner) (b : UInt8) (rest : Bytes) :
    (sc.read b rest).2.opener = sc.opener := by
  unfold read
  split
  · rfl
  · split
    · rfl
    · split <;> rfl

theorem read_newlines (sc : Scanner) (b : UInt8) (rest : Bytes) :
    (sc.read b rest).2.newlines = sc.newlines + List.count newline [b] := by
  unfold read
  split
  · rename_i hb
    simp [hb]
  · rename_i hb
    have hcount : List.count newline [b] = 0 := by simp [hb]
    rw [hcount]
    split
    · rfl
    · split <;> rfl

theorem scan_of_none {sc : Scanner} {s : Bytes}
    (h : Bytes.breakOn (marker sc.inBlock) s = none) :
    (sc.scan s).2.inBlock = sc.inBlock ∧ (sc.scan s).2.opener = sc.opener := by
  fun_induction scan sc s with
  | case1 sc => exact ⟨rfl, rfl⟩
  | case2 sc b => exact ⟨sc.read_inBlock b [], sc.read_opener b []⟩
  | case3 sc b c rest hopen text last hscan ih =>
    obtain ⟨hblock, rfl, rfl⟩ := hopen
    have hmarker : [47, 42] = marker false := rfl
    rw [hblock, breakOn_marker, if_pos hmarker] at h
    cases h
  | case4 sc b c rest hnot hclose text last hscan ih =>
    obtain ⟨hblock, rfl, rfl⟩ := hclose
    have hmarker : [42, 47] = marker true := rfl
    rw [hblock, breakOn_marker, if_pos hmarker] at h
    cases h
  | case5 sc b c rest hopen hclose text last hscan ih =>
    rw [breakOn_marker, if_neg (ne_marker hopen hclose), Option.map_eq_none_iff] at h
    rw [hscan, read_inBlock, read_opener] at ih
    exact ih h

/-- At a marker the scanner changes sides, and it notes where a comment is opened. -/
theorem scan_of_some {sc : Scanner} {s before after : Bytes}
    (h : Bytes.breakOn (marker sc.inBlock) s = some (before, after)) :
    ∃ next : Scanner, (sc.scan s).2 = (next.scan after).2 ∧ next.inBlock = !sc.inBlock ∧
      next.newlines = sc.newlines + before.count newline ∧
      (sc.inBlock = false → next.opener = next.newlines) := by
  fun_induction scan sc s generalizing before with
  | case1 sc =>
    rw [breakOn_marker_of_short (by simp)] at h
    cases h
  | case2 sc b =>
    rw [breakOn_marker_of_short (by simp)] at h
    cases h
  | case3 sc b c rest hopen text last hscan ih =>
    obtain ⟨hblock, rfl, rfl⟩ := hopen
    have hmarker : [47, 42] = marker false := rfl
    rw [hblock, breakOn_marker, if_pos hmarker] at h
    cases h
    refine ⟨_, (congrArg Prod.snd hscan).symm, ?_, rfl, fun _ => rfl⟩
    rw [hblock]
    rfl
  | case4 sc b c rest hnot hclose text last hscan ih =>
    obtain ⟨hblock, rfl, rfl⟩ := hclose
    have hmarker : [42, 47] = marker true := rfl
    rw [hblock, breakOn_marker, if_pos hmarker] at h
    cases h
    refine ⟨_, (congrArg Prod.snd hscan).symm, ?_, rfl, fun hout => ?_⟩
    · rw [hblock]
      rfl
    · rw [hblock] at hout
      cases hout
  | case5 sc b c rest hopen hclose text last hscan ih =>
    rw [breakOn_marker, if_neg (ne_marker hopen hclose)] at h
    obtain ⟨⟨first, tail⟩, hrest, heq⟩ := Option.map_eq_some_iff.mp h
    cases heq
    rw [read_inBlock, read_newlines, hscan] at ih
    obtain ⟨next, hnext, hside, hnewlines, hopener⟩ := ih hrest
    refine ⟨next, hnext, hside, ?_, hopener⟩
    rw [hnewlines, Nat.add_assoc, ← List.count_append, List.singleton_append]

/-- A scan that begins outside of block comments ends within one if there is one without an end. -/
theorem scan_snd {sc : Scanner} (hsc : sc.inBlock = false) (s : Bytes) :
    (if (sc.scan s).2.inBlock then some (sc.scan s).2.opener else none) =
      (beforeUnterminated? s).map fun before => sc.newlines + before.count newline := by
  fun_induction beforeUnterminated? s generalizing sc with
  | case1 s hopen =>
    have hmarker : Bytes.breakOn (marker sc.inBlock) s = none := by rwa [hsc]
    obtain ⟨hside, -⟩ := scan_of_none hmarker
    rw [hside, hsc]
    rfl
  | case2 s before inside hopen hclose =>
    have hmarker : Bytes.breakOn (marker sc.inBlock) s = some (before, inside) := by rwa [hsc]
    obtain ⟨opened, hscan, hside, hnewlines, hopener⟩ := scan_of_some hmarker
    rw [hsc, Bool.not_false] at hside
    have hmarker' : Bytes.breakOn (marker opened.inBlock) inside = none := by rwa [hside]
    obtain ⟨hside', hopener'⟩ := scan_of_none hmarker'
    rw [hscan, hside', hside, hopener', hopener hsc, hnewlines]
    rfl
  | case3 s before inside hopen body after hclose _ ih =>
    have hmarker : Bytes.breakOn (marker sc.inBlock) s = some (before, inside) := by rwa [hsc]
    obtain ⟨opened, hscan, hside, hnewlines, -⟩ := scan_of_some hmarker
    rw [hsc, Bool.not_false] at hside
    have hmarker' : Bytes.breakOn (marker opened.inBlock) inside = some (body, after) := by
      rwa [hside]
    obtain ⟨closed, hscan', hside', hnewlines', -⟩ := scan_of_some hmarker'
    rw [hside, Bool.not_true] at hside'
    rw [hscan, hscan', ih hside', hnewlines', hnewlines, Option.map_map]
    congr 1
    funext rest
    have hopener : blockOpener.count newline = 0 := rfl
    have hcloser : blockCloser.count newline = 0 := rfl
    simp only [Function.comp_apply, List.count_append, hopener, hcloser]
    omega

end Scanner

/-- The two passes give what one scan gives that begins outside of all comments. There is a warning
exactly if the scan ends within a block comment, one warning, with the line of its opener. -/
theorem strip_eq_scan (source : Bytes) :
    let scanned := Scanner.initial.scan source
    strip source = scanned.1 ∧
      Script.warningsOf source =
        if scanned.2.inBlock then [⟨↑(1 + scanned.2.opener), .unterminatedComment⟩] else [] := by
  intro scanned
  have hlast : (if scanned.2.inBlock then some scanned.2.opener else none) =
      (beforeUnterminated? source).map fun before => 0 + before.count newline :=
    Scanner.scan_snd rfl source
  refine ⟨(Scanner.scan_initial source).symm, ?_⟩
  rw [Script.warningsOf, unterminatedLine?]
  cases hbefore : beforeUnterminated? source with
  | none =>
    rw [hbefore] at hlast
    have hblock : scanned.2.inBlock = false := by simpa using hlast
    rw [hblock]
    rfl
  | some before =>
    rw [hbefore] at hlast
    obtain ⟨hblock, hopener⟩ : scanned.2.inBlock = true ∧
        scanned.2.opener = before.count newline := by simpa using hlast
    rw [hblock, hopener]
    rfl

/-- The second slash opens a block comment, so there is no line comment. -/
example : (Scanner.initial.scan (ascii "a//*b\nc*/d")).1 = ascii "a/   \n   d" := by decide

end TimedInput.Comment
