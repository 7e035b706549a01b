import TimedInput.Backend.Desktop
import TimedInput.Proofs.Number.Nearest

/-!
# Positions in parts of the screen

A move to a position on the virtual screen is sent in parts of the screen, counted from its corner
in each direction. The first pixel is sent as the first part and the last pixel as the last one,
wherever the corner is and whatever the screen measures.
-/

namespace TimedInput.Desktop

open Rounding

/-- The part of an axis that a coordinate is sent as. -/
def part (origin extent x : Int32) : Int32 :=
  scale (x - origin) (lastPixel extent)

/-- A coordinate of a pixel of the screen, along an axis that starts at `origin`. -/
def OnAxis (origin extent x : Int32) : Prop :=
  origin.toInt ≤ x.toInt ∧ x.toInt < origin.toInt + extent.toInt

/-- The pixels of an axis are spread over its parts: the first and the last pixel are the first and
the last part, their order is kept, and each of them is sent as the nearest part. -/
structure Faithful (origin extent : Int32) (parts : Int32 → Int32) : Prop where
  range : ∀ x, OnAxis origin extent x → 0 ≤ parts x ∧ parts x ≤ 65535
  first : parts origin = 0
  last : ∀ x, x.toInt = origin.toInt + (extent.toInt - 1) → parts x = 65535
  mono : ∀ x y, OnAxis origin extent x → OnAxis origin extent y → x ≤ y → parts x ≤ parts y
  strict : extent ≤ 65536 →
    ∀ x y, OnAxis origin extent x → OnAxis origin extent y → x < y → parts x < parts y
  nearest : ∀ x n, OnAxis origin extent x →
    ((parts x).toInt = n ↔
      IsNearest ((x.toInt - origin.toInt) * 65535 / (extent.toInt - 1)) n)

/-- The place of pixel `d` among the parts, when pixel `l` is the last one. -/
def place (d l : Nat) : ℚ :=
  d * 65535 / l

section Place

variable {d e l : Nat}

theorem place_nonneg (d l : Nat) : 0 ≤ place d l := by
  unfold place
  positivity

theorem place_zero (l : Nat) : place 0 l = 0 := by
  rw [place, Nat.cast_zero, zero_mul, zero_div]

theorem place_le_place (h : d ≤ e) : place d l ≤ place e l := by
  unfold place
  gcongr

theorem place_self (h : 1 ≤ l) : place l l = (65535 : Nat) := by
  have hne : (l : ℚ) ≠ 0 := Nat.cast_ne_zero.mpr (by omega)
  rw [place, mul_div_cancel_left₀ _ hne]
  rfl

/-- As long as there are not more pixels than parts, the places are a part or more apart. -/
theorem place_add_one_le (hl : 1 ≤ l) (hfew : l ≤ 65535) (h : d < e) :
    place d l + 1 ≤ place e l := by
  have hpos : (0 : ℚ) < l := Nat.cast_pos.mpr (by omega)
  have hfewCast : (l : ℚ) ≤ 65535 := by exact_mod_cast hfew
  have hstep : (d : ℚ) + 1 ≤ e := by exact_mod_cast h
  unfold place
  rw [div_add_one hpos.ne', div_le_div_iff_of_pos_right hpos]
  linarith

theorem halfAway_place_mem (hl : 1 ≤ l) (hd : d ≤ l) :
    0 ≤ halfAway (place d l) ∧ halfAway (place d l) ≤ 65535 := by
  have hlow : halfAway 0 ≤ halfAway (place d l) := halfAway_mono le_rfl (place_nonneg d l)
  have hhigh : halfAway (place d l) ≤ halfAway (65535 : Nat) :=
    halfAway_mono (place_nonneg d l) ((place_le_place hd).trans_eq (place_self hl))
  rw [halfAway_zero] at hlow
  rw [halfAway_natCast] at hhigh
  exact ⟨hlow, hhigh⟩

end Place

/-- Both roundings together come to the nearest integer of the exact place. -/
theorem toInt_scale {distance last : Int32} {d l : Nat} (hdistance : distance.toInt = d)
    (hlast : last.toInt = l) (hl : 1 ≤ l) (hd : d ≤ l) :
    (scale distance last).toInt = halfAway (place d l) := by
  have hsmall : l < 2 ^ 31 := by
    have h := last.toInt_lt
    omega
  have hproduct : binary64 ((d : ℚ) * 65535) = ((d * 65535 : Nat) : ℚ) := by
    rw [← binary64_natCast (by omega : d * 65535 < 2 ^ 53)]
    push_cast
    rfl
  have hquotient : halfAway (binary64 (((d * 65535 : Nat) : ℚ) / l)) = halfAway (place d l) := by
    rw [halfAway_binary64_div (by omega) (by omega), place]
    push_cast
    rfl
  obtain ⟨hlow, hhigh⟩ := halfAway_place_mem hl hd
  unfold scale
  simp only [hdistance, hlast, Int.cast_natCast]
  rw [hproduct, hquotient, Int32.toInt_ofInt_of_le (by omega) (by omega)]

section Axis

variable {origin extent : Int32} {l : Nat} (hextent : extent.toInt = l + 1) (hl : 1 ≤ l)
include hextent

theorem OnAxis.exists_distance {x : Int32} (h : OnAxis origin extent x) :
    ∃ d : Nat, d ≤ l ∧ x.toInt = origin.toInt + d := by
  obtain ⟨hlow, hhigh⟩ := h
  exact ⟨(x.toInt - origin.toInt).toNat, by omega, by omega⟩

include hl

theorem toInt_lastPixel : (lastPixel extent).toInt = l := by
  have hsub : (extent - 1).toInt = l := by
    have hbound := extent.toInt_lt
    rw [Int32.toInt_sub, Int32.toInt_one, Int.bmod_eq_of_le (by omega) (by omega)]
    omega
  have hone : ¬ extent - 1 < 1 := by
    rw [Int32.lt_iff_toInt_lt, hsub, Int32.toInt_one]
    omega
  rw [lastPixel, if_neg hone, hsub]

theorem toInt_part {x : Int32} {d : Nat} (hd : d ≤ l) (hx : x.toInt = origin.toInt + d) :
    (part origin extent x).toInt = halfAway (place d l) := by
  -- a pixel is less than the whole extent away from the corner, so the distance does not wrap
  have hdistance : (x - origin).toInt = d := by
    have hbound := extent.toInt_lt
    rw [Int32.toInt_sub, Int.bmod_eq_of_le (by omega) (by omega)]
    omega
  exact toInt_scale hdistance (toInt_lastPixel hextent hl) hl hd

theorem faithful_part : Faithful origin extent (part origin extent) where
  range x hx := by
    obtain ⟨d, hd, hx⟩ := hx.exists_distance hextent
    have hmem := halfAway_place_mem hl hd
    rw [← toInt_part hextent hl hd hx] at hmem
    exact ⟨Int32.le_iff_toInt_le.mpr hmem.1, Int32.le_iff_toInt_le.mpr hmem.2⟩
  first := by
    apply Int32.toInt_inj.mp
    rw [toInt_part hextent hl (Nat.zero_le l) (by omega), place_zero, halfAway_zero]
    rfl
  last x hx := by
    apply Int32.toInt_inj.mp
    rw [toInt_part hextent hl le_rfl (by omega), place_self hl, halfAway_natCast]
    rfl
  mono x y hx hy hxy := by
    obtain ⟨d, hd, hx⟩ := hx.exists_distance hextent
    obtain ⟨e, he, hy⟩ := hy.exists_distance hextent
    rw [Int32.le_iff_toInt_le] at hxy ⊢
    rw [toInt_part hextent hl hd hx, toInt_part hextent hl he hy]
    exact halfAway_mono (place_nonneg d l) (place_le_place (by omega))
  strict hfew x y hx hy hxy := by
    obtain ⟨d, hd, hx⟩ := hx.exists_distance hextent
    obtain ⟨e, he, hy⟩ := hy.exists_distance hextent
    rw [Int32.le_iff_toInt_le] at hfew
    have hparts : (65536 : Int32).toInt = 65536 := rfl
    rw [Int32.lt_iff_toInt_lt] at hxy ⊢
    rw [toInt_part hextent hl hd hx, toInt_part hextent hl he hy]
    exact halfAway_lt (place_nonneg d l) (place_add_one_le hl (by omega) (by omega))
  nearest x n hx := by
    obtain ⟨d, hd, hx⟩ := hx.exists_distance hextent
    have hplace : ((x.toInt : ℚ) - origin.toInt) * 65535 / (extent.toInt - 1) = place d l := by
      rw [hx, hextent, place]
      push_cast
      ring
    rw [toInt_part hextent hl hd hx, hplace, isNearest_iff]

end Axis

/-- A move is sent as the parts of its two coordinates, and on either axis of two pixels or more
these are faithful to the pixels. Nothing is asked of the other axis, and the corner may be on any
side of the primary screen. -/
theorem absolute_moves_are_faithful (desktop : Desktop) :
    let column := part desktop.corner.x desktop.width
    let row := part desktop.corner.y desktop.height
    (∀ x y, (desktop.perform (.moveAbsolute x y)).2.sent =
      [.mouse (column x) (row y) 0 moveFlags] :: desktop.sent) ∧
    (2 ≤ desktop.width.toInt → Faithful desktop.corner.x desktop.width column) ∧
    (2 ≤ desktop.height.toInt → Faithful desktop.corner.y desktop.height row) := by
  intro column row
  refine ⟨fun _ _ => rfl, ?_, ?_⟩
  · intro hwidth
    exact faithful_part (l := (desktop.width.toInt - 1).toNat) (by omega) (by omega)
  · intro hheight
    exact faithful_part (l := (desktop.height.toInt - 1).toNat) (by omega) (by omega)

/-- A second screen stands to the left of the primary one, and somewhat lower. -/
theorem absolute_moves_are_faithful_on_two_screens :
    let desktop : Desktop := { standard with corner := ⟨-1920, 0⟩, width := 3840, height := 1280 }
    let request (x y : Int32) := (desktop.perform (.moveAbsolute x y)).2.sent
    2 ≤ desktop.width.toInt ∧ 2 ≤ desktop.height.toInt ∧
    request (-1920) 0 = [[.mouse 0 0 0 moveFlags]] ∧
    request 1919 1279 = [[.mouse 65535 65535 0 moveFlags]] ∧
    request 0 640 = [[.mouse 32776 32793 0 moveFlags]] := by
  intro desktop request
  have hwidth : 2 ≤ desktop.width.toInt := by decide
  have hheight : 2 ≤ desktop.height.toInt := by decide
  obtain ⟨hsent, hcolumn, hrow⟩ := absolute_moves_are_faithful desktop
  have hcolumn := hcolumn hwidth
  have hrow := hrow hheight
  refine ⟨hwidth, hheight, ?_, ?_, ?_⟩
  · exact (hsent (-1920) 0).trans (by rw [hcolumn.first, hrow.first]; rfl)
  · refine (hsent 1919 1279).trans ?_
    rw [hcolumn.last 1919 (by decide), hrow.last 1279 (by decide)]
    rfl
  · exact (hsent 0 640).trans (by decide +kernel)

end TimedInput.Desktop
