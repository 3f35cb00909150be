import ZealBringup.Fb.Target

/-!
# Filled rectangles

`fb_fillrect` clips the rectangle once and then runs a loop without checks over the indexed
surface, or over 32-bit pixels, or over single pixels for the other depths.  The clipping
adds in 32 bits, and the loop for the surface leaves the plane of 32-bit pixels alone.

* `fillrect_exact` — without wrapping and without an overlay the very writes of one pixel
  after the other are made.
* `fillrect_inexact` — otherwise some byte gives the difference away.
* `fillrect_eq_plotRect_iff` — the two together.
-/

namespace ZealBringup.Fb

open Sweep

/-! ## The code -/

/-- `if (x0 + w > g_fb_w) w = (uint32_t)(g_fb_w - x0);` -/
def clip (x0 w : UInt32) (edge : ℕ) : UInt32 :=
  if edge < (x0 + w).toNat then .ofNat (edge - x0.toNat) else w

/-- The loop over the indexed surface. -/
def fillSurface (t : Surface) (color : UInt8) (x0 y0 w h : UInt32) : List Write :=
  (List.range h.toNat).flatMap fun y =>
    let row := (y0 + .ofNat y).toNat * t.stride + x0.toNat
    (List.range w.toNat).map fun x => ((.surface, row + x), color)

/-- The loop over 32-bit pixels. -/
def fillWords (s : Screen) (pix x0 y0 w h : UInt32) : List Write :=
  (List.range h.toNat).flatMap fun y =>
    let row := (y0 + .ofNat y).toNat * s.pitch + x0.toNat * 4
    (List.range w.toNat).flatMap fun x => store32 .fb (row + x * 4) pix

/-- The loop over single pixels. -/
def fillPixels (s : Screen) (bgr x0 y0 w h : UInt32) : List Write :=
  (List.range h.toNat).flatMap fun y => (List.range w.toNat).flatMap fun x =>
    fbPutpixel s (x0 + .ofNat x) (y0 + .ofNat y) bgr

def fbFillrect (s : Screen) (x0 y0 w h bgr : UInt32) : List Write :=
  if !s.fb || w == 0 || h == 0 then [] else
  if s.w ≤ x0.toNat || s.h ≤ y0.toNat then [] else
  let w := clip x0 w s.w
  let h := clip y0 h s.h
  match s.render with
  | some t => fillSurface t (fbNearestPaletteIndex s.palette bgr) x0 y0 w h
  | none =>
    if s.pxb = 4 then fillWords s (bgr &&& 0x00ffffff) x0 y0 w h
    else fillPixels s bgr x0 y0 w h

/-- `fb_putpixel` for each pixel `(x0 + i, y0 + j)` of the rectangle that is on the screen. -/
def plotRect (s : Screen) (x0 y0 w h bgr : UInt32) : List Write :=
  (List.range h.toNat).flatMap fun j => (List.range w.toNat).flatMap fun i =>
    pixel s bgr (x0.toNat + i) (y0.toNat + j)

/-- The loop runs over pixels without asking whether they are on the screen. -/
def Screen.fast (s : Screen) : Bool := s.render.isSome || s.pxb == 4

/-- Something of the rectangle is to be seen. -/
structure Visible (s : Screen) (x0 y0 w h : UInt32) : Prop where
  shows : s.shows
  wide : 0 < w.toNat
  high : 0 < h.toNat
  left : x0.toNat < s.w
  top : y0.toNat < s.h

/-- When filling is plotting: what is to be seen has no overlay, and its right and lower edges
do not wrap. -/
def FillExact (s : Screen) (x0 y0 w h : UInt32) : Prop :=
  Visible s x0 y0 w h → s.overlaid = false ∧
    if s.fast then x0.toNat + w.toNat < 2 ^ 32 ∧ y0.toNat + h.toNat < 2 ^ 32
    else x0.toNat + w.toNat ≤ 2 ^ 32 ∧ y0.toNat + h.toNat ≤ 2 ^ 32

variable {s : Screen} {x0 y0 w h bgr : UInt32} {k : Cell}

/-! ## Clipping -/

theorem toNat_clip {edge : ℕ} (hx : x0.toNat < edge) (hedge : edge < 2 ^ 32)
    (hw : x0.toNat + w.toNat < 2 ^ 32) :
    (clip x0 w edge).toNat = min w.toNat (edge - x0.toNat) := by
  rw [clip, UInt32.toNat_add, Nat.mod_eq_of_lt hw]
  split
  · rw [toNat_ofNat (by omega)]
    omega
  · omega

theorem clip_of_wrap {edge : ℕ} (hx : x0.toNat < edge) (hw : 2 ^ 32 ≤ x0.toNat + w.toNat) :
    clip x0 w edge = w := by
  have hw' := w.toNat_lt
  have hx' := x0.toNat_lt
  rw [clip, UInt32.toNat_add, if_neg]
  omega

theorem clip_pos {edge : ℕ} (hx : x0.toNat < edge) (hedge : edge < 2 ^ 32) (hw : 0 < w.toNat) :
    0 < (clip x0 w edge).toNat := by
  rcases Nat.lt_or_ge (x0.toNat + w.toNat) (2 ^ 32) with hlt | hge
  · rw [toNat_clip hx hedge hlt]
    omega
  · rwa [clip_of_wrap hx hge]

/-! ## Blocks of pixels -/

/-- The writes for `m` rows of `n` pixels, those off the screen left out. -/
def block (s : Screen) (bgr : UInt32) (x y : ℤ) (n m : ℕ) : List Write :=
  sweep (fun v => sweep (fun u => pixelAt s bgr u v) x n) y m

theorem row_ne_nil {x v : ℤ} {n : ℕ} (h : sweep (fun u => pixelAt s bgr u v) x n ≠ []) :
    0 ≤ v ∧ v < s.h := by
  by_contra hno
  exact h (sweep_eq_nil fun u _ _ => by_contra fun hne => hno (pixelAt_ne_nil hne).2.2)

/-- Only the part of a block that is on the screen matters. -/
theorem block_congr {x y : ℤ} {n n' m m' : ℕ}
    (hn : n = n' ∨ ((s.w : ℤ) ≤ x + n ∧ (s.w : ℤ) ≤ x + n'))
    (hm : m = m' ∨ ((s.h : ℤ) ≤ y + m ∧ (s.h : ℤ) ≤ y + m')) :
    block s bgr x y n m = block s bgr x y n' m' := by
  have hrows : ∀ v, sweep (fun u => pixelAt s bgr u v) x n =
      sweep (fun u => pixelAt s bgr u v) x n' := by
    intro v
    obtain rfl | ⟨h1, h2⟩ := hn
    · rfl
    · refine sweep_eq_of_reach fun u _ hu => ?_
      have hin := (pixelAt_ne_nil hu).2.1
      omega
  have hcols : (fun v => sweep (fun u => pixelAt s bgr u v) x n) =
      fun v => sweep (fun u => pixelAt s bgr u v) x n' := funext hrows
  rw [block, block, hcols]
  obtain rfl | ⟨h1, h2⟩ := hm
  · rfl
  · refine sweep_eq_of_reach fun v _ hv => ?_
    have hin := row_ne_nil hv
    omega

theorem plotRect_eq_block (s : Screen) (x0 y0 w h bgr : UInt32) :
    plotRect s x0 y0 w h bgr = block s bgr x0.toNat y0.toNat w.toNat h.toNat := by
  refine List.flatMap_congr fun j _ => List.flatMap_congr fun i _ => ?_
  show _ = pixelAt s bgr ((x0.toNat : ℤ) + i) ((y0.toNat : ℤ) + j)
  rw [← Nat.cast_add, ← Nat.cast_add, pixelAt_natCast]

theorem toNat_add_ofNat {v : UInt32} {i : ℕ} (h : v.toNat + i < 2 ^ 32) :
    (v + .ofNat i).toNat = v.toNat + i := by
  rw [UInt32.toNat_add, toNat_ofNat (by omega), Nat.mod_eq_of_lt h]

theorem toNat_add_ofNat_wrap {v : UInt32} {i : ℕ} (h : v.toNat + i = 2 ^ 32) :
    (v + .ofNat i).toNat = 0 := by
  rw [UInt32.toNat_add, UInt32.toNat_ofNat', Nat.add_mod_mod, h]
  rfl

theorem pixelAt_add (s : Screen) (bgr x0 y0 : UInt32) (i j : ℕ) :
    pixelAt s bgr ((x0.toNat : ℤ) + i) ((y0.toNat : ℤ) + j) =
      pixel s bgr (x0.toNat + i) (y0.toNat + j) := by
  rw [← Nat.cast_add, ← Nat.cast_add, pixelAt_natCast]

/-! ## Filling as plotting -/

theorem fillSurface_eq_block {t : Surface} (hfb : s.fb) (hr : s.render = some t)
    (hover : s.overlaid = false) (hx : x0.toNat + w.toNat ≤ s.w) (hy : y0.toNat + h.toNat ≤ s.h) :
    fillSurface t (fbNearestPaletteIndex s.palette bgr) x0 y0 w h =
      block s bgr x0.toNat y0.toNat w.toNat h.toNat := by
  have hw := s.w_lt
  have hh := s.h_lt
  refine List.flatMap_congr fun j hj => ?_
  have hj' := List.mem_range.mp hj
  rw [List.map_eq_flatMap]
  refine List.flatMap_congr fun i hi => ?_
  have hi' := List.mem_range.mp hi
  show _ = pixelAt s bgr ((x0.toNat : ℤ) + i) ((y0.toNat : ℤ) + j)
  rw [pixelAt_add, pixel_surface hfb hr (by omega) (by omega), hover,
    toNat_add_ofNat (by omega), if_neg Bool.false_ne_true, add_assoc]

theorem toUInt8_congr {a b : UInt32}
    (h : ∀ i < 8, a.toBitVec.getLsbD i = b.toBitVec.getLsbD i) : a.toUInt8 = b.toUInt8 := by
  refine UInt8.toBitVec_inj.mp (BitVec.eq_of_getLsbD_eq fun i hi => ?_)
  rw [UInt32.toBitVec_toUInt8, UInt32.toBitVec_toUInt8, BitVec.getLsbD_setWidth,
    BitVec.getLsbD_setWidth, h i hi]

/-- A store of a pixel's 32 bits is what plotting it writes. -/
theorem store32_eq_pixel {x y : ℕ} (hfb : s.fb) (hr : s.render = none) (hpxb : s.pxb = 4)
    (hx : x < s.w) (hy : y < s.h) :
    store32 .fb (y * s.pitch + x * 4) (bgr &&& 0x00ffffff) = pixel s bgr x y := by
  rw [pixel_direct hfb hr hx hy, hpxb, if_pos (by decide), if_pos (by decide), store32]
  have h0 : (bgr &&& 0x00ffffff).toUInt8 = (bgr &&& 0xff).toUInt8 :=
    toUInt8_congr fun i hi => by interval_cases i <;> simp
  have h1 : ((bgr &&& 0x00ffffff) >>> 8).toUInt8 = ((bgr >>> 8) &&& 0xff).toUInt8 :=
    toUInt8_congr fun i hi => by interval_cases i <;> simp
  have h2 : ((bgr &&& 0x00ffffff) >>> 16).toUInt8 = ((bgr >>> 16) &&& 0xff).toUInt8 :=
    toUInt8_congr fun i hi => by interval_cases i <;> simp
  have h3 : ((bgr &&& 0x00ffffff) >>> 24).toUInt8 = (0 : UInt32).toUInt8 :=
    toUInt8_congr fun i hi => by interval_cases i <;> simp
  rw [h0, h1, h2, h3]
  rfl

theorem fillWords_eq_block (hfb : s.fb) (hr : s.render = none) (hpxb : s.pxb = 4)
    (hx : x0.toNat + w.toNat ≤ s.w) (hy : y0.toNat + h.toNat ≤ s.h) :
    fillWords s (bgr &&& 0x00ffffff) x0 y0 w h =
      block s bgr x0.toNat y0.toNat w.toNat h.toNat := by
  have hw := s.w_lt
  have hh := s.h_lt
  refine List.flatMap_congr fun j hj => List.flatMap_congr fun i hi => ?_
  have hj' := List.mem_range.mp hj
  have hi' := List.mem_range.mp hi
  show _ = pixelAt s bgr ((x0.toNat : ℤ) + i) ((y0.toNat : ℤ) + j)
  rw [pixelAt_add, ← store32_eq_pixel hfb hr hpxb (by omega) (by omega),
    toNat_add_ofNat (by omega), add_assoc, ← add_mul]

theorem fillPixels_eq_block (hx : x0.toNat + w.toNat ≤ 2 ^ 32) (hy : y0.toNat + h.toNat ≤ 2 ^ 32) :
    fillPixels s bgr x0 y0 w h = block s bgr x0.toNat y0.toNat w.toNat h.toNat := by
  refine List.flatMap_congr fun j hj => List.flatMap_congr fun i hi => ?_
  have hj' := List.mem_range.mp hj
  have hi' := List.mem_range.mp hi
  show _ = pixelAt s bgr ((x0.toNat : ℤ) + i) ((y0.toNat : ℤ) + j)
  rw [pixelAt_add, fbPutpixel_eq_pixel, toNat_add_ofNat (by omega), toNat_add_ofNat (by omega)]

theorem plotRect_eq_nil (h' : ¬Visible s x0 y0 w h) : plotRect s x0 y0 w h bgr = [] := by
  refine List.flatMap_eq_nil_iff.mpr fun j hj => List.flatMap_eq_nil_iff.mpr fun i hi => ?_
  have hj' := List.mem_range.mp hj
  have hi' := List.mem_range.mp hi
  by_cases hs : s.shows
  · refine if_neg fun hin => h' ⟨hs, ?_, ?_, ?_, ?_⟩ <;> omega
  · exact pixel_eq_nil hs

theorem fbFillrect_of_visible (hv : Visible s x0 y0 w h) : fbFillrect s x0 y0 w h bgr =
    match s.render with
    | some t => fillSurface t (fbNearestPaletteIndex s.palette bgr) x0 y0 (clip x0 w s.w)
        (clip y0 h s.h)
    | none =>
      if s.pxb = 4 then
        fillWords s (bgr &&& 0x00ffffff) x0 y0 (clip x0 w s.w) (clip y0 h s.h)
      else fillPixels s bgr x0 y0 (clip x0 w s.w) (clip y0 h s.h) := by
  have hfb : s.fb := (Bool.and_eq_true_iff.mp hv.shows).1
  have hw : w ≠ 0 := fun h0 => absurd hv.wide (by rw [h0]; decide)
  have hh : h ≠ 0 := fun h0 => absurd hv.high (by rw [h0]; decide)
  have hleft := hv.left
  have htop := hv.top
  rw [fbFillrect, if_neg, if_neg]
  · simp only [Bool.or_eq_true, decide_eq_true_eq]
    omega
  · simp [hfb, hw, hh]

theorem fbFillrect_eq_nil (h' : ¬Visible s x0 y0 w h) : fbFillrect s x0 y0 w h bgr = [] := by
  rw [fbFillrect]
  split
  case isTrue => rfl
  case isFalse hhead =>
    simp only [Bool.or_eq_true, Bool.not_eq_true', beq_iff_eq, not_or, Bool.not_eq_false] at hhead
    obtain ⟨⟨hfb, hw⟩, hh⟩ := hhead
    split
    case isTrue => rfl
    case isFalse hin =>
      simp only [Bool.or_eq_true, decide_eq_true_eq, not_or, not_le] at hin
      -- only the depth is left to be the reason
      have hs : ¬s.shows := fun hs => h' ⟨hs, by
        have hne := fun h0 => hw (UInt32.toNat_inj.mp (h0 : w.toNat = (0 : UInt32).toNat))
        simp at hne; omega, by
        have hne := fun h0 => hh (UInt32.toNat_inj.mp (h0 : h.toNat = (0 : UInt32).toNat))
        simp at hne; omega, hin.1, hin.2⟩
      simp only [Screen.shows, hfb, Bool.true_and, Bool.or_eq_true, decide_eq_true_eq, not_or] at hs
      have hr : s.render = none := by simpa using hs.1
      simp only [hr]
      rw [if_neg (by omega)]
      refine List.flatMap_eq_nil_iff.mpr fun j _ => List.flatMap_eq_nil_iff.mpr fun i _ => ?_
      rw [fbPutpixel_eq_pixel]
      exact pixel_eq_nil (by simp [Screen.shows, hr]; omega)

/-- **Filling is plotting** pixel by pixel, write by write. -/
theorem fillrect_exact (hex : FillExact s x0 y0 w h) :
    fbFillrect s x0 y0 w h bgr = plotRect s x0 y0 w h bgr := by
  by_cases hv : Visible s x0 y0 w h
  case neg => rw [fbFillrect_eq_nil hv, plotRect_eq_nil hv]
  have hfb : s.fb := (Bool.and_eq_true_iff.mp hv.shows).1
  have hleft := hv.left
  have htop := hv.top
  have hsw := s.w_lt
  have hsh := s.h_lt
  obtain ⟨hover, hwrap⟩ := hex hv
  rw [fbFillrect_of_visible hv, plotRect_eq_block]
  by_cases hfast : s.fast
  · rw [if_pos hfast] at hwrap
    have hw := toNat_clip hleft hsw hwrap.1
    have hh := toNat_clip htop hsh hwrap.2
    have hblock : block s bgr x0.toNat y0.toNat w.toNat h.toNat =
        block s bgr x0.toNat y0.toNat (clip x0 w s.w).toNat (clip y0 h s.h).toNat := by
      refine block_congr ?_ ?_ <;> omega
    rw [hblock]
    cases hr : s.render with
    | some t => exact fillSurface_eq_block hfb hr hover (by omega) (by omega)
    | none =>
      have hpxb : s.pxb = 4 := by simpa [Screen.fast, hr] using hfast
      simp only [hpxb, if_true]
      exact fillWords_eq_block hfb hr hpxb (by omega) (by omega)
  · rw [if_neg hfast] at hwrap
    obtain ⟨hr, hpxb⟩ : s.render = none ∧ s.pxb ≠ 4 := by simpa [Screen.fast] using hfast
    simp only [hr, hpxb, if_false]
    have hclip : ∀ {v n : UInt32} {edge : ℕ}, v.toNat < edge → edge < 2 ^ 32 →
        v.toNat + n.toNat ≤ 2 ^ 32 → v.toNat + (clip v n edge).toNat ≤ 2 ^ 32 ∧
          (n.toNat = (clip v n edge).toNat ∨
            (edge ≤ v.toNat + n.toNat ∧ edge ≤ v.toNat + (clip v n edge).toNat)) := by
      intro v n edge hv' hedge hn
      rcases hn.lt_or_eq with hlt | heq
      · have hc := toNat_clip hv' hedge hlt
        omega
      · rw [clip_of_wrap hv' heq.ge]
        omega
    obtain ⟨hw, hcw⟩ := hclip hleft hsw hwrap.1
    obtain ⟨hh, hch⟩ := hclip htop hsh hwrap.2
    rw [fillPixels_eq_block hw hh]
    refine (block_congr ?_ ?_).symm <;> omega

/-! ## Where filling is not plotting -/

theorem mem_cells_plotRect : k ∈ cells (plotRect s x0 y0 w h bgr) ↔
    ∃ j < h.toNat, ∃ i < w.toNat, k ∈ cells (pixel s bgr (x0.toNat + i) (y0.toNat + j)) := by
  simp only [plotRect, cells, List.map_flatMap, List.mem_flatMap, List.mem_range]

theorem mem_cells_fillPixels : k ∈ cells (fillPixels s bgr x0 y0 w h) ↔ ∃ j < h.toNat, ∃ i < w.toNat,
    k ∈ cells (pixel s bgr (x0 + .ofNat i).toNat (y0 + .ofNat j).toNat) := by
  simp only [fillPixels, cells, List.map_flatMap, List.mem_flatMap, List.mem_range,
    fbPutpixel_eq_pixel]

theorem plane_of_mem_fillSurface {t : Surface} {color : UInt8}
    (hk : k ∈ cells (fillSurface t color x0 y0 w h)) : k.1 = .surface := by
  simp only [fillSurface, cells, List.map_flatMap, List.mem_flatMap, List.map_map,
    List.mem_map] at hk
  obtain ⟨j, -, i, -, rfl⟩ := hk
  rfl

/-- The loops that do not ask reach every place they count to. -/
theorem anchor_mem_fast (hfast : s.fast) (hv : Visible s x0 y0 w h) {i j : ℕ}
    (hj : j < (clip y0 h s.h).toNat) (hi : i < (clip x0 w s.w).toNat) :
    anchor s (x0.toNat + i) (y0 + .ofNat j).toNat ∈ cells (fbFillrect s x0 y0 w h bgr) := by
  rw [fbFillrect_of_visible hv]
  cases hr : s.render with
  | some t =>
    simp only [fillSurface, cells, List.map_flatMap, List.mem_flatMap, List.map_map, List.mem_map,
      List.mem_range]
    refine ⟨j, hj, i, hi, ?_⟩
    simp [anchor, Screen.front, Screen.rowStep, Screen.pixelStep, hr, add_assoc]
  | none =>
    have hpxb : s.pxb = 4 := by simpa [Screen.fast, hr] using hfast
    simp only [hpxb, if_true, fillWords, cells, List.map_flatMap, List.mem_flatMap, List.mem_range]
    refine ⟨j, hj, i, hi, mem_cells_store32.mpr ⟨?_, 0, by decide, ?_⟩⟩
    · simp [anchor, Screen.front, hr]
    · simp only [anchor, Screen.front, Screen.rowStep, Screen.pixelStep, hr, hpxb,
        Option.isSome_none, Bool.false_eq_true, if_false]
      ring

/-- A place below a pixel, or right of the screen in its row, is none of its bytes. -/
theorem anchor_beyond {X Y x y : ℕ} (hk : anchor s X Y ∈ cells (pixel s bgr x y))
    (hbeyond : y < Y ∨ y = Y ∧ s.w ≤ X) : False := by
  obtain ⟨⟨-, hx, -⟩, j, hj, hpos⟩ := mem_cells_pixel.mp hk
  have hfits := s.row_le (Nat.zero_lt_of_lt hj)
  have hlt := offset_lt le_rfl hx (hj.trans_le (s.drawn_le _))
  simp only [anchor] at hpos hfits hlt
  obtain hy | ⟨rfl, hX⟩ := hbeyond
  · have hrow : (y + 1) * s.rowStep s.front ≤ Y * s.rowStep s.front := Nat.mul_le_mul_right _ hy
    rw [Nat.add_mul, Nat.one_mul] at hrow
    omega
  · have hcol : s.w * s.pixelStep s.front ≤ X * s.pixelStep s.front := Nat.mul_le_mul_right _ hX
    omega

theorem differ {us vs : List Write} (hu : k ∈ cells us) (hv : k ∉ cells vs) :
    ∃ k, ¬(k ∈ cells us ↔ k ∈ cells vs) := ⟨k, fun hiff => hv (hiff.mp hu)⟩

/-- Filling that is not exact shows at some byte. -/
theorem fillrect_inexact (hex : ¬FillExact s x0 y0 w h) : ∃ k,
    ¬(k ∈ cells (fbFillrect s x0 y0 w h bgr) ↔ k ∈ cells (plotRect s x0 y0 w h bgr)) := by
  rw [FillExact, Classical.not_imp] at hex
  obtain ⟨hv, hwrap⟩ := hex
  have hleft := hv.left
  have htop := hv.top
  have hwide := hv.wide
  have hhigh := hv.high
  have hsw := s.w_lt
  have hsh := s.h_lt
  have hxlt := x0.toNat_lt
  have hylt := y0.toNat_lt
  have hwlt := w.toNat_lt
  have hhlt := h.toNat_lt
  have hfb : s.fb := (Bool.and_eq_true_iff.mp hv.shows).1
  rw [not_and_or, Bool.not_eq_false] at hwrap
  by_cases hover : s.overlaid
  · -- the plane of 32-bit pixels is left out
    refine ⟨(.rgba, y0.toNat * s.rowStep .rgba + x0.toNat * s.pixelStep .rgba), fun hiff => ?_⟩
    have hplot := hiff.mpr (mem_cells_plotRect.mpr ⟨0, hhigh, 0, hwide,
      overlay_mem hfb hover hleft htop⟩)
    rw [fbFillrect_of_visible hv] at hplot
    cases hr : s.render with
    | none => simp [Screen.overlaid, hr] at hover
    | some t =>
      simp only [hr] at hplot
      have hplane : Plane.rgba = .surface := plane_of_mem_fillSurface hplot
      exact absurd hplane (by decide)
  have hwrap := hwrap.resolve_left hover
  by_cases hfast : s.fast
  · rw [if_pos hfast, not_and_or] at hwrap
    by_cases hy : y0.toNat + h.toNat < 2 ^ 32
    · -- the last row runs on past the right edge
      have hx : 2 ^ 32 ≤ x0.toNat + w.toNat := by omega
      have hclip := toNat_clip htop hsh hy
      have hmem := @anchor_mem_fast s x0 y0 w h bgr hfast hv (w.toNat - 1)
        ((clip y0 h s.h).toNat - 1) (by omega) (by rw [clip_of_wrap hleft hx]; omega)
      rw [toNat_add_ofNat (by omega)] at hmem
      refine differ hmem fun hplot => ?_
      obtain ⟨j, hj, i, hi, hk⟩ := mem_cells_plotRect.mp hplot
      have hin := (mem_cells_pixel.mp hk).1.2.2
      exact anchor_beyond hk (by omega)
    · -- the last row that does not wrap is below the screen
      have hclip : clip y0 h s.h = h := clip_of_wrap htop (by omega)
      have hmem := @anchor_mem_fast s x0 y0 w h bgr hfast hv 0 (2 ^ 32 - 1 - y0.toNat)
        (by rw [hclip]; omega) (clip_pos hleft hsw hwide)
      rw [toNat_add_ofNat (by omega)] at hmem
      refine differ hmem fun hplot => ?_
      obtain ⟨j, hj, i, hi, hk⟩ := mem_cells_plotRect.mp hplot
      have hin := (mem_cells_pixel.mp hk).1.2.2
      exact anchor_beyond hk (by omega)
  · rw [if_neg hfast, not_and_or] at hwrap
    obtain ⟨hr, hpxb⟩ : s.render = none ∧ s.pxb ≠ 4 := by simpa [Screen.fast] using hfast
    have hfill : fbFillrect s x0 y0 w h bgr =
        fillPixels s bgr x0 y0 (clip x0 w s.w) (clip y0 h s.h) := by
      rw [fbFillrect_of_visible hv, hr]
      simp only [hpxb, if_false]
    have hfirst : ∀ {u v : ℕ}, (∃ j < (clip y0 h s.h).toNat, ∃ i < (clip x0 w s.w).toNat,
        (x0 + .ofNat i).toNat = u ∧ (y0 + .ofNat j).toNat = v) → u < s.w → v < s.h →
        u < x0.toNat ∨ v < y0.toNat → ∃ k, ¬(k ∈ cells (fbFillrect s x0 y0 w h bgr) ↔
          k ∈ cells (plotRect s x0 y0 w h bgr)) := by
      rintro u v ⟨j, hj, i, hi, rfl, rfl⟩ hu hv' hout
      have hanchor := @anchor_mem s bgr _ _ hv.shows hu hv'
      rw [hfill]
      refine differ (mem_cells_fillPixels.mpr ⟨j, hj, i, hi, hanchor⟩) fun hplot => ?_
      obtain ⟨j', -, i', -, hk⟩ := mem_cells_plotRect.mp hplot
      obtain ⟨hu', hv''⟩ := pixel_unique hanchor hk
      omega
    by_cases hx : x0.toNat + w.toNat ≤ 2 ^ 32
    · -- the rows that wrap come back at the top
      have hy : 2 ^ 32 < y0.toNat + h.toNat := by omega
      refine hfirst ⟨2 ^ 32 - y0.toNat, ?_, 0, clip_pos hleft hsw hwide,
        toNat_add_ofNat (by omega), toNat_add_ofNat_wrap (by omega)⟩ hleft (by omega) (by omega)
      rw [clip_of_wrap htop (by omega)]
      omega
    · -- the columns that wrap come back at the left
      refine hfirst ⟨0, clip_pos htop hsh hhigh, 2 ^ 32 - x0.toNat, ?_,
        toNat_add_ofNat_wrap (by omega), toNat_add_ofNat (by omega)⟩ (by omega) htop (by omega)
      rw [clip_of_wrap hleft (by omega)]
      omega

/-- **Filling has the effect of plotting** exactly when nothing wraps and there is no overlay. -/
theorem fillrect_eq_plotRect_iff (s : Screen) (x0 y0 w h bgr : UInt32) :
    (∀ m, draw (fbFillrect s x0 y0 w h bgr) m = draw (plotRect s x0 y0 w h bgr) m) ↔
      FillExact s x0 y0 w h := by
  constructor
  · intro heq
    by_contra hex
    obtain ⟨k, hk⟩ := @fillrect_inexact s x0 y0 w h bgr hex
    exact hk (cells_of_draw_eq heq k)
  · intro hex m
    rw [fillrect_exact hex]

end ZealBringup.Fb
