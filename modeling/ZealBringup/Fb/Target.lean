import ZealBringup.Lib.LastWrite
import ZealBringup.Lib.Sweep

/-!
# Where pixels go

The drawing primitives of the kernel write to the framebuffer itself or, while a task frame
is being built, to an indexed surface and, under an overlay, to a plane of 32-bit pixels next
to it.  Drawing reads nothing back, so a primitive is modelled by the byte writes it makes,
in their order.

* `fbPutpixel` — the primitive that all others are measured by.
* `mem_cells_pixel` — the bytes that belong to a pixel.
* `pixel_unique` — no byte belongs to two pixels.
-/

namespace ZealBringup.Fb

open LastWrite Sweep

/-! ## Memory -/

/-- The three buffers that are drawn to. -/
inductive Plane
  | fb
  | surface
  | rgba
  deriving DecidableEq, Repr

/-- A byte of a buffer. -/
abbrev Cell := Plane × ℕ

abbrev Memory := Cell → UInt8

abbrev Write := Cell × UInt8

/-- The memory after some writes. -/
def draw (ws : List Write) (m : Memory) : Memory :=
  ws.foldl (fun m a => Function.update m a.1 a.2) m

/-- The bytes that some writes touch. -/
def cells (ws : List Write) : List Cell := ws.map Prod.fst

/-- A store of 32 bits, low byte first. -/
def store32 (p : Plane) (a : ℕ) (v : UInt32) : List Write :=
  [((p, a), v.toUInt8), ((p, a + 1), (v >>> 8).toUInt8), ((p, a + 2), (v >>> 16).toUInt8),
    ((p, a + 3), (v >>> 24).toUInt8)]

@[simp] theorem cells_nil : cells [] = [] := rfl

@[simp] theorem cells_append (us vs : List Write) : cells (us ++ vs) = cells us ++ cells vs :=
  List.map_append

theorem cells_sweep (g : ℤ → List Write) (a : ℤ) (n : ℕ) :
    cells (sweep g a n) = sweep (fun z => cells (g z)) a n := map_sweep _ g a n

theorem mem_cells_store32 {p : Plane} {a : ℕ} {v : UInt32} {k : Cell} :
    k ∈ cells (store32 p a v) ↔ k.1 = p ∧ ∃ j < 4, k.2 = a + j := by
  obtain ⟨q, i⟩ := k
  simp only [cells, store32, List.map_cons, List.map_nil, List.mem_cons, List.not_mem_nil,
    or_false, Prod.mk.injEq]
  constructor
  · rintro (⟨rfl, rfl⟩ | ⟨rfl, rfl⟩ | ⟨rfl, rfl⟩ | ⟨rfl, rfl⟩)
    exacts [⟨rfl, 0, by omega, rfl⟩, ⟨rfl, 1, by omega, rfl⟩, ⟨rfl, 2, by omega, rfl⟩,
      ⟨rfl, 3, by omega, rfl⟩]
  · rintro ⟨rfl, j, hj, rfl⟩
    simp only [true_and]
    omega

/-- Writes with the same effect on every memory touch the same bytes. -/
theorem cells_of_draw_eq {us vs : List Write} (h : ∀ m, draw us m = draw vs m) (k : Cell) :
    k ∈ cells us ↔ k ∈ cells vs :=
  haveI : Nontrivial UInt8 := ⟨⟨0, 1, by decide⟩⟩
  keys_eq_of_foldl_update_eq Prod.fst Prod.snd h k

/-! ## Screens -/

/-- The offscreen target of a task frame. -/
structure Surface where
  stride : ℕ
  rows : ℕ
  rgba : Bool
  overlay : Bool

def pixelBytes (bpp : UInt32) : ℕ := ((bpp + 7) / 8).toNat

/-- What drawing reads of the framebuffer's state.  The frame is only begun on a surface that
covers the screen, and a row of the framebuffer has room for its pixels. -/
structure Screen where
  fb : Bool
  w : ℕ
  h : ℕ
  pitch : ℕ
  bpp : UInt32
  palette : Fin 16 → UInt32
  render : Option Surface
  w_lt : w < 2 ^ 32
  h_lt : h < 2 ^ 32
  row_fits : w * pixelBytes bpp ≤ pitch
  surface_fits : ∀ t ∈ render, w ≤ t.stride ∧ h ≤ t.rows

/-- `g_fb_bpp` in whole bytes. -/
def Screen.pxb (s : Screen) : ℕ := pixelBytes s.bpp

/-- The distance of two colours, channel by channel. -/
def distance (bgr p : UInt32) : ℕ :=
  let dr : ℤ := ((bgr >>> 16) &&& 0xff).toNat - ((p >>> 16) &&& 0xff).toNat
  let dg : ℤ := ((bgr >>> 8) &&& 0xff).toNat - ((p >>> 8) &&& 0xff).toNat
  let db : ℤ := (bgr &&& 0xff).toNat - (p &&& 0xff).toNat
  (dr * dr).toNat + (dg * dg).toNat + (db * db).toNat

def fbNearestPaletteIndex (palette : Fin 16 → UInt32) (bgr : UInt32) : UInt8 :=
  ((List.finRange 16).foldl (fun (best : ℕ × UInt8) i =>
    if distance bgr (palette i) < best.1 then (distance bgr (palette i), .ofNat i) else best)
    (2 ^ 64 - 1, 0)).2

def fbPutpixel (s : Screen) (x y bgr : UInt32) : List Write :=
  if !s.fb || s.w ≤ x.toNat || s.h ≤ y.toNat then [] else
  match s.render with
  | some t =>
    if x.toNat < t.stride && y.toNat < t.rows then
      let i := y.toNat * t.stride + x.toNat
      ((.surface, i), fbNearestPaletteIndex s.palette bgr) ::
        if t.overlay && t.rgba then store32 .rgba (i * 4) (bgr &&& 0x00ffffff) else []
    else []
  | none =>
    let p := y.toNat * s.pitch + x.toNat * s.pxb
    if 3 ≤ s.pxb then
      [((.fb, p), (bgr &&& 0xff).toUInt8), ((.fb, p + 1), ((bgr >>> 8) &&& 0xff).toUInt8),
        ((.fb, p + 2), ((bgr >>> 16) &&& 0xff).toUInt8)] ++
        if 4 ≤ s.pxb then [((.fb, p + 3), 0)] else []
    else []

/-! ## Pixels and their bytes -/

namespace Screen

/-- How far apart the rows of a buffer are. -/
def rowStep (s : Screen) : Plane → ℕ
  | .fb => s.pitch
  | .surface => (s.render.map Surface.stride).getD 0
  | .rgba => (s.render.map Surface.stride).getD 0 * 4

/-- How far apart the pixels of a row are. -/
def pixelStep (s : Screen) : Plane → ℕ
  | .fb => s.pxb
  | .surface => 1
  | .rgba => 4

/-- Whether drawing goes to the 32-bit plane as well. -/
def overlaid (s : Screen) : Bool :=
  match s.render with
  | some t => t.overlay && t.rgba
  | none => false

/-- How many bytes of a pixel drawing writes in a buffer. -/
def drawn (s : Screen) : Plane → ℕ
  | .fb => if s.render.isSome || s.pxb < 3 then 0 else min s.pxb 4
  | .surface => if s.render.isSome then 1 else 0
  | .rgba => if s.overlaid then 4 else 0

/-- The buffer that is drawn to first. -/
def front (s : Screen) : Plane := if s.render.isSome then .surface else .fb

/-- Drawing leaves something. -/
def shows (s : Screen) : Bool := s.fb && (s.render.isSome || 3 ≤ s.pxb)

theorem drawn_le (s : Screen) (p : Plane) : s.drawn p ≤ s.pixelStep p := by
  cases p with
  | fb =>
    rw [drawn, pixelStep]
    split
    · exact Nat.zero_le _
    · exact min_le_left _ _
  | surface => rw [drawn, pixelStep]; split <;> omega
  | rgba => rw [drawn, pixelStep]; split <;> omega

/-- The pixels of a row lie within it. -/
theorem row_le {s : Screen} {p : Plane} (hp : 0 < s.drawn p) :
    s.w * s.pixelStep p ≤ s.rowStep p := by
  cases hr : s.render with
  | none => cases p <;> simp_all [drawn, overlaid, pixelStep, rowStep, pxb, s.row_fits]
  | some t =>
    have hw := (s.surface_fits t hr).1
    cases p with
    | fb => simp [drawn, hr] at hp
    | surface => simpa [pixelStep, rowStep, hr] using hw
    | rgba => simpa [pixelStep, rowStep, hr] using hw

theorem drawn_front {s : Screen} (h : s.shows) : 0 < s.drawn s.front := by
  cases hr : s.render with
  | none =>
    have hpxb : 3 ≤ s.pxb := by simpa [shows, hr] using (Bool.and_eq_true_iff.mp h).2
    have hdrawn : s.drawn s.front = min s.pxb 4 := by
      simp only [drawn, front, hr, Option.isSome_none, Bool.false_eq_true, if_false, Bool.false_or,
        decide_eq_true_eq]
      rw [if_neg (by omega)]
    omega
  | some t => simp [drawn, front, hr]

end Screen

/-- The writes for the pixel in column `x` and row `y`, none if the screen has no such pixel. -/
def pixel (s : Screen) (bgr : UInt32) (x y : ℕ) : List Write :=
  if x < s.w ∧ y < s.h then fbPutpixel s (.ofNat x) (.ofNat y) bgr else []

variable {s : Screen} {bgr : UInt32} {x y x' y' : ℕ} {k : Cell}

theorem fbPutpixel_eq_pixel (s : Screen) (x y bgr : UInt32) :
    fbPutpixel s x y bgr = pixel s bgr x.toNat y.toNat := by
  rw [pixel, UInt32.ofNat_toNat, UInt32.ofNat_toNat]
  split
  · rfl
  · next h =>
    rw [fbPutpixel, if_pos]
    simp only [Bool.or_eq_true, decide_eq_true_eq]
    omega

theorem toNat_ofNat {n : ℕ} (h : n < 2 ^ 32) : (UInt32.ofNat n).toNat = n :=
  UInt32.toNat_ofNat_of_lt' h

theorem pixel_surface {t : Surface} (hfb : s.fb) (hr : s.render = some t) (hx : x < s.w)
    (hy : y < s.h) : pixel s bgr x y =
      ((.surface, y * t.stride + x), fbNearestPaletteIndex s.palette bgr) ::
        if s.overlaid then store32 .rgba ((y * t.stride + x) * 4) (bgr &&& 0x00ffffff) else [] := by
  have hw := s.w_lt
  have hh := s.h_lt
  obtain ⟨hws, hhs⟩ := s.surface_fits t hr
  have hxn : (UInt32.ofNat x).toNat = x := toNat_ofNat (by omega)
  have hyn : (UInt32.ofNat y).toNat = y := toNat_ofNat (by omega)
  rw [pixel, if_pos ⟨hx, hy⟩, fbPutpixel, hxn, hyn, if_neg, Screen.overlaid, hr]
  · simp only
    rw [if_pos]
    simp only [Bool.and_eq_true, decide_eq_true_eq]
    omega
  · simp only [hfb, Bool.not_true, Bool.false_or, Bool.or_eq_true, decide_eq_true_eq]
    omega

theorem pixel_direct (hfb : s.fb) (hr : s.render = none) (hx : x < s.w) (hy : y < s.h) :
    pixel s bgr x y = if 3 ≤ s.pxb then
      [((.fb, y * s.pitch + x * s.pxb), (bgr &&& 0xff).toUInt8),
        ((.fb, y * s.pitch + x * s.pxb + 1), ((bgr >>> 8) &&& 0xff).toUInt8),
        ((.fb, y * s.pitch + x * s.pxb + 2), ((bgr >>> 16) &&& 0xff).toUInt8)] ++
        if 4 ≤ s.pxb then [((.fb, y * s.pitch + x * s.pxb + 3), 0)] else []
      else [] := by
  have hw := s.w_lt
  have hh := s.h_lt
  have hxn : (UInt32.ofNat x).toNat = x := toNat_ofNat (by omega)
  have hyn : (UInt32.ofNat y).toNat = y := toNat_ofNat (by omega)
  rw [pixel, if_pos ⟨hx, hy⟩, fbPutpixel, hxn, hyn, if_neg, hr]
  simp only [hfb, Bool.not_true, Bool.false_or, Bool.or_eq_true, decide_eq_true_eq]
  omega

theorem mem_cells_pixel : k ∈ cells (pixel s bgr x y) ↔ (s.fb ∧ x < s.w ∧ y < s.h) ∧
    ∃ j < s.drawn k.1, k.2 = y * s.rowStep k.1 + x * s.pixelStep k.1 + j := by
  by_cases hfb : s.fb
  case neg =>
    have hnil : pixel s bgr x y = [] := by
      rw [pixel, fbPutpixel]
      simp [hfb]
    simp [hnil, hfb]
  by_cases hin : x < s.w ∧ y < s.h
  case neg =>
    rw [pixel, if_neg hin]
    simp [hin]
  simp only [hfb, hin, and_self, true_and]
  obtain ⟨p, i⟩ := k
  cases hr : s.render with
  | some t =>
    rw [pixel_surface hfb hr hin.1 hin.2]
    have hrow : s.rowStep .surface = t.stride := by simp [Screen.rowStep, hr]
    have hrow' : s.rowStep .rgba = t.stride * 4 := by simp [Screen.rowStep, hr]
    have hrest : (p, i) ∈ cells (if s.overlaid then
        store32 .rgba ((y * t.stride + x) * 4) (bgr &&& 0x00ffffff) else []) ↔
        s.overlaid ∧ p = .rgba ∧ ∃ j < 4, i = (y * t.stride + x) * 4 + j := by
      split
      case isTrue h => rw [mem_cells_store32]; simp [h]
      case isFalse h => simp [h]
    rw [cells, List.map_cons, List.mem_cons, ← cells, hrest]
    cases p with
    | fb => simp [Screen.drawn, hr]
    | surface =>
      rw [hrow]
      simp [Screen.drawn, Screen.pixelStep, hr]
    | rgba =>
      rw [hrow']
      cases s.overlaid.eq_false_or_eq_true with
      | inr h => simp [Screen.drawn, h]
      | inl h =>
        simp only [Prod.mk.injEq, reduceCtorEq, false_and, false_or, h, true_and, Screen.drawn,
          Screen.pixelStep, if_true]
        refine exists_congr fun j => and_congr_right fun _ => ?_
        rw [add_mul, mul_assoc]
  | none =>
    rw [pixel_direct hfb hr hin.1 hin.2]
    have hover : s.overlaid = false := by simp [Screen.overlaid, hr]
    cases p with
    | surface => by_cases h3 : 3 ≤ s.pxb <;> by_cases h4 : 4 ≤ s.pxb <;>
        simp [cells, Screen.drawn, hr, h3, h4]
    | rgba => by_cases h3 : 3 ≤ s.pxb <;> by_cases h4 : 4 ≤ s.pxb <;>
        simp [cells, Screen.drawn, hover, h3, h4]
    | fb =>
      have hdrawn : s.drawn .fb = if s.pxb < 3 then 0 else min s.pxb 4 := by
        simp only [Screen.drawn, hr, Option.isSome_none, Bool.false_or, decide_eq_true_eq]
      have hstep : s.rowStep .fb = s.pitch := rfl
      have hpix : s.pixelStep .fb = s.pxb := rfl
      rw [hdrawn, hstep, hpix]
      by_cases h3 : 3 ≤ s.pxb
      case neg => simp [h3, show s.pxb < 3 by omega]
      rw [if_pos h3, if_neg (show ¬s.pxb < 3 by omega)]
      by_cases h4 : 4 ≤ s.pxb
      · rw [if_pos h4, min_eq_right h4]
        simp only [cells, List.map_append, List.map_cons, List.map_nil, List.mem_append,
          List.mem_cons, Prod.mk.injEq, true_and, List.not_mem_nil, or_false]
        constructor
        · rintro ((hi | hi | hi) | hi)
          exacts [⟨0, by omega, by omega⟩, ⟨1, by omega, by omega⟩, ⟨2, by omega, by omega⟩,
            ⟨3, by omega, by omega⟩]
        · rintro ⟨j, hj, hi⟩
          omega
      · rw [if_neg h4, min_eq_left (by omega)]
        simp only [cells, List.append_nil, List.map_cons, List.map_nil, List.mem_cons,
          Prod.mk.injEq, true_and, List.not_mem_nil, or_false]
        constructor
        · rintro (hi | hi | hi)
          exacts [⟨0, by omega, by omega⟩, ⟨1, by omega, by omega⟩, ⟨2, by omega, by omega⟩]
        · rintro ⟨j, hj, hi⟩
          omega

/-- Two places in rows that do not reach into each other are in the same row. -/
theorem row_unique {P u v i j : ℕ} (hi : i < P) (hj : j < P) (h : u * P + i = v * P + j) :
    u = v ∧ i = j := by
  have hpos : 0 < P := by omega
  have hu : u = v := by
    have hdiv := congrArg (· / P) h
    simp only [Nat.mul_comm _ P] at hdiv
    rwa [Nat.mul_add_div hpos, Nat.mul_add_div hpos, Nat.div_eq_of_lt hi, Nat.div_eq_of_lt hj]
      at hdiv
  subst hu
  exact ⟨rfl, Nat.add_left_cancel h⟩

theorem offset_lt {W q P x j : ℕ} (hP : W * q ≤ P) (hx : x < W) (hj : j < q) : x * q + j < P :=
  calc x * q + j < x * q + q := by omega
    _ = (x + 1) * q := by ring
    _ ≤ W * q := Nat.mul_le_mul_right _ hx
    _ ≤ P := hP

/-- No byte belongs to two pixels. -/
theorem pixel_unique {bgr' : UInt32} (h : k ∈ cells (pixel s bgr x y))
    (h' : k ∈ cells (pixel s bgr' x' y')) : x = x' ∧ y = y' := by
  obtain ⟨⟨-, hx, -⟩, j, hj, hk⟩ := mem_cells_pixel.mp h
  obtain ⟨⟨-, hx', -⟩, j', hj', hk'⟩ := mem_cells_pixel.mp h'
  have hfits := s.row_le (Nat.zero_lt_of_lt hj)
  have hle := s.drawn_le k.1
  have hjq : j < s.pixelStep k.1 := hj.trans_le hle
  have hjq' : j' < s.pixelStep k.1 := hj'.trans_le hle
  obtain ⟨hrow, hcol⟩ := row_unique (offset_lt hfits hx hjq) (offset_lt hfits hx' hjq')
    (by rw [← add_assoc, ← add_assoc, ← hk, hk'])
  exact ⟨(row_unique hjq hjq' hcol).1, hrow⟩

/-- The first byte of a pixel. -/
def anchor (s : Screen) (x y : ℕ) : Cell :=
  (s.front, y * s.rowStep s.front + x * s.pixelStep s.front)

theorem anchor_mem (hs : s.shows) (hx : x < s.w) (hy : y < s.h) :
    anchor s x y ∈ cells (pixel s bgr x y) :=
  mem_cells_pixel.mpr ⟨⟨(Bool.and_eq_true_iff.mp hs).1, hx, hy⟩, 0, Screen.drawn_front hs, rfl⟩

/-- Under an overlay a pixel is in the 32-bit plane too. -/
theorem overlay_mem (hfb : s.fb) (hover : s.overlaid) (hx : x < s.w) (hy : y < s.h) :
    (.rgba, y * s.rowStep .rgba + x * s.pixelStep .rgba) ∈ cells (pixel s bgr x y) :=
  mem_cells_pixel.mpr ⟨⟨hfb, hx, hy⟩, 0, by simp [Screen.drawn, hover], rfl⟩

theorem pixel_eq_nil (hs : ¬s.shows) : pixel s bgr x y = [] := by
  by_contra hne
  obtain ⟨a, ha⟩ := List.exists_mem_of_ne_nil _ hne
  obtain ⟨⟨hfb, -, -⟩, j, hj, -⟩ := mem_cells_pixel.mp (List.mem_map_of_mem (f := Prod.fst) ha)
  refine hs (Bool.and_eq_true_iff.mpr ⟨hfb, ?_⟩)
  cases hr : s.render with
  | some t => rfl
  | none =>
    rw [Option.isSome_none, Bool.false_or, decide_eq_true_eq]
    by_contra hno
    cases hp : a.1.1 <;> simp_all [Screen.drawn, Screen.overlaid]

/-- The same for whole-number coordinates. -/
def pixelAt (s : Screen) (bgr : UInt32) (x y : ℤ) : List Write :=
  if 0 ≤ x ∧ 0 ≤ y then pixel s bgr x.toNat y.toNat else []

theorem pixelAt_natCast (s : Screen) (bgr : UInt32) (x y : ℕ) :
    pixelAt s bgr x y = pixel s bgr x y := by
  rw [pixelAt, if_pos (by omega), Int.toNat_natCast, Int.toNat_natCast]

theorem pixelAt_ne_nil {x y : ℤ} (h : pixelAt s bgr x y ≠ []) :
    s.shows ∧ (0 ≤ x ∧ x < s.w) ∧ (0 ≤ y ∧ y < s.h) := by
  rw [pixelAt] at h
  split at h
  case isFalse => exact absurd rfl h
  case isTrue hpos =>
    refine ⟨by_contra fun hs => h (pixel_eq_nil hs), ?_⟩
    have hin : x.toNat < s.w ∧ y.toNat < s.h := by
      by_contra hno
      exact h (if_neg hno)
    omega

end ZealBringup.Fb
