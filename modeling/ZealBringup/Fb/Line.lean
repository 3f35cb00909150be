import ZealBringup.Fb.Circle
import ZealBringup.Lib.Bresenham

/-!
# Lines

Four functions draw lines with the same step rule: `zeal_fb_graph_line` in 64 bits with a cap
on the number of steps, its counterpart for offscreen bitmaps, and the two builtins of the
command language, which compute in 32 bits and without a cap.

* `graphLineVisits_eq`, `zealFbGraphLine_eq` — the first visits the points of the line up to the
  cap, which no visible point of a screen of 8192 by 8192 is behind.
* `bootstrapGraphCdcLine0_eq` — the second visits the same points.
* `walk32_iff` — when the 32-bit loop visits the points of the line.
-/

namespace ZealBringup.Fb

open Bresenham

/-! ## Lines in 64 bits -/

/-- The rectangle that a task draws within, and how far up it lies. -/
structure Window where
  left : ℤ
  top : ℤ
  right : ℤ
  bottom : ℤ
  taskZ : UInt16

/-- The buffers that say which task owns a pixel or a text cell. -/
structure Layers where
  winPixelZ : Option (ℕ → UInt16)
  winZ : Option (ℕ → UInt16)

def zealTextMaxCols : ℕ := 512

def zealTextMaxRows : ℕ := 512

def fbGraphPixelVisible (z : Layers) (x y : ℕ) (taskZ : UInt16) : Bool :=
  if taskZ = 0 then true else
  match z.winPixelZ with
  | some b => if 800 ≤ x || 600 ≤ y then false else b (y * 800 + x) ≤ taskZ
  | none =>
    match z.winZ with
    | none => true
    | some b =>
      let cell := y / 8 * zealTextMaxCols + x / 8
      cell < zealTextMaxCols * zealTextMaxRows && b cell ≤ taskZ

def zealGraphicsColor (s : Screen) (color : UInt32) : UInt32 :=
  if h : color.toNat < 16 then s.palette ⟨color.toNat, h⟩ else color &&& 0x00ffffff

/-- The writes and whether the point was plotted. -/
def zealFbGraphPlot (s : Screen) (z : Layers) (v : Window) (color : UInt32) (x y : ℤ) :
    List Write × Bool :=
  if !s.fb || x < v.left || v.right < x || y < v.top || v.bottom < y || x < 0 || y < 0 ||
    s.w ≤ x || s.h ≤ y then ([], false) else
  if !fbGraphPixelVisible z x.toNat y.toNat v.taskZ then ([], false) else
  (fbPutpixel s (.ofInt x) (.ofInt y) (zealGraphicsColor s color), true)

/-- Which steps are plotted: `i >= start && (i - start) % step == 0`. -/
def selected (step start : ℤ) (i : ℕ) : Bool := start ≤ i && (i - start) % step == 0

/-- The loop: the points it visits and whether they are selected, with so many steps left. -/
def raster (l : Slope) (x1 y1 step start : ℤ) : ℕ → ℕ → Pen → List ((ℤ × ℤ) × Bool)
  | 0, i, p => [((p.x, p.y), selected step start i)]
  | left + 1, i, p => ((p.x, p.y), selected step start i) ::
      if p.x = x1 && p.y = y1 then [] else raster l x1 y1 step start left (i + 1) (l.next p)

/-- `dx`, `sx`, `dy` and `sy` as the functions compute them. -/
def slopeOf (e : Ends) : Slope where
  dx := if e.x0 < e.x1 then e.x1 - e.x0 else e.x0 - e.x1
  sx := if e.x0 < e.x1 then 1 else -1
  dy := if e.y0 < e.y1 then e.y0 - e.y1 else e.y1 - e.y0
  sy := if e.y0 < e.y1 then 1 else -1

def rasterFrom (e : Ends) (step start : ℤ) : List ((ℤ × ℤ) × Bool) :=
  let l := slopeOf e
  raster l e.x1 e.y1 step start 16384 0 ⟨e.x0, e.y0, l.dx + l.dy⟩

/-- The arguments that `zeal_fb_graph_line` takes. -/
def graphLineAccepts (s : Screen) (e : Ends) (step start : ℤ) : Bool :=
  !(!s.fb || step < 1 || start < 0 ||
    e.x0 < -8192 || s.w + 8192 < e.x0 || e.x1 < -8192 || s.w + 8192 < e.x1 ||
    e.y0 < -8192 || s.h + 8192 < e.y0 || e.y1 < -8192 || s.h + 8192 < e.y1)

/-- The points that `zeal_fb_graph_line` visits. -/
def graphLineVisits (s : Screen) (e : Ends) (step start : ℤ) : Option (List ((ℤ × ℤ) × Bool)) :=
  if graphLineAccepts s e step start then some (rasterFrom e step start) else none

/-- The writes for the selected points of a list, and whether any was plotted. -/
def plotted (s : Screen) (z : Layers) (v : Window) (color : UInt32)
    (visits : List ((ℤ × ℤ) × Bool)) : List Write × Bool :=
  let points := visits.filter Prod.snd
  (points.flatMap fun a => (zealFbGraphPlot s z v color a.1.1 a.1.2).1,
    points.any fun a => (zealFbGraphPlot s z v color a.1.1 a.1.2).2)

def zealFbGraphLine (s : Screen) (z : Layers) (v : Window) (e : Ends) (color : UInt32)
    (step start : ℤ) : List Write × Bool :=
  match graphLineVisits s e step start with
  | some visits => plotted s z v color visits
  | none => ([], false)

/-- The arguments that `BootstrapGraphCdcLine0` takes, for a bitmap of some width and height. -/
def cdcLineAccepts (dc : Option (ℤ × ℤ)) (e : Ends) (step start : ℤ) : Bool :=
  match dc with
  | none => false
  | some (width, height) =>
    let maxX := width + 16384
    let maxY := height + 16384
    let l := slopeOf e
    !(step < 1 || start < 0) &&
      !(e.x0 < -16384 || maxX < e.x0 || e.x1 < -16384 || maxX < e.x1 ||
        e.y0 < -16384 || maxY < e.y0 || e.y1 < -16384 || maxY < e.y1) &&
      !(16384 < l.dx || 16384 < -l.dy)

/-- The points that `BootstrapGraphCdcLine0` visits without a brush. -/
def bootstrapGraphCdcLine0 (dc : Option (ℤ × ℤ)) (e : Ends) (step start : ℤ) :
    Option (List ((ℤ × ℤ) × Bool)) :=
  if cdcLineAccepts dc e step start then some (rasterFrom e step start) else none

/-! ## Lines in 32 bits -/

/-- A shift left by one, which drops the bit that falls out. -/
def wrap32 (z : ℤ) : ℤ := z.bmod (2 ^ 32)

def moveX32 (l : Slope) (e2 : ℤ) (p : Pen) : Except Undefined Pen :=
  if l.dy ≤ e2 then do
    let err ← int32 (p.err + l.dy)
    let x ← int32 (p.x + l.sx)
    return ⟨x, p.y, err⟩
  else return p

def moveY32 (l : Slope) (e2 : ℤ) (p : Pen) : Except Undefined Pen :=
  if e2 ≤ l.dx then do
    let err ← int32 (p.err + l.dx)
    let y ← int32 (p.y + l.sy)
    return ⟨p.x, y, err⟩
  else return p

def next32 (l : Slope) (p : Pen) : Except Undefined Pen := do
  let e2 := wrap32 (p.err * 2)
  let q ← moveX32 l e2 p
  moveY32 l e2 q

/-- The variables as the loop finds them. -/
def setup32 (e : Ends) : Except Undefined (Slope × Pen) := do
  let l := slopeOf e
  let dx ← int32 l.dx
  let dy ← int32 l.dy
  let err ← int32 (dx + dy)
  return (l, ⟨e.x0, e.y0, err⟩)

/-- The loop, for so many rounds: the points it visits with what it does there, or nothing if
it is not at the end by then. -/
def walk32 {α : Type} (out : ℕ → Pen → Except Undefined α) (l : Slope) (xb yb : ℤ) :
    ℕ → ℕ → Pen → Except Undefined (Option (List ((ℤ × ℤ) × α)))
  | 0, _, _ => return none
  | rounds + 1, i, p => do
    let a ← out i p
    if p.x = xb && p.y = yb then return some [((p.x, p.y), a)] else
    let q ← next32 l p
    let rest ← walk32 out l xb yb rounds (i + 1) q
    return rest.map (((p.x, p.y), a) :: ·)

/-- The ends as the builtins read them. -/
def ends32 (x0 y0 x1 y1 : UInt64) : Ends := ⟨toInt32 x0, toInt32 y0, toInt32 x1, toInt32 y1⟩

/-- `st`, at least 1. -/
def lineStep (step : UInt64) : ℤ := if step.toInt64.toInt < 1 then 1 else step.toInt64.toInt

/-- What `hc_builtin_grline6` writes at a point. -/
def grline6Out (s : Screen) (c step : UInt64) (n : ℕ) (p : Pen) : List Write :=
  if n % lineStep step = 0 then fbPutpixel s (.ofInt p.x) (.ofInt p.y) c.toUInt32 else []

def hcBuiltinGrline6 (s : Screen) (rounds : ℕ) (x0 y0 x1 y1 c step : UInt64) :
    Except Undefined (Option (List ((ℤ × ℤ) × List Write))) := do
  let e := ends32 x0 y0 x1 y1
  let lp ← setup32 e
  walk32 (fun n p => .ok (grline6Out s c step n p)) lp.1 e.x1 e.y1 rounds 0 lp.2

/-- The depth of a point of `hc_builtin_grline3`. -/
def grline3Out (za zb steps : ℤ) (i : ℕ) (_ : Pen) : Except Undefined ℤ := do
  let i ← int32 i
  let d ← int32 (zb - za)
  int32 (za + wrap32 ((d * i).tdiv steps))

/-- The steps that the depth is spread over. -/
def grline3Steps (l : Slope) : Except Undefined ℤ := do
  let ndy ← int32 (-l.dy)
  let steps := if ndy < l.dx then l.dx else ndy
  return if steps < 1 then 1 else steps

def hcBuiltinGrline3 (rounds : ℕ) (x1 y1 z1 x2 y2 z2 : UInt64) :
    Except Undefined (Option (List ((ℤ × ℤ) × ℤ))) := do
  let e := ends32 x1 y1 x2 y2
  let lp ← setup32 e
  let steps ← grline3Steps lp.1
  walk32 (grline3Out (toInt32 z1) (toInt32 z2) steps) lp.1 e.x1 e.y1 rounds 0 lp.2

/-! ## The loop in 64 bits -/

variable {e : Ends} {step start : ℤ} {n : ℕ}

theorem slopeOf_eq (e : Ends) : slopeOf e = e.slope := by
  simp only [slopeOf, Ends.slope, Ends.width, Ends.height, Slope.mk.injEq]
  refine ⟨?_, trivial, ?_, trivial⟩ <;> split <;> omega

theorem pen_zero (e : Ends) : e.pen 0 = ⟨e.x0, e.y0, e.slope.dx + e.slope.dy⟩ := by
  have hoff : ∀ L, off e.long L 0 = 0 := by
    intro L
    rcases Nat.eq_zero_or_pos e.long with h | h
    · rw [off, h, Nat.mul_zero, Nat.div_zero]
    · exact off_zero h
  rw [Ends.pen, pt_zero, Ends.err, hoff, hoff]
  simp [Ends.slope, sub_eq_add_neg]

theorem raster_eq (left : ℕ) (hn : n ≤ e.long) :
    raster e.slope e.x1 e.y1 step start left n (e.pen n) =
      (List.range' n (min (e.long - n) left + 1)).map fun i => (e.pt i, selected step start i) := by
  induction left generalizing n with
  | zero => rw [Nat.min_zero]; rfl
  | succ left ih =>
    rw [raster, List.range'_succ, List.map_cons]
    congr 1
    split
    case isTrue hend =>
      simp only [Bool.and_eq_true, decide_eq_true_eq] at hend
      have hlast : ¬n < e.long := fun hlt => pt_ne_last hlt hend
      rw [show min (e.long - n) (left + 1) = 0 by omega]
      rfl
    case isFalse hend =>
      have hlt : n < e.long := by
        by_contra hge
        have hlast := pt_last e
        rw [show e.long = n by omega] at hlast
        refine hend ?_
        rw [Ends.pen, hlast]
        simp
      rw [next_pen hlt, ih (by omega), show min (e.long - n) (left + 1) =
        min (e.long - (n + 1)) left + 1 by omega]

/-- The points of the line, up to some step, and which are selected. -/
def visits (e : Ends) (step start : ℤ) (n : ℕ) : List ((ℤ × ℤ) × Bool) :=
  (List.range (n + 1)).map fun i => (e.pt i, selected step start i)

theorem rasterFrom_eq (e : Ends) (step start : ℤ) :
    rasterFrom e step start = visits e step start (min e.long 16384) := by
  have h := @raster_eq e step start 0 16384 (Nat.zero_le _)
  rw [pen_zero, Nat.sub_zero, ← List.range_eq_range'] at h
  rw [rasterFrom, slopeOf_eq]
  exact h

theorem graphLineVisits_eq (s : Screen) (e : Ends) (step start : ℤ) :
    graphLineVisits s e step start = if graphLineAccepts s e step start then
      some (visits e step start (min e.long 16384)) else none := by
  rw [graphLineVisits, rasterFrom_eq]

theorem bootstrapGraphCdcLine0_eq (dc : Option (ℤ × ℤ)) (e : Ends) (step start : ℤ) :
    bootstrapGraphCdcLine0 dc e step start = if cdcLineAccepts dc e step start then
      some (visits e step start e.long) else none := by
  rw [bootstrapGraphCdcLine0, rasterFrom_eq]
  split
  case isFalse => rfl
  case isTrue h =>
    have hlong : e.long ≤ 16384 := by
      cases dc with
      | none => exact absurd h Bool.false_ne_true
      | some size =>
        simp only [cdcLineAccepts, slopeOf_eq, Ends.slope, Bool.and_eq_true, Bool.not_eq_true',
          Bool.or_eq_false_iff, decide_eq_false_iff_not] at h
        have hmax := max_le_iff (a := e.width) (b := e.height) (c := 16384)
        rw [Ends.long]
        omega
    rw [min_eq_left hlong]

/-! ## What the cap leaves out -/

/-- Along the longer side the offset is the number of steps. -/
theorem pt_long (e : Ends) (hpos : 0 < e.long) (n : ℕ) :
    (e.pt n).1 = e.x0 + e.slope.sx * n ∨ (e.pt n).2 = e.y0 + e.slope.sy * n := by
  rcases max_choice e.width e.height with hmax | hmax
  · left
    have hlong : e.width = e.long := hmax.symm
    rw [Ends.pt, hlong, off_major hpos]
  · right
    have hlong : e.height = e.long := hmax.symm
    rw [Ends.pt, hlong, off_major hpos]

variable {s : Screen}

/-- A point behind the cap is not on a screen of 8192 by 8192. -/
theorem plot_behind_cap (z : Layers) (v : Window) (color : UInt32)
    (hacc : graphLineAccepts s e step start) (hw : s.w ≤ 8192) (hh : s.h ≤ 8192) (hn : 16384 < n)
    (hlong : n ≤ e.long) :
    zealFbGraphPlot s z v color (e.pt n).1 (e.pt n).2 = ([], false) := by
  simp only [graphLineAccepts, Bool.not_eq_true', Bool.or_eq_false_iff, decide_eq_false_iff_not,
    not_lt] at hacc
  have hpoint := pt_long e (by omega) n
  have hsx := sx_cases e
  have hsy := sy_cases e
  rw [zealFbGraphPlot, if_pos]
  simp only [Bool.or_eq_true, decide_eq_true_eq]
  obtain hx | hy := hpoint
  · obtain h | h := hsx <;> rw [h] at hx <;> omega
  · obtain h | h := hsy <;> rw [h] at hy <;> omega

/-- Points that are not to be seen may be left out. -/
theorem plotted_append {z : Layers} {v : Window} {color : UInt32} (us vs : List ((ℤ × ℤ) × Bool))
    (h : ∀ a ∈ vs, zealFbGraphPlot s z v color a.1.1 a.1.2 = ([], false)) :
    plotted s z v color (us ++ vs) = plotted s z v color us := by
  have hwrites : (vs.filter Prod.snd).flatMap (fun a =>
      (zealFbGraphPlot s z v color a.1.1 a.1.2).1) = [] :=
    List.flatMap_eq_nil_iff.mpr fun a ha => by rw [h a (List.mem_of_mem_filter ha)]
  have hany : (vs.filter Prod.snd).any (fun a =>
      (zealFbGraphPlot s z v color a.1.1 a.1.2).2) = false :=
    List.any_eq_false.mpr fun a ha => by
      rw [h a (List.mem_of_mem_filter ha)]
      exact Bool.false_ne_true
  simp only [plotted]
  rw [List.filter_append, List.flatMap_append, List.any_append, hwrites, hany, List.append_nil,
    Bool.or_false]

theorem zealFbGraphLine_eq (z : Layers) (v : Window) (e : Ends) (color : UInt32) (step start : ℤ)
    (hw : s.w ≤ 8192) (hh : s.h ≤ 8192) :
    zealFbGraphLine s z v e color step start = if graphLineAccepts s e step start then
      plotted s z v color (visits e step start e.long) else ([], false) := by
  rw [zealFbGraphLine, graphLineVisits_eq]
  by_cases hacc : graphLineAccepts s e step start
  case neg => rw [if_neg hacc, if_neg hacc]
  rw [if_pos hacc, if_pos hacc]
  -- the visits behind the cap leave nothing
  obtain ⟨rest, hrest⟩ : ∃ rest, e.long = min e.long 16384 + rest := ⟨_, (by omega :
    e.long = min e.long 16384 + (e.long - min e.long 16384))⟩
  have hsplit : visits e step start e.long = visits e step start (min e.long 16384) ++
      (List.range rest).map fun j => (e.pt (min e.long 16384 + 1 + j),
        selected step start (min e.long 16384 + 1 + j)) := by
    rw [visits, visits, show e.long + 1 = min e.long 16384 + 1 + rest by omega, List.range_add,
      List.map_append, List.map_map]
    rfl
  have hnone : ∀ a ∈ (List.range rest).map fun j => (e.pt (min e.long 16384 + 1 + j),
      selected step start (min e.long 16384 + 1 + j)),
      zealFbGraphPlot s z v color a.1.1 a.1.2 = ([], false) := by
    intro a ha
    obtain ⟨j, hj, rfl⟩ := List.mem_map.mp ha
    have hj' := List.mem_range.mp hj
    exact plot_behind_cap z v color hacc hw hh (by omega) (by omega)
  rw [hsplit]
  exact (plotted_append _ _ hnone).symm

/-! ## One step in 32 bits -/

/-- The errors of a step fit in 32 bits. -/
structure StepFits (e : Ends) (n : ℕ) : Prop where
  low : -2 ^ 31 ≤ e.err n * 2
  high : e.err n * 2 < 2 ^ 31
  moved : -(e.height : ℤ) ≤ e.err n * 2 → -2 ^ 31 ≤ e.err n - e.height

/-- The ends and the sides of the line do. -/
structure EndsFit (e : Ends) : Prop where
  x0 : InInt32 e.x0
  y0 : InInt32 e.y0
  x1 : InInt32 e.x1
  y1 : InInt32 e.y1
  width : e.width < 2 ^ 31
  height : e.height ≤ 2 ^ 31

variable {z : ℤ}

theorem wrap32_of_fits (h1 : -2 ^ 31 ≤ z) (h2 : z < 2 ^ 31) : wrap32 z = z :=
  Int.bmod_eq_of_le (by omega) (by omega)

theorem wrap32_of_high (h1 : 2 ^ 31 ≤ z) (h2 : z < 3 * 2 ^ 31) :
    wrap32 z = z - 2 ^ 32 := by
  rw [wrap32, Int.bmod_eq_emod]
  split <;> omega

theorem wrap32_of_low (h1 : z < -2 ^ 31) (h2 : -3 * 2 ^ 31 ≤ z) :
    wrap32 z = z + 2 ^ 32 := by
  rw [wrap32, Int.bmod_eq_emod]
  split <;> omega

theorem move_x (l : Slope) (e2 : ℤ) (p : Pen) :
    (l.moveY e2 (l.moveX e2 p)).x = if l.dy ≤ e2 then p.x + l.sx else p.x := by
  rw [Slope.moveY, Slope.moveX]
  split <;> split <;> rfl

theorem move_y (l : Slope) (e2 : ℤ) (p : Pen) :
    (l.moveY e2 (l.moveX e2 p)).y = if e2 ≤ l.dx then p.y + l.sy else p.y := by
  rw [Slope.moveY, Slope.moveX]
  split <;> split <;> rfl

/-- The points of the line lie between its ends. -/
theorem pt_fits (h : EndsFit e) (hn : n ≤ e.long) : InInt32 (e.pt n).1 ∧ InInt32 (e.pt n).2 := by
  rcases Nat.eq_zero_or_pos e.long with h0 | hpos
  · rw [show n = 0 by omega, pt_zero]
    exact ⟨h.x0, h.y0⟩
  · have hx := @off_le e.long e.width n hpos hn
    have hy := @off_le e.long e.height n hpos hn
    have hw := sx_width e
    have hh := sy_height e
    obtain ⟨hx0, hx0'⟩ := h.x0
    obtain ⟨hy0, hy0'⟩ := h.y0
    obtain ⟨hx1, hx1'⟩ := h.x1
    obtain ⟨hy1, hy1'⟩ := h.y1
    rw [Ends.pt, InInt32, InInt32]
    simp only
    obtain hs | hs := sx_cases e <;> obtain ht | ht := sy_cases e <;> rw [hs] at hw ⊢ <;>
      rw [ht] at hh ⊢ <;> omega

theorem err_succ_fits (h : EndsFit e) (hn : n < e.long)
    (hnext : n + 1 < e.long → StepFits e (n + 1)) : InInt32 (e.err (n + 1)) := by
  by_cases hlt : n + 1 < e.long
  · obtain ⟨h1, h2, -⟩ := hnext hlt
    exact ⟨by omega, by omega⟩
  · have hpos : 0 < e.long := Nat.zero_lt_of_lt hn
    have hlast : n + 1 = e.long := by omega
    have hw := h.width
    have hh := h.height
    rw [hlast, Ends.err, off_last hpos, off_last hpos]
    have hcomm : (e.width : ℤ) * e.height = e.height * e.width := mul_comm _ _
    exact ⟨by omega, by omega⟩

variable {l : Slope} {p q : Pen}

theorem moveX32_eq_ok {e2 : ℤ} : moveX32 l e2 p = .ok q ↔
    (l.dy ≤ e2 → InInt32 (p.err + l.dy) ∧ InInt32 (p.x + l.sx)) ∧ q = l.moveX e2 p := by
  rw [moveX32, Slope.moveX]
  by_cases hm : l.dy ≤ e2
  case neg =>
    rw [if_neg hm, if_neg hm]
    exact ⟨fun h => ⟨fun h' => absurd h' hm, by cases h; rfl⟩, fun h => by rw [h.2]; rfl⟩
  rw [if_pos hm, if_pos hm, int32, int32]
  by_cases h1 : InInt32 (p.err + l.dy) <;> by_cases h2 : InInt32 (p.x + l.sx)
  · rw [if_pos h1, if_pos h2]
    exact ⟨fun h => ⟨fun _ => ⟨h1, h2⟩, by cases h; rfl⟩, fun h => by rw [h.2]; rfl⟩
  · rw [if_pos h1, if_neg h2]
    exact ⟨fun h => (by cases h), fun h => absurd (h.1 hm).2 h2⟩
  all_goals
    rw [if_neg h1]
    exact ⟨fun h => (by cases h), fun h => absurd (h.1 hm).1 h1⟩

theorem moveY32_eq_ok {e2 : ℤ} : moveY32 l e2 p = .ok q ↔
    (e2 ≤ l.dx → InInt32 (p.err + l.dx) ∧ InInt32 (p.y + l.sy)) ∧ q = l.moveY e2 p := by
  rw [moveY32, Slope.moveY]
  by_cases hm : e2 ≤ l.dx
  case neg =>
    rw [if_neg hm, if_neg hm]
    exact ⟨fun h => ⟨fun h' => absurd h' hm, by cases h; rfl⟩, fun h => by rw [h.2]; rfl⟩
  rw [if_pos hm, if_pos hm, int32, int32]
  by_cases h1 : InInt32 (p.err + l.dx) <;> by_cases h2 : InInt32 (p.y + l.sy)
  · rw [if_pos h1, if_pos h2]
    exact ⟨fun h => ⟨fun _ => ⟨h1, h2⟩, by cases h; rfl⟩, fun h => by rw [h.2]; rfl⟩
  · rw [if_pos h1, if_neg h2]
    exact ⟨fun h => (by cases h), fun h => absurd (h.1 hm).2 h2⟩
  all_goals
    rw [if_neg h1]
    exact ⟨fun h => (by cases h), fun h => absurd (h.1 hm).1 h1⟩

theorem next32_eq_ok : next32 l p = .ok q ↔
    (l.dy ≤ wrap32 (p.err * 2) → InInt32 (p.err + l.dy) ∧ InInt32 (p.x + l.sx)) ∧
    (wrap32 (p.err * 2) ≤ l.dx →
      InInt32 ((l.moveX (wrap32 (p.err * 2)) p).err + l.dx) ∧ InInt32 (p.y + l.sy)) ∧
    q = l.moveY (wrap32 (p.err * 2)) (l.moveX (wrap32 (p.err * 2)) p) := by
  have hy : (l.moveX (wrap32 (p.err * 2)) p).y = p.y := by
    rw [Slope.moveX]
    split <;> rfl
  rw [next32]
  cases hx : moveX32 l (wrap32 (p.err * 2)) p with
  | error err =>
    have hno : ¬(l.dy ≤ wrap32 (p.err * 2) → InInt32 (p.err + l.dy) ∧ InInt32 (p.x + l.sx)) :=
      fun h => by
        rw [moveX32_eq_ok.mpr ⟨h, rfl⟩] at hx
        cases hx
    exact ⟨fun h => (by cases h), fun h => absurd h.1 hno⟩
  | ok r =>
    obtain ⟨hx1, rfl⟩ := moveX32_eq_ok.mp hx
    show moveY32 _ _ _ = _ ↔ _
    rw [moveY32_eq_ok, hy]
    exact ⟨fun h => ⟨hx1, h⟩, fun h => h.2⟩

theorem next32_eq (h : EndsFit e) (hn : n < e.long) (hstep : StepFits e n)
    (hnext : n + 1 < e.long → StepFits e (n + 1)) :
    next32 e.slope (e.pen n) = .ok (e.pen (n + 1)) := by
  have hpen : (e.pen n).err = e.err n := rfl
  have hnp := next_pen hn
  obtain ⟨hptx, hpty⟩ := pt_fits h (show n + 1 ≤ e.long by omega)
  have herr := err_succ_fits h hn hnext
  have hx1 : (e.pen (n + 1)).x = (e.pt (n + 1)).1 := rfl
  have hy1 : (e.pen (n + 1)).y = (e.pt (n + 1)).2 := rfl
  have he1 : (e.pen (n + 1)).err = e.err (n + 1) := rfl
  have hdy : e.slope.dy = -e.height := rfl
  rw [Slope.next, hpen] at hnp
  rw [next32_eq_ok, hpen, wrap32_of_fits hstep.low hstep.high, hnp]
  refine ⟨fun hm => ⟨?_, ?_⟩, fun hm => ⟨?_, ?_⟩, rfl⟩
  · have hmoved := hstep.moved (by rwa [hdy] at hm)
    have hhigh := hstep.high
    have hh := h.height
    rw [hdy]
    exact ⟨by omega, by omega⟩
  · rw [← hx1, ← hnp, Slope.moveX, if_pos hm, Slope.moveY] at hptx
    split at hptx <;> exact hptx
  · rwa [← he1, ← hnp, Slope.moveY, if_pos hm] at herr
  · rw [← hy1, ← hnp, Slope.moveY, if_pos hm, Slope.moveX] at hpty
    split at hpty <;> exact hpty

/-- A step that gets to the next point of the line had errors that fit. -/
theorem stepFits_of_next32 (h : EndsFit e) (hn : n < e.long)
    (hq : next32 e.slope (e.pen n) = .ok q) (hpos : (q.x, q.y) = e.pt (n + 1)) :
    StepFits e n ∧ q = e.pen (n + 1) := by
  have hpen : (e.pen n).err = e.err n := rfl
  have hlong : 0 < e.long := Nat.zero_lt_of_lt hn
  obtain ⟨hlow, hhigh⟩ := deviation_bounds hlong n
  have hnp := next_pen hn
  have hdy : e.slope.dy = -e.height := rfl
  have hdx : e.slope.dx = e.width := rfl
  have hw := h.width
  have hh := h.height
  obtain ⟨hx, hy, rfl⟩ := next32_eq_ok.mp hq
  rw [hpen] at hx hy hpos
  have hgoal : ((e.slope.next (e.pen n)).x, (e.slope.next (e.pen n)).y) = e.pt (n + 1) := by
    rw [hnp]
    rfl
  rw [Slope.next, hpen] at hgoal
  obtain ⟨hpx, hpy⟩ := Prod.mk.injEq _ _ _ _ ▸ hpos.trans hgoal.symm
  rw [move_x, move_x, hdy] at hpx
  rw [move_y, move_y, hdx] at hpy
  -- a doubled error that does not fit comes out with the other sign, and the shorter side moves
  have hfits : -2 ^ 31 ≤ e.err n * 2 ∧ e.err n * 2 < 2 ^ 31 := by
    rcases le_total e.height e.width with hside | hside
    · have herr := err_of_wide hlong hside n
      rw [(long_of_wide hside).1] at hlow hhigh
      refine ⟨by omega, ?_⟩
      by_contra hover
      rw [wrap32_of_high (by omega) (by omega), if_pos (by omega), if_neg (by omega)] at hpy
      have hsy := sy_cases e
      omega
    · have herr := err_of_tall hlong hside n
      rw [(long_of_tall hside).1] at hlow hhigh
      refine ⟨?_, by omega⟩
      by_contra hover
      rw [wrap32_of_low (by omega) (by omega), if_pos (by omega), if_neg (by omega)] at hpx
      have hsx := sx_cases e
      omega
  rw [wrap32_of_fits hfits.1 hfits.2] at hx
  refine ⟨⟨hfits.1, hfits.2, fun hm => ?_⟩, ?_⟩
  · have hmove := (hx (by rwa [hdy])).1.1
    rw [hdy] at hmove
    omega
  · rw [← hnp, hpen, wrap32_of_fits hfits.1 hfits.2]
    rfl

/-! ## The loop in 32 bits -/

variable {α : Type} {out : ℕ → Pen → Except Undefined α} {f : ℕ → α} {rounds : ℕ}

/-- The points of the line from step `n` on, with what is done there. -/
def pointsFrom (e : Ends) (f : ℕ → α) (n : ℕ) : List ((ℤ × ℤ) × α) :=
  (List.range' n (e.long - n + 1)).map fun i => (e.pt i, f i)

theorem pointsFrom_of_lt (hn : n < e.long) :
    pointsFrom e f n = (e.pt n, f n) :: pointsFrom e f (n + 1) := by
  rw [pointsFrom, List.range'_succ, List.map_cons, show e.long - n = e.long - (n + 1) + 1 by omega]
  rfl

theorem at_end_iff (hn : n ≤ e.long) :
    ((e.pen n).x = e.x1 && (e.pen n).y = e.y1) = true ↔ n = e.long := by
  rw [Bool.and_eq_true, decide_eq_true_eq, decide_eq_true_eq]
  constructor
  · intro hend
    by_contra hne
    exact pt_ne_last (by omega) hend
  · rintro rfl
    have hlast := pt_last e
    exact ⟨congrArg Prod.fst hlast, congrArg Prod.snd hlast⟩

theorem walk32_eq (hends : EndsFit e) (hout : ∀ i ≤ e.long, out i (e.pen i) = .ok (f i))
    (hsteps : ∀ i < e.long, StepFits e i) (hn : n ≤ e.long) (hr : e.long - n < rounds) :
    walk32 out e.slope e.x1 e.y1 rounds n (e.pen n) = .ok (some (pointsFrom e f n)) := by
  induction rounds generalizing n with
  | zero => omega
  | succ rounds ih =>
    rw [walk32, hout n hn]
    show (if _ then _ else _) = _
    by_cases hlast : n = e.long
    · rw [if_pos ((at_end_iff hn).mpr hlast), pointsFrom, hlast, Nat.sub_self]
      rfl
    · have hlt : n < e.long := by omega
      have hpoints : pointsFrom e f n = _ := pointsFrom_of_lt hlt
      rw [if_neg fun h => hlast ((at_end_iff hn).mp h),
        next32_eq hends hlt (hsteps n hlt) fun h => hsteps _ h]
      show (walk32 _ _ _ _ _ _ _ >>= _) = _
      rw [ih (by omega) (by omega), hpoints]
      rfl

theorem walk32_head {xb yb : ℤ} {a : (ℤ × ℤ) × α} {as : List ((ℤ × ℤ) × α)}
    (h : walk32 out l xb yb rounds n p = .ok (some (a :: as))) : a.1 = (p.x, p.y) := by
  cases rounds with
  | zero => cases h
  | succ rounds =>
    rw [walk32] at h
    cases hout : out n p with
    | error err => rw [hout] at h; cases h
    | ok v =>
      rw [hout] at h
      replace h : (if _ then _ else _) = _ := h
      split at h
      · cases h
        rfl
      · cases hnext : next32 l p with
        | error err => rw [hnext] at h; cases h
        | ok q =>
          rw [hnext] at h
          replace h : (walk32 _ _ _ _ _ _ _ >>= _) = _ := h
          cases hrest : walk32 out l xb yb rounds (n + 1) q with
          | error err => rw [hrest] at h; cases h
          | ok rest =>
            rw [hrest] at h
            cases rest with
            | none => cases h
            | some rest => cases h; rfl

/-- A walk that visits the points of the line takes steps that fit. -/
theorem stepFits_of_walk32 (hends : EndsFit e)
    (hout : ∀ i ≤ e.long, out i (e.pen i) = .ok (f i)) (hn : n ≤ e.long)
    (h : walk32 out e.slope e.x1 e.y1 rounds n (e.pen n) = .ok (some (pointsFrom e f n))) :
    ∀ i, n ≤ i → i < e.long → StepFits e i := by
  induction rounds generalizing n with
  | zero => cases h
  | succ rounds ih =>
    intro i hi hlt
    have hnlt : n < e.long := by omega
    rw [walk32, hout n hn] at h
    replace h : (if _ then _ else _) = _ := h
    rw [if_neg fun hend => (show n ≠ e.long by omega) ((at_end_iff hn).mp hend)] at h
    cases hnext : next32 e.slope (e.pen n) with
    | error err => rw [hnext] at h; cases h
    | ok q =>
      rw [hnext] at h
      replace h : (walk32 _ _ _ _ _ _ _ >>= _) = _ := h
      cases hrest : walk32 out e.slope e.x1 e.y1 rounds (n + 1) q with
      | error err => rw [hrest] at h; cases h
      | ok rest =>
        rw [hrest, pointsFrom_of_lt hnlt] at h
        cases rest with
        | none => cases h
        | some rest =>
          have htail : rest = pointsFrom e f (n + 1) := by cases h; rfl
          rw [htail] at hrest
          have hhead : pointsFrom e f (n + 1) = (e.pt (n + 1), f (n + 1)) ::
              (List.range' (n + 1 + 1) (e.long - (n + 1))).map fun i => (e.pt i, f i) := rfl
          rw [hhead] at hrest
          have hpos := walk32_head hrest
          obtain ⟨hfits, rfl⟩ := stepFits_of_next32 hends hnlt hnext hpos.symm
          rcases hi.eq_or_lt with rfl | hlater
          · exact hfits
          · exact ih (by omega) hrest i hlater hlt

/-- The loop visits the points of the line exactly if all its steps fit. -/
theorem walk32_iff (hends : EndsFit e) (hout : ∀ i ≤ e.long, out i (e.pen i) = .ok (f i)) :
    (∃ rounds, walk32 out e.slope e.x1 e.y1 rounds 0 (e.pen 0) = .ok (some (pointsFrom e f 0))) ↔
      ∀ i < e.long, StepFits e i :=
  ⟨fun ⟨_, h⟩ i hi => stepFits_of_walk32 hends hout (Nat.zero_le _) h i (Nat.zero_le _) hi,
    fun h => ⟨e.long + 1, walk32_eq hends hout h (Nat.zero_le _) (by omega)⟩⟩

/-! ## Which lines fit -/

/-- The largest multiple of the common divisor up to half the longer side. -/
def swing (M m : ℕ) : ℕ := M.gcd m * (M / (2 * M.gcd m))

/-- The largest below half of it. -/
def swingBack (M m : ℕ) : ℕ := M.gcd m * ((M - 1) / (2 * M.gcd m))

/-- What the sides of a line have to be for its errors to fit in 32 bits. -/
def LineFits (e : Ends) : Prop :=
  e.width < 2 ^ 31 ∧ e.height ≤ 2 ^ 31 ∧
    if e.height ≤ e.width then
      2 * (e.width - e.height + swing e.width e.height) < 2 ^ 31 ∧
        2 * e.height + swingBack e.width e.height ≤ e.width + 2 ^ 31
    else
      2 * (e.height + swing e.height e.width) ≤ 2 * e.width + 2 ^ 31 ∧
        (0 < e.width → e.height + swing e.height e.width ≤ 2 ^ 31)

instance (e : Ends) : Decidable (LineFits e) := inferInstanceAs (Decidable (_ ∧ _ ∧ ite _ _ _))

theorem gcd_pos (hpos : 0 < e.long) : 0 < e.long.gcd e.short := Nat.gcd_pos_of_pos_left _ hpos

theorem two_swing_le (M m : ℕ) : 2 * swing M m ≤ M := by
  rw [swing, ← Nat.mul_assoc]
  exact Nat.mul_div_le _ _

theorem two_swingBack_le (M m : ℕ) : 2 * swingBack M m ≤ M - 1 := by
  rw [swingBack, ← Nat.mul_assoc]
  exact Nat.mul_div_le _ _

theorem deviation_le_swing (hpos : 0 < e.long) (n : ℕ) : e.deviation n ≤ swing e.long e.short := by
  obtain ⟨k, hk⟩ := dvd_deviation e n
  obtain ⟨-, h2⟩ := deviation_bounds hpos n
  have hg := gcd_pos hpos
  have hle : k ≤ (e.long : ℤ) / (2 * e.long.gcd e.short : ℕ) := by
    refine Int.le_ediv_of_mul_le (by omega) ?_
    push_cast
    rw [hk] at h2
    linarith
  rw [hk, swing, Nat.cast_mul, Int.natCast_ediv]
  exact mul_le_mul_of_nonneg_left hle (Int.natCast_nonneg _)

theorem neg_swingBack_le_deviation (hpos : 0 < e.long) (n : ℕ) :
    -(swingBack e.long e.short : ℤ) ≤ e.deviation n := by
  obtain ⟨k, hk⟩ := dvd_deviation e n
  obtain ⟨h1, -⟩ := deviation_bounds hpos n
  have hg := gcd_pos hpos
  have hle : -k ≤ ((e.long - 1 : ℕ) : ℤ) / (2 * e.long.gcd e.short : ℕ) := by
    refine Int.le_ediv_of_mul_le (by omega) ?_
    push_cast [Nat.cast_sub (show 1 ≤ e.long by omega)]
    rw [hk] at h1
    linarith
  have hmul := mul_le_mul_of_nonneg_left hle (Int.natCast_nonneg (e.long.gcd e.short))
  rw [mul_neg] at hmul
  rw [hk, swingBack, Nat.cast_mul, Int.natCast_ediv]
  linarith

theorem exists_swing (hpos : 0 < e.long) : ∃ n < e.long, e.deviation n = swing e.long e.short := by
  have hle := two_swing_le e.long e.short
  refine exists_deviation hpos ?_ (by omega) (by omega)
  rw [swing, Nat.cast_mul]
  exact dvd_mul_right _ _

theorem exists_swingBack (hpos : 0 < e.long) :
    ∃ n < e.long, e.deviation n = -(swingBack e.long e.short : ℤ) := by
  have hle := two_swingBack_le e.long e.short
  refine exists_deviation hpos ?_ (by omega) (by omega)
  rw [swingBack, Nat.cast_mul]
  exact (dvd_mul_right _ _).neg_right

/-- All steps of a line fit exactly if its sides do. -/
theorem stepFits_iff (h1 : e.width < 2 ^ 31) (h2 : e.height ≤ 2 ^ 31) :
    (∀ i < e.long, StepFits e i) ↔ LineFits e := by
  rcases Nat.eq_zero_or_pos e.long with h0 | hpos
  · have hw := e.width_le
    have hh := e.height_le
    have hw0 : e.width = 0 := by omega
    have hh0 : e.height = 0 := by omega
    rw [LineFits, hw0, hh0, h0]
    simp [swing, swingBack]
  rw [LineFits, and_iff_right h1, and_iff_right h2]
  by_cases hside : e.height ≤ e.width
  · obtain ⟨hl, hs⟩ := long_of_wide hside
    rw [if_pos hside]
    constructor
    · intro hall
      obtain ⟨i, hi, hdev⟩ := exists_swing hpos
      obtain ⟨j, hj, hdev'⟩ := exists_swingBack hpos
      have hhigh := (hall i hi).high
      have hmoved := (hall j hj).moved
      have hlow := (deviation_bounds hpos j).1
      rw [err_of_wide hpos hside, hdev, hl, hs] at hhigh
      rw [err_of_wide hpos hside] at hmoved
      rw [hl] at hlow
      replace hmoved := hmoved (by omega)
      rw [hdev', hl, hs] at hmoved
      omega
    · rintro ⟨hup, hback⟩ i hi
      have hle := deviation_le_swing hpos i
      have hge := neg_swingBack_le_deviation hpos i
      have hlow := (deviation_bounds hpos i).1
      rw [hl, hs] at hle hge
      rw [hl] at hlow
      have herr := err_of_wide hpos hside i
      exact ⟨by omega, by omega, fun _ => by omega⟩
  · have htall : e.width ≤ e.height := by omega
    obtain ⟨hl, hs⟩ := long_of_tall htall
    rw [if_neg hside]
    constructor
    · intro hall
      obtain ⟨i, hi, hdev⟩ := exists_swing hpos
      have hlow := (hall i hi).low
      rw [err_of_tall hpos htall, hdev, hl, hs] at hlow
      refine ⟨by omega, fun hw => ?_⟩
      cases i with
      | zero =>
        have hzero : e.deviation 0 = 0 := by
          rw [Ends.deviation, off_zero hpos]
          simp
        rw [hzero, hl, hs] at hdev
        omega
      | succ i =>
        -- the deviation is at its largest after a move
        have hsucc := off_short_succ hpos i
        have hdev' : e.deviation (i + 1) = off e.long e.short (i + 1) * e.long -
            (i + 1 : ℕ) * e.short := rfl
        have hdev0 : e.deviation i = off e.long e.short i * e.long - i * e.short := rfl
        have hle := deviation_le_swing hpos i
        split at hsucc
        case isFalse =>
          have hstay : e.deviation (i + 1) = e.deviation i - e.short := by
            rw [hdev', hdev0, hsucc]
            push_cast
            ring
          rw [hs] at hstay
          omega
        case isTrue hmove =>
          have hgo : e.deviation (i + 1) = e.deviation i - e.short + e.long := by
            rw [hdev', hdev0, hsucc]
            push_cast
            ring
          have hmoved := (hall i (by omega)).moved
          rw [err_of_tall hpos htall] at hmoved
          rw [hl, hs] at hmove hgo hdev
          replace hmoved := hmoved (by omega)
          omega
    · rintro ⟨hup, hmove⟩ i hi
      have hle := deviation_le_swing hpos i
      have hfirst := (deviation_bounds hpos i).1
      have hle' := deviation_le_swing hpos (i + 1)
      rw [hl, hs] at hle hle'
      rw [hl] at hfirst
      have herr := err_of_tall hpos htall i
      refine ⟨by omega, by omega, fun hm => ?_⟩
      have hsucc := off_short_succ hpos i
      rw [if_pos (by rw [hl, hs]; omega)] at hsucc
      have hgo : e.deviation (i + 1) = e.deviation i - e.short + e.long := by
        rw [Ends.deviation, Ends.deviation, hsucc]
        push_cast
        ring
      rw [hl, hs] at hgo
      rcases Nat.eq_zero_or_pos e.width with hw | hw
      · have hlast := (deviation_bounds hpos (i + 1)).2
        rw [hl] at hlast
        omega
      · have hin := hmove hw
        omega

/-! ## The builtins -/

/-- The set-up succeeds if the sides fit. -/
theorem setup32_eq (h1 : e.width < 2 ^ 31) (h2 : e.height ≤ 2 ^ 31) :
    setup32 e = .ok (e.slope, e.pen 0) := by
  have hdx : e.slope.dx = e.width := rfl
  have hdy : e.slope.dy = -e.height := rfl
  rw [setup32, slopeOf_eq, int32_ok (by omega) (by omega), int32_ok (by omega) (by omega)]
  show (int32 (e.slope.dx + e.slope.dy) >>= _) = _
  rw [int32_ok (by omega) (by omega), pen_zero]
  rfl

theorem setup32_error (h : ¬(e.width < 2 ^ 31 ∧ e.height ≤ 2 ^ 31)) :
    setup32 e = .error .overflow := by
  have hdx : e.slope.dx = e.width := rfl
  have hdy : e.slope.dy = -e.height := rfl
  rw [setup32, slopeOf_eq]
  by_cases h1 : e.width < 2 ^ 31
  · rw [int32_ok (by omega) (by omega), int32, if_neg (by rw [InInt32]; omega)]
    rfl
  · rw [int32, if_neg (by rw [InInt32]; omega)]
    rfl

theorem endsFit_ends32 (x0 y0 x1 y1 : UInt64) (h1 : (ends32 x0 y0 x1 y1).width < 2 ^ 31)
    (h2 : (ends32 x0 y0 x1 y1).height ≤ 2 ^ 31) : EndsFit (ends32 x0 y0 x1 y1) where
  x0 := ⟨Int32.le_toInt _, Int32.toInt_lt _⟩
  y0 := ⟨Int32.le_toInt _, Int32.toInt_lt _⟩
  x1 := ⟨Int32.le_toInt _, Int32.toInt_lt _⟩
  y1 := ⟨Int32.le_toInt _, Int32.toInt_lt _⟩
  width := h1
  height := h2

/-- **`GrLine`** visits the points of the line exactly if its sides fit. -/
theorem grline6_visits_iff (s : Screen) (x0 y0 x1 y1 c step : UInt64) :
    (∃ rounds, hcBuiltinGrline6 s rounds x0 y0 x1 y1 c step =
      .ok (some (pointsFrom (ends32 x0 y0 x1 y1)
        (fun n => grline6Out s c step n ((ends32 x0 y0 x1 y1).pen n)) 0))) ↔
      LineFits (ends32 x0 y0 x1 y1) := by
  set e := ends32 x0 y0 x1 y1
  by_cases hsides : e.width < 2 ^ 31 ∧ e.height ≤ 2 ^ 31
  · rw [← stepFits_iff hsides.1 hsides.2,
      ← @walk32_iff e _ (fun n p => .ok (grline6Out s c step n p)) _
        (endsFit_ends32 _ _ _ _ hsides.1 hsides.2) fun i _ => rfl]
    refine exists_congr fun rounds => ?_
    have hrun : hcBuiltinGrline6 s rounds x0 y0 x1 y1 c step =
        walk32 (fun n p => .ok (grline6Out s c step n p)) e.slope e.x1 e.y1 rounds 0 (e.pen 0) := by
      show (setup32 e >>= _) = _
      rw [setup32_eq hsides.1 hsides.2]
      rfl
    rw [hrun]
  · refine iff_of_false ?_ fun hfits => hsides ⟨hfits.1, hfits.2.1⟩
    rintro ⟨rounds, h⟩
    replace h : (setup32 e >>= _) = _ := h
    rw [setup32_error hsides] at h
    cases h

/-- The depth of the point after `n` steps. -/
def depthAt (e : Ends) (za zb : ℤ) (n : ℕ) : ℤ := za + ((zb - za) * n).tdiv (max e.long 1)

theorem grline3Steps_eq (h1 : e.width < 2 ^ 31) (h2 : e.height < 2 ^ 31) :
    grline3Steps e.slope = .ok (max e.long 1 : ℕ) := by
  have hdx : e.slope.dx = e.width := rfl
  have hdy : e.slope.dy = -e.height := rfl
  rw [grline3Steps, hdy, neg_neg, int32_ok (by omega) (by omega), hdx, Ends.long]
  show Except.ok _ = _
  congr 1
  split <;> split <;> omega

/-- A depth lies between those of the ends. -/
theorem grline3Out_eq {za zb : ℤ} (hza : InInt32 za) (hzb : InInt32 zb) (hd : InInt32 (zb - za))
    (hlong : e.long < 2 ^ 31) (hn : n ≤ e.long) (p : Pen) :
    grline3Out za zb (max e.long 1 : ℕ) n p = .ok (depthAt e za zb n) := by
  have hcast : ((max e.long 1 : ℕ) : ℤ) = max (e.long : ℤ) 1 := by push_cast; rfl
  -- the share of the difference for `n` steps is no more than all of it
  have hshare : ∀ d : ℤ, 0 ≤ d → 0 ≤ (d * n).tdiv (max e.long 1 : ℕ) ∧
      (d * n).tdiv (max e.long 1 : ℕ) ≤ d := by
    intro d h0
    have hnn : (0 : ℤ) ≤ d * n := by positivity
    rw [Int.tdiv_eq_ediv_of_nonneg hnn]
    refine ⟨Int.ediv_nonneg hnn (by omega), Int.ediv_le_of_le_mul (by omega) ?_⟩
    exact mul_le_mul_of_nonneg_left (by omega) h0
  have hbetween : (0 ≤ ((zb - za) * n).tdiv (max e.long 1 : ℕ) ∧
      ((zb - za) * n).tdiv (max e.long 1 : ℕ) ≤ zb - za) ∨
      (zb - za ≤ ((zb - za) * n).tdiv (max e.long 1 : ℕ) ∧
        ((zb - za) * n).tdiv (max e.long 1 : ℕ) ≤ 0) := by
    rcases le_total 0 (zb - za) with h | h
    · exact .inl (hshare _ h)
    · obtain ⟨h1, h2⟩ := hshare (-(zb - za)) (by omega)
      rw [neg_mul, Int.neg_tdiv] at h1 h2
      exact .inr ⟨by omega, by omega⟩
  obtain ⟨ha1, ha2⟩ := hza
  obtain ⟨hb1, hb2⟩ := hzb
  obtain ⟨hd1, hd2⟩ := hd
  have hw : wrap32 (((zb - za) * n).tdiv (max e.long 1 : ℕ)) =
      ((zb - za) * n).tdiv (max e.long 1 : ℕ) := wrap32_of_fits (by omega) (by omega)
  rw [grline3Out, int32_ok (by omega) (by omega), int32_ok (by omega) (by omega)]
  show int32 (za + wrap32 (((zb - za) * n).tdiv (max e.long 1 : ℕ))) = _
  rw [hw, int32_ok (by omega) (by omega), depthAt, hcast]

/-- **`GrLine3`** besides divides the difference of the depths by the number of steps. -/
theorem grline3_visits_iff (x1 y1 z1 x2 y2 z2 : UInt64) :
    (∃ rounds, hcBuiltinGrline3 rounds x1 y1 z1 x2 y2 z2 =
      .ok (some (pointsFrom (ends32 x1 y1 x2 y2)
        (depthAt (ends32 x1 y1 x2 y2) (toInt32 z1) (toInt32 z2)) 0))) ↔
      LineFits (ends32 x1 y1 x2 y2) ∧ (ends32 x1 y1 x2 y2).height < 2 ^ 31 ∧
        InInt32 (toInt32 z2 - toInt32 z1) := by
  set e := ends32 x1 y1 x2 y2
  have hza : InInt32 (toInt32 z1) := ⟨Int32.le_toInt _, Int32.toInt_lt _⟩
  have hzb : InInt32 (toInt32 z2) := ⟨Int32.le_toInt _, Int32.toInt_lt _⟩
  by_cases hsides : e.width < 2 ^ 31 ∧ e.height ≤ 2 ^ 31
  case neg =>
    refine iff_of_false ?_ fun hfits => hsides ⟨hfits.1.1, hfits.1.2.1⟩
    rintro ⟨rounds, h⟩
    replace h : (setup32 e >>= _) = _ := h
    rw [setup32_error hsides] at h
    cases h
  by_cases hheight : e.height < 2 ^ 31
  case neg =>
    refine iff_of_false ?_ fun hfits => hheight hfits.2.1
    rintro ⟨rounds, h⟩
    replace h : (setup32 e >>= _) = _ := h
    rw [setup32_eq hsides.1 hsides.2] at h
    replace h : (grline3Steps e.slope >>= _) = _ := h
    have hdy : e.slope.dy = -e.height := rfl
    rw [grline3Steps, hdy, neg_neg, int32, if_neg (by rw [InInt32]; omega)] at h
    cases h
  have hrun : ∀ rounds, hcBuiltinGrline3 rounds x1 y1 z1 x2 y2 z2 =
      walk32 (grline3Out (toInt32 z1) (toInt32 z2) (max e.long 1 : ℕ)) e.slope e.x1 e.y1 rounds 0
        (e.pen 0) := by
    intro rounds
    show (setup32 e >>= _) = _
    rw [setup32_eq hsides.1 hsides.2]
    show (grline3Steps e.slope >>= _) = _
    rw [grline3Steps_eq hsides.1 hheight]
    rfl
  simp only [hrun]
  by_cases hdepth : InInt32 (toInt32 z2 - toInt32 z1)
  case neg =>
    refine iff_of_false ?_ fun hfits => hdepth hfits.2.2
    rintro ⟨rounds, h⟩
    cases rounds with
    | zero => cases h
    | succ rounds =>
      rw [walk32, grline3Out, int32_ok (by omega) (by omega), int32, if_neg hdepth] at h
      cases h
  have hlong : e.long < 2 ^ 31 := max_lt hsides.1 hheight
  rw [walk32_iff (endsFit_ends32 _ _ _ _ hsides.1 hsides.2)
    fun i hi => grline3Out_eq hza hzb hdepth hlong hi _, stepFits_iff hsides.1 hsides.2]
  exact ⟨fun h => ⟨h, hheight, hdepth⟩, fun h => h.1⟩

/-! ## The four functions together -/

/-- What the points of a line are: from end to end, each next to the one before and within half
a unit of the ideal line. -/
structure Straight (e : Ends) (pt : ℕ → ℤ × ℤ) : Prop where
  first : pt 0 = (e.x0, e.y0)
  last : pt e.long = (e.x1, e.y1)
  major : ∀ n < e.long, (e.height ≤ e.width → |(pt (n + 1)).1 - (pt n).1| = 1) ∧
    (e.width ≤ e.height → |(pt (n + 1)).2 - (pt n).2| = 1)
  minor : ∀ n < e.long, |(pt (n + 1)).1 - (pt n).1| ≤ 1 ∧ |(pt (n + 1)).2 - (pt n).2| ≤ 1
  near : ∀ n ≤ e.long, 2 * |((pt n).1 - e.x0) * e.long - n * (e.x1 - e.x0)| ≤ e.long ∧
    2 * |((pt n).2 - e.y0) * e.long - n * (e.y1 - e.y0)| ≤ e.long

theorem straight_pt (e : Ends) : Straight e e.pt where
  first := pt_zero e
  last := pt_last e
  major n hn := (adjacent hn).2.2
  minor n hn := ⟨(adjacent hn).1, (adjacent hn).2.1⟩
  near n hn := by
    rcases Nat.eq_zero_or_pos e.long with h0 | hpos
    · rw [show n = 0 by omega, pt_zero, h0]
      simp
    · exact Bresenham.near hpos n

/-- **Lines.**  The functions for screens and bitmaps visit and select the points of the line,
the first up to a cap behind which a screen of 8192 by 8192 has none of them; the builtins do
exactly if the sides fit. -/
theorem lines_visit_iff (s : Screen) :
    (∀ e : Ends, Straight e e.pt) ∧
    (∀ e step start, graphLineVisits s e step start = if graphLineAccepts s e step start then
      some (visits e step start (min e.long 16384)) else none) ∧
    (s.w ≤ 8192 → s.h ≤ 8192 → ∀ z v e color step start,
      zealFbGraphLine s z v e color step start = if graphLineAccepts s e step start then
        plotted s z v color (visits e step start e.long) else ([], false)) ∧
    (∀ dc e step start, bootstrapGraphCdcLine0 dc e step start =
      if cdcLineAccepts dc e step start then some (visits e step start e.long) else none) ∧
    (∀ x0 y0 x1 y1 c step, (∃ rounds, hcBuiltinGrline6 s rounds x0 y0 x1 y1 c step =
      .ok (some (pointsFrom (ends32 x0 y0 x1 y1)
        (fun n => grline6Out s c step n ((ends32 x0 y0 x1 y1).pen n)) 0))) ↔
      LineFits (ends32 x0 y0 x1 y1)) ∧
    ∀ x1 y1 z1 x2 y2 z2, (∃ rounds, hcBuiltinGrline3 rounds x1 y1 z1 x2 y2 z2 =
      .ok (some (pointsFrom (ends32 x1 y1 x2 y2)
        (depthAt (ends32 x1 y1 x2 y2) (toInt32 z1) (toInt32 z2)) 0))) ↔
      LineFits (ends32 x1 y1 x2 y2) ∧ (ends32 x1 y1 x2 y2).height < 2 ^ 31 ∧
        InInt32 (toInt32 z2 - toInt32 z1) :=
  ⟨straight_pt, graphLineVisits_eq s, fun hw hh z v e color step start =>
    zealFbGraphLine_eq z v e color step start hw hh, bootstrapGraphCdcLine0_eq,
    grline6_visits_iff s, grline3_visits_iff⟩

/-- A level line of 2^30 steps: its error doubled is a negative number. -/
theorem grline6_leaves_line : ¬∃ rounds,
    hcBuiltinGrline6 small rounds 0 0 1073741824 0 0xffffff 1 =
      .ok (some (pointsFrom (ends32 0 0 1073741824 0)
        (fun n => grline6Out small 0xffffff 1 n ((ends32 0 0 1073741824 0).pen n)) 0)) :=
  (grline6_visits_iff small 0 0 1073741824 0 0xffffff 1).not.mpr (by decide +kernel)

theorem lines_visit_small : (small.w ≤ 8192 ∧ small.h ≤ 8192) ∧ ∀ z v e color step start,
    zealFbGraphLine small z v e color step start = if graphLineAccepts small e step start then
      plotted small z v color (visits e step start e.long) else ([], false) :=
  ⟨⟨by decide, by decide⟩, (lines_visit_iff small).2.2.1 (by decide) (by decide)⟩

end ZealBringup.Fb
