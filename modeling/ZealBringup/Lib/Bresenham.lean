import Mathlib

/-!
# Straight lines on a grid

The points of a line between two places of the grid, one for each step along its longer side,
with the other coordinate rounded to the nearest one (a half goes up).  The step rule with
one accumulated error, the same in all octants, walks exactly these points.

* `pt_zero`, `pt_last`, `pt_ne_last` — the line goes from end to end and is there no earlier.
* `adjacent`, `near` — steps are steps to a neighbour, and each point is within half a unit.
* `next_pen` — the step rule.
* `deviation_mem`, `exists_deviation` — the deviations that occur are the multiples of the
  greatest common divisor of the sides, up to half the longer side.
-/

namespace Bresenham

/-! ## Rounding -/

/-- `n * L / M`, rounded. -/
def off (M L n : ℕ) : ℕ := (2 * (n * L) + M) / (2 * M)

section off

variable {M L n : ℕ}

theorem off_spec (hM : 0 < M) (L n : ℕ) :
    2 * (off M L n * M) ≤ 2 * (n * L) + M ∧ 2 * (n * L) < 2 * (off M L n * M) + M := by
  have hdiv := Nat.div_add_mod (2 * (n * L) + M) (2 * M)
  have hmod := Nat.mod_lt (2 * (n * L) + M) (show 0 < 2 * M by omega)
  have hatom : 2 * M * ((2 * (n * L) + M) / (2 * M)) = 2 * (off M L n * M) := by
    rw [off]
    ring
  omega

/-- The rounded value is the only one that near. -/
theorem off_unique (hM : 0 < M) {v : ℕ} (h1 : 2 * (v * M) ≤ 2 * (n * L) + M)
    (h2 : 2 * (n * L) < 2 * (v * M) + M) : off M L n = v := by
  obtain ⟨h3, h4⟩ := off_spec hM L n
  rcases lt_trichotomy (off M L n) v with hlt | heq | hgt
  · have hle : (off M L n + 1) * M ≤ v * M := Nat.mul_le_mul_right _ hlt
    rw [Nat.add_mul, Nat.one_mul] at hle
    omega
  · exact heq
  · have hle : (v + 1) * M ≤ off M L n * M := Nat.mul_le_mul_right _ hgt
    rw [Nat.add_mul, Nat.one_mul] at hle
    omega

theorem off_zero (hM : 0 < M) : off M L 0 = 0 := off_unique hM (by omega) (by omega)

theorem off_last (hM : 0 < M) : off M L M = L :=
  off_unique hM (by rw [Nat.mul_comm L]; omega) (by rw [Nat.mul_comm L]; omega)

theorem off_major (hM : 0 < M) : off M M n = n := off_unique hM (by omega) (by omega)

theorem off_mono (hM : 0 < M) {n' : ℕ} (h : n ≤ n') : off M L n ≤ off M L n' :=
  Nat.div_le_div_right (by have := Nat.mul_le_mul_right L h; omega)

theorem off_le (hM : 0 < M) (hn : n ≤ M) : off M L n ≤ L := by
  have h := @off_mono M L n hM M hn
  rwa [off_last hM] at h

/-- One step along the longer side takes the other coordinate on by one or not at all. -/
theorem off_succ (hM : 0 < M) (hL : L ≤ M) : off M L (n + 1) =
    if 2 * ((off M L n + 1) * M) ≤ 2 * ((n + 1) * L) + M then off M L n + 1 else off M L n := by
  obtain ⟨h1, h2⟩ := off_spec hM L n
  have hn : (n + 1) * L = n * L + L := by ring
  have ho : (off M L n + 1) * M = off M L n * M + M := by ring
  split
  · exact off_unique hM (by omega) (by omega)
  · exact off_unique hM (by omega) (by omega)

end off

/-! ## Lines -/

/-- The ends of a line. -/
structure Ends where
  x0 : ℤ
  y0 : ℤ
  x1 : ℤ
  y1 : ℤ

/-- How far and which way each coordinate goes, the second side counted downwards. -/
structure Slope where
  dx : ℤ
  sx : ℤ
  dy : ℤ
  sy : ℤ

/-- A place on the line and the accumulated error. -/
structure Pen where
  x : ℤ
  y : ℤ
  err : ℤ
  deriving DecidableEq

namespace Ends

variable (e : Ends)

def width : ℕ := (e.x1 - e.x0).natAbs

def height : ℕ := (e.y1 - e.y0).natAbs

/-- The longer side. -/
def long : ℕ := max e.width e.height

def slope : Slope where
  dx := e.width
  sx := if e.x0 < e.x1 then 1 else -1
  dy := -e.height
  sy := if e.y0 < e.y1 then 1 else -1

/-- The point of the line after `n` steps. -/
def pt (n : ℕ) : ℤ × ℤ :=
  (e.x0 + e.slope.sx * off e.long e.width n, e.y0 + e.slope.sy * off e.long e.height n)

/-- The error after `n` steps. -/
def err (n : ℕ) : ℤ := e.width - e.height - off e.long e.width n * e.height +
  off e.long e.height n * e.width

def pen (n : ℕ) : Pen := ⟨(e.pt n).1, (e.pt n).2, e.err n⟩

end Ends

variable {e : Ends} {n : ℕ}

theorem sx_width (e : Ends) : e.slope.sx * e.width = e.x1 - e.x0 := by
  rw [Ends.slope, Ends.width]
  simp only
  split <;> omega

theorem sy_height (e : Ends) : e.slope.sy * e.height = e.y1 - e.y0 := by
  rw [Ends.slope, Ends.height]
  simp only
  split <;> omega

theorem sx_cases (e : Ends) : e.slope.sx = 1 ∨ e.slope.sx = -1 := by
  rw [Ends.slope]
  simp only
  split <;> simp

theorem sy_cases (e : Ends) : e.slope.sy = 1 ∨ e.slope.sy = -1 := by
  rw [Ends.slope]
  simp only
  split <;> simp

theorem Ends.width_le (e : Ends) : e.width ≤ e.long := le_max_left _ _

theorem Ends.height_le (e : Ends) : e.height ≤ e.long := le_max_right _ _

/-- A line of no length is one point. -/
theorem ends_eq_of_long (h : e.long = 0) : e.x1 = e.x0 ∧ e.y1 = e.y0 := by
  have hw := e.width_le
  have hh := e.height_le
  rw [Ends.width] at hw
  rw [Ends.height] at hh
  omega

theorem pt_zero (e : Ends) : e.pt 0 = (e.x0, e.y0) := by
  have hoff : ∀ L, off e.long L 0 = 0 := by
    intro L
    rcases Nat.eq_zero_or_pos e.long with h | h
    · rw [off, h, Nat.mul_zero, Nat.div_zero]
    · exact off_zero h
  rw [Ends.pt, hoff, hoff]
  simp

theorem pt_last (e : Ends) : e.pt e.long = (e.x1, e.y1) := by
  rcases Nat.eq_zero_or_pos e.long with h | h
  · obtain ⟨hx, hy⟩ := ends_eq_of_long h
    rw [h, pt_zero, hx, hy]
  · rw [Ends.pt, off_last h, off_last h, sx_width, sy_height]
    simp

/-- The line is at its end no earlier. -/
theorem pt_ne_last (hn : n < e.long) : ¬((e.pt n).1 = e.x1 ∧ (e.pt n).2 = e.y1) := by
  rintro ⟨hx, hy⟩
  have hpos : 0 < e.long := Nat.zero_lt_of_lt hn
  have hw := sx_width e
  have hh := sy_height e
  have hsx := sx_cases e
  have hsy := sy_cases e
  -- along the longer side the offset is `n` itself
  rcases max_choice e.width e.height with hmax | hmax
  · have hoff : off e.long e.width n = n := by
      have hlong : e.width = e.long := hmax.symm
      rw [hlong]
      exact off_major hpos
    rw [Ends.pt, hoff] at hx
    have hlong : e.width = e.long := hmax.symm
    obtain h | h := hsx <;> rw [h] at hx hw <;> omega
  · have hoff : off e.long e.height n = n := by
      have hlong : e.height = e.long := hmax.symm
      rw [hlong]
      exact off_major hpos
    rw [Ends.pt, hoff] at hy
    have hlong : e.height = e.long := hmax.symm
    obtain h | h := hsy <;> rw [h] at hy hh <;> omega

/-- Each point is within half a unit of the line. -/
theorem near (hpos : 0 < e.long) (n : ℕ) :
    2 * |((e.pt n).1 - e.x0) * e.long - n * (e.x1 - e.x0)| ≤ e.long ∧
      2 * |((e.pt n).2 - e.y0) * e.long - n * (e.y1 - e.y0)| ≤ e.long := by
  have hside : ∀ s : ℤ, s = 1 ∨ s = -1 → ∀ L : ℕ,
      2 * |(s * off e.long L n) * e.long - n * (s * L)| ≤ e.long := by
    intro s hs L
    obtain ⟨h1, h2⟩ := off_spec hpos L n
    have hcast : ((off e.long L n * e.long : ℕ) : ℤ) = off e.long L n * e.long := by push_cast; rfl
    have hcast' : ((n * L : ℕ) : ℤ) = n * L := by push_cast; rfl
    have heq : (s * off e.long L n) * e.long - n * (s * L) =
        s * ((off e.long L n * e.long : ℕ) - (n * L : ℕ)) := by
      rw [hcast, hcast']
      ring
    have habs : |s| = 1 := by obtain rfl | rfl := hs <;> decide
    rw [heq, abs_mul, habs, one_mul]
    rcases abs_cases (((off e.long L n * e.long : ℕ) : ℤ) - (n * L : ℕ)) with h | h <;> omega
  have hsx := sx_cases e
  have hsy := sy_cases e
  constructor
  · rw [Ends.pt, add_sub_cancel_left, ← sx_width]
    exact hside _ hsx _
  · rw [Ends.pt, add_sub_cancel_left, ← sy_height]
    exact hside _ hsy _

/-! ## The step rule -/

def Slope.moveX (l : Slope) (e2 : ℤ) (p : Pen) : Pen :=
  if l.dy ≤ e2 then ⟨p.x + l.sx, p.y, p.err + l.dy⟩ else p

def Slope.moveY (l : Slope) (e2 : ℤ) (p : Pen) : Pen :=
  if e2 ≤ l.dx then ⟨p.x, p.y + l.sy, p.err + l.dx⟩ else p

/-- Both coordinates are decided by the error before the step. -/
def Slope.next (l : Slope) (p : Pen) : Pen := l.moveY (p.err * 2) (l.moveX (p.err * 2) p)

/-- The shorter side. -/
def Ends.short (e : Ends) : ℕ := min e.width e.height

/-- How far the point after `n` steps is off along the shorter side, times the longer one. -/
def Ends.deviation (e : Ends) (n : ℕ) : ℤ := off e.long e.short n * e.long - n * e.short

theorem deviation_bounds (hpos : 0 < e.long) (n : ℕ) :
    -e.long < 2 * e.deviation n ∧ 2 * e.deviation n ≤ e.long := by
  obtain ⟨h1, h2⟩ := off_spec hpos e.short n
  have hcast : e.deviation n = ((off e.long e.short n * e.long : ℕ) : ℤ) - (n * e.short : ℕ) := by
    rw [Ends.deviation]
    push_cast
    rfl
  omega

theorem long_of_wide (h : e.height ≤ e.width) : e.long = e.width ∧ e.short = e.height :=
  ⟨max_eq_left h, min_eq_right h⟩

theorem long_of_tall (h : e.width ≤ e.height) : e.long = e.height ∧ e.short = e.width :=
  ⟨max_eq_right h, min_eq_left h⟩

theorem err_of_wide (hpos : 0 < e.long) (h : e.height ≤ e.width) (n : ℕ) :
    e.err n = e.width - e.height + e.deviation n := by
  obtain ⟨hl, hs⟩ := long_of_wide h
  rw [Ends.err, Ends.deviation, hs]
  rw [hl] at hpos ⊢
  rw [off_major hpos]
  ring

theorem err_of_tall (hpos : 0 < e.long) (h : e.width ≤ e.height) (n : ℕ) :
    e.err n = e.width - e.height - e.deviation n := by
  obtain ⟨hl, hs⟩ := long_of_tall h
  rw [Ends.err, Ends.deviation, hs]
  rw [hl] at hpos ⊢
  rw [off_major hpos]
  ring

/-- The shorter side moves on when the deviation leaves the range otherwise. -/
theorem off_short_succ (hpos : 0 < e.long) (n : ℕ) : off e.long e.short (n + 1) =
    if 2 * (e.deviation n + e.long - e.short) ≤ e.long then off e.long e.short n + 1
    else off e.long e.short n := by
  have hle : e.short ≤ e.long := min_le_max
  rw [off_succ hpos hle]
  refine if_congr ?_ rfl rfl
  rw [Ends.deviation]
  zify
  constructor <;> intro h <;> linarith

/-- **The step rule** walks the line. -/
theorem next_pen (hn : n < e.long) : e.slope.next (e.pen n) = e.pen (n + 1) := by
  have hpos : 0 < e.long := Nat.zero_lt_of_lt hn
  obtain ⟨hlow, hhigh⟩ := deviation_bounds hpos n
  have hsucc := off_short_succ hpos n
  rcases le_total e.height e.width with h | h
  · obtain ⟨hl, hs⟩ := long_of_wide h
    have herr := err_of_wide hpos h n
    rw [hl, hs] at hsucc
    rw [hl] at hpos hlow hhigh
    have hx : e.slope.moveX (e.err n * 2) (e.pen n) =
        ⟨(e.pen n).x + e.slope.sx, (e.pen n).y, (e.pen n).err + e.slope.dy⟩ :=
      if_pos (by rw [herr]; simp only [Ends.slope]; omega)
    have hpen : ∀ m, e.pen m = ⟨e.x0 + e.slope.sx * m, e.y0 + e.slope.sy * off e.width e.height m,
        e.width - e.height - m * e.height + off e.width e.height m * e.width⟩ := fun m => by
      rw [Ends.pen, Ends.pt, Ends.err, hl, off_major hpos]
    have hp : (e.pen n).err = e.err n := rfl
    rw [Slope.next, hp, hx, Slope.moveY]
    split
    case isTrue hy =>
      rw [if_pos (by rw [herr] at hy; simp only [Ends.slope] at hy; omega)] at hsucc
      rw [hpen (n + 1), hpen n, hsucc]
      simp only [Ends.slope, Pen.mk.injEq]
      push_cast
      refine ⟨by ring, by ring, by ring⟩
    case isFalse hy =>
      rw [if_neg (by rw [herr] at hy; simp only [Ends.slope] at hy; omega)] at hsucc
      rw [hpen (n + 1), hpen n, hsucc]
      simp only [Ends.slope, Pen.mk.injEq]
      push_cast
      refine ⟨by ring, trivial, by ring⟩
  · obtain ⟨hl, hs⟩ := long_of_tall h
    have herr := err_of_tall hpos h n
    rw [hl, hs] at hsucc
    rw [hl] at hpos hlow hhigh
    have hpen : ∀ m, e.pen m = ⟨e.x0 + e.slope.sx * off e.height e.width m, e.y0 + e.slope.sy * m,
        e.width - e.height - off e.height e.width m * e.height + m * e.width⟩ := fun m => by
      rw [Ends.pen, Ends.pt, Ends.err, hl, off_major hpos]
    have hp : (e.pen n).err = e.err n := rfl
    have hy : e.err n * 2 ≤ e.slope.dx := by rw [herr]; simp only [Ends.slope]; omega
    rw [Slope.next, hp, Slope.moveY, if_pos hy, Slope.moveX]
    split
    case isTrue hx =>
      rw [if_pos (by rw [herr] at hx; simp only [Ends.slope] at hx; omega)] at hsucc
      rw [hpen (n + 1), hpen n, hsucc]
      simp only [Ends.slope, Pen.mk.injEq]
      push_cast
      refine ⟨by ring, by ring, by ring⟩
    case isFalse hx =>
      rw [if_neg (by rw [herr] at hx; simp only [Ends.slope] at hx; omega)] at hsucc
      rw [hpen (n + 1), hpen n, hsucc]
      simp only [Ends.slope, Pen.mk.injEq]
      push_cast
      refine ⟨trivial, by ring, by ring⟩

/-- Along the longer side each step moves by one, along the shorter one by at most one. -/
theorem adjacent (hn : n < e.long) :
    |(e.pt (n + 1)).1 - (e.pt n).1| ≤ 1 ∧ |(e.pt (n + 1)).2 - (e.pt n).2| ≤ 1 ∧
      (e.height ≤ e.width → |(e.pt (n + 1)).1 - (e.pt n).1| = 1) ∧
      (e.width ≤ e.height → |(e.pt (n + 1)).2 - (e.pt n).2| = 1) := by
  have hpos : 0 < e.long := Nat.zero_lt_of_lt hn
  have hside : ∀ s : ℤ, s = 1 ∨ s = -1 → ∀ c : ℤ, ∀ L ≤ e.long,
      |c + s * off e.long L (n + 1) - (c + s * off e.long L n)| ≤ 1 ∧
        (L = e.long → |c + s * off e.long L (n + 1) - (c + s * off e.long L n)| = 1) := by
    intro s hs c L hL
    have habs : |s| = 1 := by obtain rfl | rfl := hs <;> decide
    have hdiff : c + s * off e.long L (n + 1) - (c + s * off e.long L n) =
        s * (off e.long L (n + 1) - off e.long L n) := by ring
    rw [hdiff, abs_mul, habs, one_mul]
    constructor
    · rw [off_succ hpos hL]
      split
      · rw [Nat.cast_add, add_sub_cancel_left]
        decide
      · rw [sub_self]
        decide
    · rintro rfl
      rw [off_major hpos, off_major hpos, Nat.cast_add, add_sub_cancel_left]
      decide
  have hx := hside _ (sx_cases e) e.x0 _ e.width_le
  have hy := hside _ (sy_cases e) e.y0 _ e.height_le
  exact ⟨hx.1, hy.1, fun h => hx.2 (long_of_wide h).1.symm, fun h => hy.2 (long_of_tall h).1.symm⟩

/-! ## Which deviations occur -/

theorem dvd_deviation (e : Ends) (n : ℕ) : (e.long.gcd e.short : ℤ) ∣ e.deviation n := by
  have hl : (e.long.gcd e.short : ℤ) ∣ e.long := Int.natCast_dvd_natCast.mpr (Nat.gcd_dvd_left _ _)
  have hs : (e.long.gcd e.short : ℤ) ∣ e.short := Int.natCast_dvd_natCast.mpr (Nat.gcd_dvd_right _ _)
  exact Int.dvd_sub (hl.mul_left _) (hs.mul_left _)

/-- Each multiple of the greatest common divisor in the range is the deviation somewhere. -/
theorem exists_deviation (hpos : 0 < e.long) {d : ℤ} (hd : (e.long.gcd e.short : ℤ) ∣ d)
    (h1 : -e.long < 2 * d) (h2 : 2 * d ≤ e.long) : ∃ n < e.long, e.deviation n = d := by
  obtain ⟨k, rfl⟩ := hd
  have hbez := Nat.gcd_eq_gcd_ab e.long e.short
  have hmod := Int.emod_add_mul_ediv (-k * e.long.gcdB e.short) e.long
  have hlow := Int.emod_nonneg (-k * e.long.gcdB e.short) (show (e.long : ℤ) ≠ 0 by omega)
  have hhigh := Int.emod_lt_of_pos (-k * e.long.gcdB e.short) (show (0 : ℤ) < e.long by omega)
  set r := (-k * e.long.gcdB e.short) % (e.long : ℤ)
  set q := (-k * e.long.gcdB e.short) / (e.long : ℤ)
  -- the place whose remainder is the deviation asked for
  obtain ⟨n, hn⟩ := Int.eq_ofNat_of_zero_le hlow
  have hwhole : (e.long.gcd e.short : ℤ) * k + n * e.short =
      e.long * (e.long.gcdA e.short * k - q * e.short) := by
    have hr : (n : ℤ) = -k * e.long.gcdB e.short - e.long * q := by omega
    rw [hbez, hr]
    ring
  set t := e.long.gcdA e.short * k - q * e.short
  have ht : 0 ≤ t := by
    by_contra hneg
    have hle : (e.long : ℤ) * t ≤ e.long * (-1) :=
      mul_le_mul_of_nonneg_left (by omega) (Int.natCast_nonneg _)
    have hnn : (0 : ℤ) ≤ n * e.short := by positivity
    omega
  obtain ⟨v, hv⟩ := Int.eq_ofNat_of_zero_le ht
  rw [hv, mul_comm (e.long : ℤ)] at hwhole
  have hcast : ((v * e.long : ℕ) : ℤ) = (v : ℤ) * e.long := by push_cast; rfl
  have hcast' : ((n * e.short : ℕ) : ℤ) = (n : ℤ) * e.short := by push_cast; rfl
  have hoff : off e.long e.short n = v := off_unique hpos (by omega) (by omega)
  refine ⟨n, by omega, ?_⟩
  rw [Ends.deviation, hoff]
  omega

end Bresenham
