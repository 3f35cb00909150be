import ZealBringup.Fb.Fill

/-!
# Filled circles

`GrFillCircle` looks for the half width of each row by counting, and fills the row.  The
counting multiplies in 32 bits, and the corner of a row goes to `fb_fillrect` as an unsigned
number, for which a row that begins left of the screen is off it.

* `widen_eq` — the loop finds the half width, as long as nothing overflows.
* `grfillcircle_eq` — the filled rows.
* `grfillcircle_eq_plotDisc_iff` — when they are the disc.
-/

namespace ZealBringup.Fb

open Sweep

/-! ## The code -/

/-- An overflow of a signed number: the language says nothing of what comes after it. -/
inductive Undefined
  | overflow
  deriving DecidableEq, Repr

def InInt32 (z : ℤ) : Prop := -2 ^ 31 ≤ z ∧ z < 2 ^ 31

instance (z : ℤ) : Decidable (InInt32 z) := inferInstanceAs (Decidable (_ ∧ _))

def int32 (z : ℤ) : Except Undefined ℤ := if InInt32 z then .ok z else .error .overflow

/-- `(int32_t)v` -/
def toInt32 (v : UInt64) : ℤ := v.toUInt32.toInt32.toInt

/-- `while (dx * dx + dy * dy <= rad * rad) dx++;` -/
def widen (rad dy dx : ℤ) : Except Undefined ℤ :=
  if InInt32 (dx * dx) ∧ InInt32 (dy * dy) ∧ InInt32 (dx * dx + dy * dy) ∧ InInt32 (rad * rad) then
    if dx * dx + dy * dy ≤ rad * rad then widen rad dy (dx + 1) else .ok dx
  else .error .overflow
termination_by (2 ^ 31 - dx).toNat
decreasing_by
  rename_i h _
  have hsq := h.1.2
  have hle : dx ≤ dx * dx := by nlinarith [sq_nonneg (dx - 1), sq_nonneg dx]
  omega

/-- One round of the loop over the rows. -/
def circleRow (s : Screen) (x0 y0 rad : ℤ) (col : UInt32) (dy : ℤ) :
    Except Undefined (List Write) := do
  let dx ← widen rad dy 0
  let dx := dx - 1
  if 0 ≤ dx then
    let x ← int32 (x0 - dx)
    let y ← int32 (y0 + dy)
    let w ← int32 (2 * dx + 1)
    return fbFillrect s (.ofInt x) (.ofInt y) (.ofInt w) 1 col
  else return []

def hcBuiltinGrfillcircle (s : Screen) (cx cy r c : UInt64) : Except Undefined (List Write) :=
  let x0 := toInt32 cx
  let y0 := toInt32 cy
  let rad := toInt32 r
  if rad < 0 then return [] else do
    let rows ← (List.range (2 * rad.toNat + 1)).mapM fun i : ℕ =>
      circleRow s x0 y0 rad c.toUInt32 (-rad + i)
    return rows.flatten

/-- `fb_putpixel` for each pixel of the screen within `rad` of the centre. -/
def plotDisc (s : Screen) (x0 y0 rad : ℤ) (col : UInt32) : List Write :=
  (List.range s.h).flatMap fun y : ℕ => (List.range s.w).flatMap fun x : ℕ =>
    if (x - x0) ^ 2 + (y - y0) ^ 2 ≤ rad ^ 2 then pixel s col x y else []

/-! ## Half widths -/

/-- How far the row at height `dy` reaches from the middle. -/
def half (rad dy : ℤ) : ℕ := Nat.sqrt (rad ^ 2 - dy ^ 2).toNat

variable {s : Screen} {x0 y0 rad dy : ℤ} {col : UInt32} {k : Cell}

theorem inside_iff (h1 : -rad ≤ dy) (h2 : dy ≤ rad) (u : ℤ) :
    u ^ 2 + dy ^ 2 ≤ rad ^ 2 ↔ -(half rad dy : ℤ) ≤ u ∧ u ≤ half rad dy := by
  have hsq : dy ^ 2 ≤ rad ^ 2 := sq_le_sq' h1 h2
  have hroot : u.natAbs ≤ half rad dy ↔ u.natAbs ^ 2 ≤ (rad ^ 2 - dy ^ 2).toNat := Nat.le_sqrt'
  have habs : ((u.natAbs ^ 2 : ℕ) : ℤ) = u ^ 2 := by rw [Nat.cast_pow, Int.natCast_natAbs, sq_abs]
  omega

theorem half_le (h1 : -rad ≤ dy) (h2 : dy ≤ rad) : (half rad dy : ℤ) ≤ rad := by
  have hin := (inside_iff h1 h2 (half rad dy)).mpr ⟨by omega, le_rfl⟩
  exact le_of_sq_le_sq (by nlinarith [sq_nonneg dy]) (by omega)

theorem half_zero (h : 0 ≤ rad) : (half rad 0 : ℤ) = rad := by
  have hbelow : -rad ≤ 0 := by omega
  have hin := (inside_iff hbelow h rad).mp (by simp)
  have hle := half_le hbelow h
  omega

/-! ## The loop for the half width -/

theorem inInt32_sq {u : ℤ} (h1 : -46340 ≤ u) (h2 : u ≤ 46340) : InInt32 (u * u) := by
  have hsq : u * u ≤ 46340 * 46340 := by nlinarith
  have hpos := mul_self_nonneg u
  exact ⟨by omega, by omega⟩

theorem widen_eq (hrad : rad ≤ 46339) (h1 : -rad ≤ dy) (h2 : dy ≤ rad) {dx : ℤ} (h0 : 0 ≤ dx)
    (hdx : dx ≤ half rad dy + 1) : widen rad dy dx = .ok (half rad dy + 1) := by
  have hhalf := half_le h1 h2
  have hin := inside_iff h1 h2 dx
  rw [sq, sq, sq] at hin
  have hsum : InInt32 (dx * dx + dy * dy) := by
    have hrad' : rad * rad ≤ 46339 * 46339 := by nlinarith
    have hdy := mul_self_nonneg dy
    have hdx' := mul_self_nonneg dx
    refine ⟨by omega, ?_⟩
    -- one step beyond the last that is inside
    by_cases hpos : dx ≤ half rad dy
    · have hle := hin.mpr ⟨by omega, hpos⟩
      omega
    · have heq : dx = half rad dy + 1 := by omega
      have hlast := (inside_iff h1 h2 (half rad dy)).mpr ⟨by omega, le_rfl⟩
      rw [heq]
      nlinarith
  rw [widen, if_pos ⟨inInt32_sq (by omega) (by omega), inInt32_sq (by omega) (by omega), hsum,
    inInt32_sq (by omega) (by omega)⟩]
  by_cases hpos : dx ≤ half rad dy
  · rw [if_pos (hin.mpr ⟨by omega, hpos⟩)]
    exact widen_eq hrad h1 h2 (by omega) (by omega)
  · rw [if_neg fun hle => hpos (hin.mp hle).2]
    congr 1
    omega
termination_by (half rad dy + 1 - dx).toNat

theorem widen_error (hrad : 46341 ≤ rad) (dy dx : ℤ) : widen rad dy dx = .error .overflow := by
  rw [widen, if_neg]
  rintro ⟨-, -, -, -, hsq⟩
  nlinarith

/-- The largest radius whose square fits: the row through the middle counts one step too far. -/
theorem widen_error_middle {dx : ℤ} (h0 : 0 ≤ dx) (hdx : dx ≤ 46341) :
    widen 46340 0 dx = .error .overflow := by
  rw [widen]
  split
  case isFalse => rfl
  case isTrue h =>
    have hlt : dx ≤ 46340 := by
      by_contra hno
      have heq : dx = 46341 := by omega
      rw [heq] at h
      exact absurd h.1.2 (by decide)
    rw [if_pos (by nlinarith)]
    exact widen_error_middle (by omega) (by omega)
termination_by (46341 - dx).toNat

/-! ## Rows -/

/-- Nothing overflows. -/
structure Defined (x0 y0 rad : ℤ) : Prop where
  radius : rad ≤ 46339
  left : -2 ^ 31 ≤ x0 - rad
  top : -2 ^ 31 ≤ y0 - rad
  bottom : y0 + rad < 2 ^ 31

/-- The row that is filled at height `dy`. -/
def fillRow (s : Screen) (x0 y0 rad : ℤ) (col : UInt32) (dy : ℤ) : List Write :=
  fbFillrect s (.ofInt (x0 - half rad dy)) (.ofInt (y0 + dy)) (.ofInt (2 * half rad dy + 1)) 1 col

theorem int32_ok {z : ℤ} (h1 : -2 ^ 31 ≤ z) (h2 : z < 2 ^ 31) : int32 z = .ok z := if_pos ⟨h1, h2⟩

theorem circleRow_eq (hdef : Defined x0 y0 rad) (hx : x0 < 2 ^ 31) (h1 : -rad ≤ dy) (h2 : dy ≤ rad) :
    circleRow s x0 y0 rad col dy = .ok (fillRow s x0 y0 rad col dy) := by
  have hhalf := half_le h1 h2
  have hleft := hdef.left
  have htop := hdef.top
  have hbottom := hdef.bottom
  have hradius := hdef.radius
  have hback : (half rad dy : ℤ) + 1 - 1 = half rad dy := add_sub_cancel_right _ _
  rw [circleRow, widen_eq hdef.radius h1 h2 le_rfl (by omega)]
  show (if 0 ≤ (half rad dy : ℤ) + 1 - 1 then _ else _) = _
  rw [hback, if_pos (by omega), int32_ok (by omega) (by omega), int32_ok (by omega) (by omega),
    int32_ok (by omega) (by omega)]
  rfl

theorem circleRow_error (h0 : 0 ≤ rad) (hdef : ¬Defined x0 y0 rad) :
    ∃ dy, -rad ≤ dy ∧ dy ≤ rad ∧ circleRow s x0 y0 rad col dy = .error .overflow := by
  by_cases hbig : 46341 ≤ rad
  · exact ⟨0, by omega, h0, by rw [circleRow, widen_error hbig]; rfl⟩
  by_cases hedge : rad = 46340
  · exact ⟨0, by omega, h0, by rw [circleRow, hedge, widen_error_middle le_rfl (by omega)]; rfl⟩
  have hrad : rad ≤ 46339 := by omega
  have hfail : ∀ dy, -rad ≤ dy → dy ≤ rad →
      ¬(InInt32 (x0 - half rad dy) ∧ InInt32 (y0 + dy)) →
      circleRow s x0 y0 rad col dy = .error .overflow := by
    intro dy h1 h2 hno
    have hback : (half rad dy : ℤ) + 1 - 1 = half rad dy := add_sub_cancel_right _ _
    rw [circleRow, widen_eq hrad h1 h2 le_rfl (by omega)]
    show (if 0 ≤ (half rad dy : ℤ) + 1 - 1 then _ else _) = _
    rw [hback, if_pos (by omega)]
    by_cases hxin : InInt32 (x0 - half rad dy)
    · rw [int32, if_pos hxin, int32, if_neg fun hyin => hno ⟨hxin, hyin⟩]
      rfl
    · rw [int32, if_neg hxin]
      rfl
  by_cases hleft : -2 ^ 31 ≤ x0 - rad
  · by_cases htop : -2 ^ 31 ≤ y0 - rad
    · by_cases hbottom : y0 + rad < 2 ^ 31
      · exact absurd ⟨hrad, hleft, htop, hbottom⟩ hdef
      · exact ⟨rad, by omega, le_rfl, hfail rad (by omega) le_rfl fun h => hbottom h.2.2⟩
    · exact ⟨-rad, le_rfl, by omega, hfail (-rad) le_rfl (by omega) fun h => htop h.2.1⟩
  · refine ⟨0, by omega, h0, hfail 0 (by omega) h0 fun h => hleft ?_⟩
    rw [half_zero h0] at h
    exact h.1.1

/-! ## The whole circle -/

theorem mapM_ok {ε α β : Type} {f : α → Except ε β} {g : α → β} {l : List α}
    (h : ∀ a ∈ l, f a = .ok (g a)) : l.mapM f = .ok (l.map g) := by
  induction l with
  | nil => rfl
  | cons a l ih =>
    rw [List.mapM_cons, h a List.mem_cons_self, ih fun b hb => h b (List.mem_cons_of_mem _ hb)]
    rfl

theorem mapM_error {ε α β : Type} {f : α → Except ε β} {l : List α} {a : α} (ha : a ∈ l) {e : ε}
    (hf : f a = .error e) : ∃ e', l.mapM f = .error e' := by
  induction l with
  | nil => cases ha
  | cons b l ih =>
    rw [List.mapM_cons]
    cases hb : f b with
    | error e' => exact ⟨e', rfl⟩
    | ok v =>
      obtain rfl | hmem := List.mem_cons.mp ha
      · rw [hf] at hb
        cases hb
      · obtain ⟨e', he'⟩ := ih hmem
        exact ⟨e', by rw [he']; rfl⟩

theorem grfillcircle_eq {cx cy r c : UInt64} (h0 : 0 ≤ toInt32 r)
    (hdef : Defined (toInt32 cx) (toInt32 cy) (toInt32 r)) :
    hcBuiltinGrfillcircle s cx cy r c = .ok (sweep
      (fillRow s (toInt32 cx) (toInt32 cy) (toInt32 r) c.toUInt32) (-toInt32 r)
      (2 * (toInt32 r).toNat + 1)) := by
  have hx : toInt32 cx < 2 ^ 31 := Int32.toInt_lt _
  have hrows := mapM_ok (f := fun i : ℕ => circleRow s (toInt32 cx) (toInt32 cy) (toInt32 r)
      c.toUInt32 (-toInt32 r + i)) (l := List.range (2 * (toInt32 r).toNat + 1))
    fun i hi => by
      have hi' := List.mem_range.mp hi
      exact circleRow_eq hdef hx (by omega) (by omega)
  rw [hcBuiltinGrfillcircle, if_neg (by omega), hrows]
  rfl

theorem grfillcircle_error {cx cy r c : UInt64} (h0 : 0 ≤ toInt32 r)
    (hdef : ¬Defined (toInt32 cx) (toInt32 cy) (toInt32 r)) :
    ∃ e, hcBuiltinGrfillcircle s cx cy r c = .error e := by
  obtain ⟨dy, h1, h2, herr⟩ := @circleRow_error s _ _ _ c.toUInt32 h0 hdef
  obtain ⟨e, he⟩ := mapM_error (f := fun i : ℕ => circleRow s (toInt32 cx) (toInt32 cy) (toInt32 r)
      c.toUInt32 (-toInt32 r + i)) (l := List.range (2 * (toInt32 r).toNat + 1))
      (a := (dy + toInt32 r).toNat) (List.mem_range.mpr (by omega)) (e := .overflow)
      (by rw [← herr]; congr 1; omega)
  refine ⟨e, ?_⟩
  rw [hcBuiltinGrfillcircle, if_neg (by omega), he]
  rfl

/-! ## Discs -/

/-- The pixels of the disc in row `v`. -/
def discRow (s : Screen) (x0 y0 rad : ℤ) (col : UInt32) (v : ℤ) : List Write :=
  sweep (fun u => if (u - x0) ^ 2 + (v - y0) ^ 2 ≤ rad ^ 2 then pixelAt s col u v else []) 0 s.w

theorem plotDisc_eq (s : Screen) (x0 y0 rad : ℤ) (col : UInt32) :
    plotDisc s x0 y0 rad col = sweep (discRow s x0 y0 rad col) 0 s.h := by
  refine List.flatMap_congr fun y _ => List.flatMap_congr fun x _ => ?_
  show _ = if ((0 + x : ℤ) - x0) ^ 2 + ((0 + y : ℤ) - y0) ^ 2 ≤ rad ^ 2 then
    pixelAt s col (0 + x) (0 + y) else []
  rw [zero_add, zero_add, pixelAt_natCast]

theorem mem_cells_plotDisc : k ∈ cells (plotDisc s x0 y0 rad col) ↔ ∃ x y : ℕ,
    (x - x0) ^ 2 + (y - y0) ^ 2 ≤ rad ^ 2 ∧ k ∈ cells (pixel s col x y) := by
  simp only [plotDisc, cells, List.map_flatMap, List.mem_flatMap, List.mem_range]
  constructor
  · rintro ⟨y, -, x, -, hk⟩
    split at hk
    case isTrue h => exact ⟨x, y, h, hk⟩
    case isFalse => cases hk
  · rintro ⟨x, y, h, hk⟩
    obtain ⟨⟨-, hx, hy⟩, -⟩ := mem_cells_pixel.mp hk
    exact ⟨y, hy, x, hx, by rwa [if_pos h]⟩

/-- A row of the disc is a run of pixels. -/
theorem discRow_eq (h1 : -rad ≤ dy) (h2 : dy ≤ rad) : discRow s x0 y0 rad col (y0 + dy) =
    sweep (fun u => pixelAt s col u (y0 + dy)) (x0 - half rad dy) (2 * half rad dy + 1) := by
  have hin : ∀ u, (u - x0) ^ 2 + (y0 + dy - y0) ^ 2 ≤ rad ^ 2 ↔
      -(half rad dy : ℤ) ≤ u - x0 ∧ u - x0 ≤ half rad dy := fun u => by
    rw [add_sub_cancel_left]
    exact inside_iff h1 h2 _
  have hrun : sweep (fun u => pixelAt s col u (y0 + dy)) (x0 - half rad dy) (2 * half rad dy + 1) =
      sweep (fun u => if (u - x0) ^ 2 + (y0 + dy - y0) ^ 2 ≤ rad ^ 2 then pixelAt s col u (y0 + dy)
        else []) (x0 - half rad dy) (2 * half rad dy + 1) :=
    sweep_congr fun u hu1 hu2 => (if_pos ((hin u).mpr (by omega))).symm
  rw [hrun]
  refine sweep_eq_of_support fun u hu => ?_
  split at hu
  case isFalse => exact absurd rfl hu
  case isTrue hdisc =>
    have hscreen := (pixelAt_ne_nil hu).2.1
    have hrow := (hin u).mp hdisc
    omega

theorem discRow_eq_nil {v : ℤ} (h : ¬(y0 - rad ≤ v ∧ v ≤ y0 + rad)) (h0 : 0 ≤ rad) :
    discRow s x0 y0 rad col v = [] := by
  refine sweep_eq_nil fun u _ _ => if_neg fun hin => h ?_
  have hsq : (v - y0) ^ 2 ≤ rad ^ 2 := by nlinarith [sq_nonneg (u - x0)]
  have habs := abs_le_of_sq_le_sq' hsq h0
  omega

/-! ## When the rows are the disc -/

/-- A row is filled as it should be: if its corner, taken as an unsigned number, is on the
screen, then it is the true corner and there is no overlay, and a row that is to be seen does
not begin left of the screen. -/
structure RowExact (s : Screen) (x0 y0 rad dy : ℤ) : Prop where
  painted : (x0 - half rad dy) % 2 ^ 32 < s.w → (y0 + dy) % 2 ^ 32 < s.h →
    s.overlaid = false ∧ 0 ≤ x0 - half rad dy ∧ 0 ≤ y0 + dy
  seen : 0 ≤ y0 + dy → y0 + dy < s.h → 0 < s.w → 0 ≤ x0 + half rad dy → 0 ≤ x0 - half rad dy

/-- When filling a circle paints the disc. -/
def CircleExact (s : Screen) (x0 y0 rad : ℤ) : Prop :=
  Defined x0 y0 rad ∧ (s.shows → ∀ dy, -rad ≤ dy → dy ≤ rad → RowExact s x0 y0 rad dy)

theorem toNat_ofInt (z : ℤ) : ((UInt32.ofInt z).toNat : ℤ) = z % 2 ^ 32 := by
  have h1 : 0 ≤ z % 2 ^ 32 := Int.emod_nonneg _ (by decide)
  have h2 : z % 2 ^ 32 < 2 ^ 32 := Int.emod_lt_of_pos _ (by decide)
  rw [UInt32.ofInt, toNat_ofNat (by omega), Int.toNat_of_nonneg h1]

/-- The corner of a row is on the screen, as far as `fb_fillrect` can tell. -/
theorem visible_row (hrad : rad ≤ 46339) (h1 : -rad ≤ dy) (h2 : dy ≤ rad) :
    Visible s (.ofInt (x0 - half rad dy)) (.ofInt (y0 + dy)) (.ofInt (2 * half rad dy + 1)) 1 ↔
      s.shows ∧ (x0 - half rad dy) % 2 ^ 32 < s.w ∧ (y0 + dy) % 2 ^ 32 < s.h := by
  have hhalf := half_le h1 h2
  have hx := toNat_ofInt (x0 - half rad dy)
  have hy := toNat_ofInt (y0 + dy)
  have hn := toNat_ofInt (2 * half rad dy + 1)
  constructor
  · rintro ⟨hs, -, -, hleft, htop⟩
    exact ⟨hs, by omega, by omega⟩
  · rintro ⟨hs, hleft, htop⟩
    exact ⟨hs, by omega, by decide, by omega, by omega⟩

/-- A row whose corner does not wrap is filled with its pixels. -/
theorem fillRow_of_corner (hx : x0 < 2 ^ 31) (hbottom : y0 + rad < 2 ^ 31)
    (h1 : -rad ≤ dy) (h2 : dy ≤ rad) (hover : s.overlaid = false) (hleft : 0 ≤ x0 - half rad dy)
    (htop : 0 ≤ y0 + dy) :
    fillRow s x0 y0 rad col dy = discRow s x0 y0 rad col (y0 + dy) := by
  have hhalf := half_le h1 h2
  have hxn := toNat_ofInt (x0 - half rad dy)
  have hyn := toNat_ofInt (y0 + dy)
  have hnn := toNat_ofInt (2 * half rad dy + 1)
  rw [Int.emod_eq_of_lt (by omega) (by omega)] at hxn hyn hnn
  have hone : (1 : UInt32).toNat = 1 := rfl
  rw [fillRow, fillrect_exact, plotRect_eq_block, block, hone, sweep_one, hxn, hyn,
    discRow_eq h1 h2]
  · congr 1
    omega
  · refine fun _ => ⟨hover, ?_⟩
    split <;> omega

theorem fillRow_eq (hdef : Defined x0 y0 rad) (hx : x0 < 2 ^ 31) (h1 : -rad ≤ dy) (h2 : dy ≤ rad)
    (hrow : s.shows → RowExact s x0 y0 rad dy) :
    fillRow s x0 y0 rad col dy = discRow s x0 y0 rad col (y0 + dy) := by
  by_cases hv : s.shows ∧ (x0 - half rad dy) % 2 ^ 32 < s.w ∧ (y0 + dy) % 2 ^ 32 < s.h
  · obtain ⟨hover, hleft, htop⟩ := (hrow hv.1).painted hv.2.1 hv.2.2
    exact fillRow_of_corner hx hdef.bottom h1 h2 hover hleft htop
  · rw [fillRow, fbFillrect_eq_nil fun hvis => hv ((visible_row hdef.radius h1 h2).mp hvis),
      discRow_eq h1 h2]
    symm
    refine sweep_eq_nil fun u hu1 hu2 => by_contra fun hne => hv ?_
    obtain ⟨hs, hcol, hscreen⟩ := pixelAt_ne_nil hne
    have hleft := (hrow hs).seen hscreen.1 hscreen.2 (by omega) (by omega)
    refine ⟨hs, ?_, ?_⟩
    · rw [Int.emod_eq_of_lt hleft (by omega)]
      omega
    · rw [Int.emod_eq_of_lt hscreen.1 (by have := s.h_lt; omega)]
      exact hscreen.2

theorem rows_eq_plotDisc (h0 : 0 ≤ rad)
    (hrows : ∀ dy, -rad ≤ dy → dy ≤ rad →
      fillRow s x0 y0 rad col dy = discRow s x0 y0 rad col (y0 + dy)) :
    sweep (fillRow s x0 y0 rad col) (-rad) (2 * rad.toNat + 1) = plotDisc s x0 y0 rad col := by
  rw [plotDisc_eq, sweep_congr fun z h1 h2 => hrows z h1 (by push_cast at h2; omega),
    sweep_shift]
  refine sweep_eq_of_support fun v hv => ?_
  have hin : y0 - rad ≤ v ∧ v ≤ y0 + rad := by
    by_contra hno
    exact hv (discRow_eq_nil hno h0)
  have hscreen : 0 ≤ v ∧ v < s.h := by
    by_contra hno
    refine hv (sweep_eq_nil fun u _ _ => ?_)
    split
    case isFalse => rfl
    case isTrue => exact by_contra fun hne => hno (pixelAt_ne_nil hne).2.2
  omega

/-! ## Where they are not -/

/-- Filling paints its corner. -/
theorem anchor_mem_fill {x y w h bgr : UInt32} (hv : Visible s x y w h) :
    anchor s x.toNat y.toNat ∈ cells (fbFillrect s x y w h bgr) := by
  have hx := clip_pos hv.left s.w_lt hv.wide
  have hy := clip_pos hv.top s.h_lt hv.high
  by_cases hfast : s.fast
  · have hmem := @anchor_mem_fast s x y w h bgr hfast hv 0 0 hy hx
    rwa [add_zero, toNat_add_ofNat (by have := y.toNat_lt; omega), add_zero] at hmem
  · obtain ⟨hr, hpxb⟩ : s.render = none ∧ s.pxb ≠ 4 := by simpa [Screen.fast] using hfast
    rw [fbFillrect_of_visible hv, hr]
    simp only [hpxb, if_false]
    refine mem_cells_fillPixels.mpr ⟨0, hy, 0, hx, ?_⟩
    rw [toNat_add_ofNat (by have := x.toNat_lt; omega), toNat_add_ofNat (by have := y.toNat_lt; omega)]
    exact anchor_mem hv.shows hv.left hv.top

/-- Under an overlay filling reaches the indexed surface alone. -/
theorem plane_of_mem_fill {x y w h bgr : UInt32} (hover : s.overlaid)
    (hk : k ∈ cells (fbFillrect s x y w h bgr)) : k.1 = .surface := by
  by_cases hv : Visible s x y w h
  case neg => rw [fbFillrect_eq_nil hv] at hk; cases hk
  rw [fbFillrect_of_visible hv] at hk
  cases hr : s.render with
  | none => simp [Screen.overlaid, hr] at hover
  | some t =>
    simp only [hr] at hk
    exact plane_of_mem_fillSurface hk

/-- Rows that paint the disc's bytes are filled as they should be. -/
theorem rowExact_of_cells (hdef : Defined x0 y0 rad) (hx0 : -2 ^ 31 ≤ x0) (hx : x0 < 2 ^ 31)
    (hs : s.shows)
    (heq : ∀ k, k ∈ cells (sweep (fillRow s x0 y0 rad col) (-rad) (2 * rad.toNat + 1)) ↔
      k ∈ cells (plotDisc s x0 y0 rad col)) (h1 : -rad ≤ dy) (h2 : dy ≤ rad) :
    RowExact s x0 y0 rad dy := by
  have hmem : ∀ k, (∃ z, -rad ≤ z ∧ z ≤ rad ∧ k ∈ cells (fillRow s x0 y0 rad col z)) ↔
      k ∈ cells (plotDisc s x0 y0 rad col) := by
    intro k
    rw [← heq, cells_sweep, mem_sweep]
    refine exists_congr fun z => and_congr_right fun _ => and_congr_left fun _ => ?_
    push_cast
    omega
  have hradius := hdef.radius
  have htop := hdef.top
  have hbottom := hdef.bottom
  -- what is painted is in the disc
  have hpainted : ∀ z, -rad ≤ z → z ≤ rad → (x0 - half rad z) % 2 ^ 32 < s.w →
      (y0 + z) % 2 ^ 32 < s.h → s.overlaid = false ∧ 0 ≤ x0 - half rad z ∧ 0 ≤ y0 + z := by
    intro z hz1 hz2 hX hY
    have hhalf := half_le hz1 hz2
    have hxn := toNat_ofInt (x0 - half rad z)
    have hyn := toNat_ofInt (y0 + z)
    have hv := (visible_row hradius hz1 hz2).mpr ⟨hs, hX, hY⟩
    have hcorner := (hmem _).mp ⟨z, hz1, hz2, anchor_mem_fill hv⟩
    obtain ⟨x, y, hdisc, hk⟩ := mem_cells_plotDisc.mp hcorner
    obtain ⟨rfl, rfl⟩ := pixel_unique (@anchor_mem s col _ _ hs hv.left hv.top) hk
    have h0 : 0 ≤ rad := by omega
    have hxabs := abs_le_of_sq_le_sq' (a := ((UInt32.ofInt (x0 - half rad z)).toNat : ℤ) - x0)
      (b := rad) (by nlinarith [sq_nonneg (((UInt32.ofInt (y0 + z)).toNat : ℤ) - y0)]) h0
    have hyabs := abs_le_of_sq_le_sq' (a := ((UInt32.ofInt (y0 + z)).toNat : ℤ) - y0)
      (b := rad) (by nlinarith [sq_nonneg (((UInt32.ofInt (x0 - half rad z)).toNat : ℤ) - x0)]) h0
    refine ⟨?_, by omega, by omega⟩
    by_contra hover
    rw [Bool.not_eq_false] at hover
    obtain ⟨z', -, -, hz'⟩ := (hmem _).mpr (mem_cells_plotDisc.mpr ⟨_, _, hdisc,
      overlay_mem (Bool.and_eq_true_iff.mp hs).1 hover hv.left hv.top⟩)
    have hplane : Plane.rgba = .surface := plane_of_mem_fill hover hz'
    exact absurd hplane (by decide)
  refine ⟨hpainted dy h1 h2, fun hy1 hy2 hw hx2 => ?_⟩
  -- the first pixel of the row that is on the screen has to be painted
  by_contra hneg
  have hdisc : (((0 : ℕ) : ℤ) - x0) ^ 2 + (((y0 + dy).toNat : ℤ) - y0) ^ 2 ≤ rad ^ 2 := by
    rw [Int.toNat_of_nonneg hy1, add_sub_cancel_left]
    exact (inside_iff h1 h2 _).mpr (by push_cast; omega)
  have hanchor := @anchor_mem s col 0 (y0 + dy).toNat hs hw (by omega)
  obtain ⟨z, hz1, hz2, hz⟩ := (hmem _).mpr (mem_cells_plotDisc.mpr ⟨_, _, hdisc, hanchor⟩)
  have hv : Visible s (.ofInt (x0 - half rad z)) (.ofInt (y0 + z)) (.ofInt (2 * half rad z + 1)) 1 := by
    by_contra hv
    rw [fillRow, fbFillrect_eq_nil hv] at hz
    cases hz
  obtain ⟨-, hX, hY⟩ := (visible_row hradius hz1 hz2).mp hv
  obtain ⟨hover, hleft, htop'⟩ := hpainted z hz1 hz2 hX hY
  rw [fillRow_of_corner hx hbottom hz1 hz2 hover hleft htop', discRow_eq hz1 hz2, cells_sweep,
    mem_sweep] at hz
  obtain ⟨u, hu1, hu2, hu⟩ := hz
  rw [pixelAt, if_pos (by omega)] at hu
  obtain ⟨hcol, hrow⟩ := pixel_unique hanchor hu
  have hzdy : z = dy := by omega
  subst hzdy
  omega

/-- **Filling a circle paints the disc** exactly when no row wraps, none that is to be seen
begins left of the screen, there is no overlay and nothing overflows. -/
theorem grfillcircle_eq_plotDisc_iff (s : Screen) (cx cy r c : UInt64) (h0 : 0 ≤ toInt32 r) :
    (∃ ws, hcBuiltinGrfillcircle s cx cy r c = .ok ws ∧ ∀ m, draw ws m =
      draw (plotDisc s (toInt32 cx) (toInt32 cy) (toInt32 r) c.toUInt32) m) ↔
      CircleExact s (toInt32 cx) (toInt32 cy) (toInt32 r) := by
  have hx0 : -2 ^ 31 ≤ toInt32 cx := Int32.le_toInt _
  have hx : toInt32 cx < 2 ^ 31 := Int32.toInt_lt _
  constructor
  · rintro ⟨ws, hok, heq⟩
    have hdef : Defined (toInt32 cx) (toInt32 cy) (toInt32 r) := by
      by_contra hdef
      obtain ⟨e, he⟩ := @grfillcircle_error s cx cy r c h0 hdef
      rw [he] at hok
      cases hok
    rw [grfillcircle_eq h0 hdef] at hok
    cases hok
    exact ⟨hdef, fun hs dy h1 h2 => rowExact_of_cells hdef hx0 hx hs (cells_of_draw_eq heq) h1 h2⟩
  · rintro ⟨hdef, hrows⟩
    refine ⟨_, grfillcircle_eq h0 hdef, fun m => ?_⟩
    rw [rows_eq_plotDisc h0 fun dy h1 h2 => fillRow_eq hdef hx h1 h2 fun hs => hrows hs dy h1 h2]

/-- **Fast fills.** -/
theorem fast_fills_exact_iff (s : Screen) :
    (∀ x0 y0 w h bgr, (∀ m, draw (fbFillrect s x0 y0 w h bgr) m =
      draw (plotRect s x0 y0 w h bgr) m) ↔ FillExact s x0 y0 w h) ∧
    ∀ cx cy r c, 0 ≤ toInt32 r → ((∃ ws, hcBuiltinGrfillcircle s cx cy r c = .ok ws ∧
      ∀ m, draw ws m = draw (plotDisc s (toInt32 cx) (toInt32 cy) (toInt32 r) c.toUInt32) m) ↔
      CircleExact s (toInt32 cx) (toInt32 cy) (toInt32 r)) :=
  ⟨fillrect_eq_plotRect_iff s, grfillcircle_eq_plotDisc_iff s⟩

/-- A framebuffer of two by two pixels, drawn to directly. -/
def small : Screen where
  fb := true
  w := 2
  h := 2
  pitch := 8
  bpp := 32
  palette _ := 0
  render := none
  w_lt := by decide
  h_lt := by decide
  row_fits := by decide
  surface_fits := by simp

/-- The same with a frame on a surface of its size, under an overlay. -/
def smallOverlay : Screen where
  __ := small
  render := some ⟨2, 2, true, true⟩
  surface_fits := by simp [small]

/-- A circle of radius 1 around the corner of the screen loses its middle row, and a filled
pixel is missing from the overlay. -/
theorem fast_fills_differ :
    (¬∃ ws, hcBuiltinGrfillcircle small 0 0 1 0xffffff = .ok ws ∧
      ∀ m, draw ws m = draw (plotDisc small 0 0 1 0xffffff) m) ∧
    ¬∀ m, draw (fbFillrect smallOverlay 0 0 1 1 0xffffff) m =
      draw (plotRect smallOverlay 0 0 1 1 0xffffff) m := by
  constructor
  · rintro ⟨ws, hok, heq⟩
    have hdef : Defined (toInt32 0) (toInt32 0) (toInt32 1) :=
      ⟨by decide, by decide, by decide, by decide⟩
    rw [grfillcircle_eq (by decide) hdef] at hok
    cases hok
    have hcell := congrFun (heq fun _ => 0) (.fb, 0)
    exact absurd hcell (by decide +kernel)
  · intro heq
    have hcell := congrFun (heq fun _ => 0) (.rgba, 0)
    exact absurd hcell (by decide +kernel)

theorem fast_fills_exact_small :
    0 ≤ toInt32 1 ∧ ((∃ ws, hcBuiltinGrfillcircle small 1 1 1 0xffffff = .ok ws ∧
      ∀ m, draw ws m = draw (plotDisc small (toInt32 1) (toInt32 1) (toInt32 1) 0xffffff) m) ↔
      CircleExact small (toInt32 1) (toInt32 1) (toInt32 1)) :=
  ⟨by decide, (fast_fills_exact_iff small).2 1 1 1 0xffffff (by decide)⟩

end ZealBringup.Fb
