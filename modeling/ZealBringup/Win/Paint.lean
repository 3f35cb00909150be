import ZealBringup.Win.ZBuffer

/-!
# Painting one window

The cells of a window are those of its rectangle on the screen, whatever its edges are.  The
pixels are multiplied out of edges that were brought on the screen from one side only: an edge
from `2 ^ 60` on may wrap to a pixel of the screen while the window has no cell there.

* `Counted.paint` — painting one cell keeps every count at the number of cells of its window.
* `Rect.Within.indices` — the loops over a rectangle on the plane stay inside its table.
* `paintWindow_spec` — a window gets the cells of its rectangle and the pixels between its
  wrapped edges.
-/

namespace ZealBringup.Win

open Painter Sweep

variable {p : Planes} {buf cells : ℕ → ℕ} {z i : ℕ}

/-! ## One cell -/

theorem slot_eq {n : ℕ} {i : ℤ} (h0 : 0 ≤ i) (h : i < n) : slot n i = some i.toNat :=
  if_pos ⟨h0, h⟩

theorem slot_cast {n i : ℕ} (h : i < n) : slot n i = some i := by
  rw [slot_eq (by omega) (by omega), Int.toNat_natCast]

/-- The count of a window is at the place before its number. -/
theorem slot_count (hz : 0 < z) (hmax : z ≤ BOOTSTRAP_WIN_MAX) :
    slot BOOTSTRAP_WIN_MAX ((z : ℤ) - 1) = some (z - 1) := by
  rw [← slot_cast (show z - 1 < BOOTSTRAP_WIN_MAX by omega)]
  exact congrArg _ (by omega)

/-- Each count is the number of cells of its window. -/
structure Counted (buf cells : ℕ → ℕ) : Prop where
  bound : ∀ i < TEXT_COLS * TEXT_ROWS, buf i ≤ BOOTSTRAP_WIN_MAX
  count : ∀ z, 0 < z → z ≤ BOOTSTRAP_WIN_MAX →
    cells (z - 1) = census (TEXT_COLS * TEXT_ROWS) buf z

/-- The old owner of a cell loses one. -/
theorem Counted.drop (h : Counted buf cells) (hi : i < TEXT_COLS * TEXT_ROWS) :
    ∃ cells', dropCell (buf i) cells = some cells' ∧ ∀ v, 0 < v → v ≤ BOOTSTRAP_WIN_MAX →
      cells' (v - 1) + (if buf i = v then 1 else 0) =
        census (TEXT_COLS * TEXT_ROWS) buf v := by
  have hbound := h.bound i hi
  by_cases hold : buf i = 0
  · refine ⟨cells, if_neg fun hne => hne.1 hold, fun v hv hv' => ?_⟩
    rw [if_neg (by omega), h.count v hv hv', Nat.add_zero]
  · have hpos := Nat.pos_of_ne_zero hold
    have hown := h.count _ hpos hbound
    -- The guard of the decrement is true: the cell itself is counted.
    have hcount : cells (buf i - 1) ≠ 0 := by
      rw [hown]
      exact (census_pos_iff.mpr ⟨i, hi, rfl⟩).ne'
    refine ⟨Function.update cells (buf i - 1) (cells (buf i - 1) - 1), ?_, fun v hv hv' => ?_⟩
    · rw [dropCell, if_pos ⟨hold, hbound⟩, slot_count hpos hbound]
      exact congrArg some (if_pos hcount)
    · by_cases hv0 : buf i = v
      · subst hv0
        rw [Function.update_self, if_pos rfl, ← hown]
        omega
      · rw [Function.update_of_ne (by omega), if_neg hv0, h.count v hv hv', Nat.add_zero]

/-- **Painting one cell keeps the counts exact**: one is taken from the old owner of the cell
and given to the new one. -/
theorem Counted.paint (h : Counted p.winZBuf p.uncoveredCells) (hz : 0 < z)
    (hmax : z ≤ BOOTSTRAP_WIN_MAX) (hi : i < TEXT_COLS * TEXT_ROWS) :
    ∃ cells, paintCell z p i = some { p with
        winZBuf := Function.update p.winZBuf i z
        uncoveredCells := cells } ∧ Counted (Function.update p.winZBuf i z) cells := by
  obtain ⟨cells, hdrop, hdown⟩ := h.drop hi
  refine ⟨Function.update cells (z - 1) ((cells (z - 1) + 1) % 2 ^ 32), ?_, fun j hj => ?_,
    fun v hv hv' => ?_⟩
  · rw [paintCell, slot_cast hi, Option.bind_eq_bind, Option.bind_some, hdrop,
      Option.bind_eq_bind, Option.bind_some, slot_count hz hmax]
    rfl
  · rcases eq_or_ne j i with rfl | hne
    · rwa [Function.update_self]
    · rw [Function.update_of_ne hne]
      exact h.bound j hj
  · have hmove := census_update (f := p.winZBuf) (w := z) (v := v) hi
    have hlow := hdown v hv hv'
    rcases eq_or_ne v z with rfl | hne
    · have hle : census (TEXT_COLS * TEXT_ROWS) p.winZBuf v ≤ TEXT_COLS * TEXT_ROWS := census_le
      have hsize : TEXT_COLS * TEXT_ROWS < 2 ^ 32 - 1 := by decide
      rw [if_pos rfl] at hmove
      rw [Function.update_self, Nat.mod_eq_of_lt (by omega)]
      omega
    · rw [if_neg hne.symm] at hmove
      rw [Function.update_of_ne (by omega)]
      omega

/-! ## Lists of cells and pixels -/

/-- A place is painted by the first of the writes or by one of the others. -/
theorem paint_cons (f : ℕ → ℕ) (a : ℕ) (l : List ℤ) :
    (if (i : ℤ) ∈ l then z else Function.update f a z i) =
      if (i : ℤ) ∈ (a : ℤ) :: l then z else f i := by
  by_cases hi : (i : ℤ) ∈ l
  · rw [if_pos hi, if_pos (List.mem_cons_of_mem _ hi)]
  · rw [if_neg hi, Function.update_apply]
    refine if_congr ?_ rfl rfl
    rw [List.mem_cons, Int.ofNat_inj]
    exact (or_iff_left hi).symm

/-- **Painting a list of cells gives them to the window and keeps the counts exact.** -/
theorem paintCells (hz : 0 < z) (hmax : z ≤ BOOTSTRAP_WIN_MAX) (l : List ℤ)
    (hl : ∀ i ∈ l, 0 ≤ i ∧ i < (TEXT_COLS * TEXT_ROWS : ℕ))
    (h : Counted p.winZBuf p.uncoveredCells) :
    ∃ buf cells, l.foldlM (paintCell z) p = some { p with
        winZBuf := buf
        uncoveredCells := cells } ∧ Counted buf cells ∧
      ∀ i : ℕ, buf i = if (i : ℤ) ∈ l then z else p.winZBuf i := by
  induction l generalizing p with
  | nil => exact ⟨p.winZBuf, p.uncoveredCells, rfl, h, fun i => rfl⟩
  | cons a l ih =>
    obtain ⟨h0, hlt⟩ := hl a List.mem_cons_self
    lift a to ℕ using h0
    obtain ⟨cells, hpaint, hcounted⟩ := h.paint hz hmax (Int.ofNat_lt.mp hlt)
    obtain ⟨buf, cells', hrest, hcounted', hbuf⟩ :=
      @ih { p with winZBuf := Function.update p.winZBuf a z, uncoveredCells := cells }
        (fun i hi => hl i (List.mem_cons_of_mem _ hi)) hcounted
    refine ⟨buf, cells', ?_, hcounted', fun i => (hbuf i).trans (paint_cons _ a l)⟩
    rw [List.foldlM_cons, hpaint]
    exact hrest

/-- Painting a list of pixels gives them to the window. -/
theorem paintPixels (l : List ℤ) (hl : ∀ i ∈ l, 0 ≤ i ∧ i < (800 * 600 : ℕ)) :
    ∃ buf, l.foldlM (paintPixel z) p = some { p with pixelZBuf := buf } ∧
      ∀ i : ℕ, buf i = if (i : ℤ) ∈ l then z else p.pixelZBuf i := by
  induction l generalizing p with
  | nil => exact ⟨p.pixelZBuf, rfl, fun i => rfl⟩
  | cons a l ih =>
    obtain ⟨h0, hlt⟩ := hl a List.mem_cons_self
    lift a to ℕ using h0
    obtain ⟨buf, hrest, hbuf⟩ := @ih { p with pixelZBuf := Function.update p.pixelZBuf a z }
      fun i hi => hl i (List.mem_cons_of_mem _ hi)
    refine ⟨buf, ?_, fun i => (hbuf i).trans (paint_cons _ a l)⟩
    rw [List.foldlM_cons, paintPixel, slot_cast (Int.ofNat_lt.mp hlt)]
    exact hrest

/-! ## Rectangles -/

def Rect.Has (r : Rect) (x y : ℤ) : Prop := (r.left ≤ x ∧ x ≤ r.right) ∧ r.top ≤ y ∧ y ≤ r.bottom

/-- No edge of the rectangle leads off a plane of this size. -/
structure Rect.Within (r : Rect) (cols rows : ℕ) : Prop where
  left : 0 ≤ r.left
  right : r.right < cols
  top : 0 ≤ r.top
  bottom : r.bottom < rows

theorem Rect.mem_indices {r : Rect} {cols : ℕ} {n : ℤ} :
    n ∈ r.indices cols ↔ ∃ x y, r.Has x y ∧ n = y * cols + x := by
  simp only [Rect.indices, mem_sweep, List.mem_singleton]
  constructor
  · rintro ⟨y, hy, hy', x, hx, hx', rfl⟩
    exact ⟨x, y, ⟨⟨hx, by omega⟩, hy, by omega⟩, rfl⟩
  · rintro ⟨x, y, ⟨⟨hx, hx'⟩, hy, hy'⟩, rfl⟩
    exact ⟨y, hy, by omega, x, hx, by omega, rfl⟩

/-- **The loops over a rectangle on the plane stay inside its table.** -/
theorem Rect.Within.indices {r : Rect} {cols rows : ℕ} (h : r.Within cols rows) :
    ∀ n ∈ r.indices cols, 0 ≤ n ∧ n < (cols * rows : ℕ) := by
  intro n hn
  obtain ⟨x, y, ⟨⟨hx, hx'⟩, hy, hy'⟩, rfl⟩ := Rect.mem_indices.mp hn
  obtain ⟨hl, hr, ht, hb⟩ := h
  lift x to ℕ using hl.trans hx
  lift y to ℕ using ht.trans hy
  have hlt : y * cols + x < cols * rows := calc
    y * cols + x < y * cols + cols := by omega
    _ = cols * (y + 1) := by ring
    _ ≤ cols * rows := Nat.mul_le_mul_left _ (by omega)
  exact_mod_cast And.intro (Nat.zero_le (y * cols + x)) hlt

/-- An index belongs to one place of the plane only. -/
theorem Rect.Within.mem_indices {r : Rect} {cols rows x y : ℕ} (h : r.Within cols rows)
    (hx : x < cols) : ((y * cols + x : ℕ) : ℤ) ∈ r.indices cols ↔ r.Has x y := by
  rw [Rect.mem_indices]
  constructor
  · rintro ⟨a, b, hab, heq⟩
    obtain ⟨⟨ha, ha'⟩, hb, hb'⟩ := hab
    lift a to ℕ using h.left.trans ha
    lift b to ℕ using h.top.trans hb
    have hlt : a < cols := by
      have hr := h.right
      omega
    have heq' : y * cols + x = b * cols + a := by exact_mod_cast heq
    have hcol : x = a := by
      have hmod := congrArg (· % cols) heq'
      simpa [Nat.mul_add_mod', Nat.mod_eq_of_lt hx, Nat.mod_eq_of_lt hlt] using hmod
    subst hcol
    obtain rfl : y = b := Nat.eq_of_mul_eq_mul_right hx.pos (Nat.add_right_cancel heq')
    exact ⟨⟨ha, ha'⟩, hb, hb'⟩
  · intro hhas
    exact ⟨x, y, hhas, by push_cast; rfl⟩

theorem clipLow_eq (e : ℤ) : clipLow e = max e 0 := by
  rw [clipLow]
  omega

theorem clipHigh_eq (n : ℕ) (e : ℤ) : clipHigh n e = min e (n - 1) := by
  rw [clipHigh]
  omega

theorem CTask.cellRect_within (task : CTask) : task.cellRect.Within TEXT_COLS TEXT_ROWS := by
  simp only [CTask.cellRect, clipLow_eq, clipHigh_eq, TEXT_COLS, TEXT_ROWS]
  constructor <;> dsimp only <;> omega

theorem CTask.cellRect_has (task : CTask) {x y : ℕ} (hx : x < TEXT_COLS) (hy : y < TEXT_ROWS) :
    task.cellRect.Has x y ↔ task.HasCell x y := by
  simp only [CTask.cellRect, Rect.Has, CTask.HasCell, clipLow_eq, clipHigh_eq]
  omega

theorem pixelHigh_eq (font size : ℕ) (e : ℤ) :
    pixelHigh font size e = min ((e * font + (font - 1)).bmod (2 ^ 64)) (size - 1) := by
  rw [pixelHigh, clipHigh_eq]
  simp only [wrapI64, Int.bmod_mul_bmod, Int.bmod_sub_bmod]
  congr 2
  ring

theorem pixelLow_eq (font : ℕ) (e : ℤ) :
    pixelLow font e = max ((e * font).bmod (2 ^ 64)) 0 := by
  rw [pixelLow, clipLow_eq, wrapI64]

theorem Rect.pixelRect_within (r : Rect) : r.pixelRect.Within 800 600 := by
  simp only [Rect.pixelRect, pixelLow_eq, pixelHigh_eq]
  constructor <;> dsimp only <;> omega

theorem CTask.pixelRect_has (task : CTask) {px py : ℕ} (hx : px < 800) (hy : py < 600) :
    task.cellRect.pixelRect.Has px py ↔ task.ReachesPixel px py := by
  simp only [Rect.pixelRect, CTask.cellRect, Rect.Has, CTask.ReachesPixel, pixelLow_eq,
    pixelHigh_eq, clipLow_eq, clipHigh_eq, FONT_WIDTH, FONT_HEIGHT, TEXT_COLS, TEXT_ROWS,
    Nat.cast_ofNat]
  norm_num only
  omega

instance (task : CTask) (x y : ℤ) : Decidable (task.HasCell x y) :=
  inferInstanceAs (Decidable (_ ∧ _))

instance (task : CTask) (px py : ℤ) : Decidable (task.ReachesPixel px py) :=
  inferInstanceAs (Decidable (_ ∧ _))

/-- What painting a window does to the planes. -/
structure Painted (task : CTask) (z : ℕ) (p p' : Planes) : Prop where
  counted : Counted p'.winZBuf p'.uncoveredCells
  cell : ∀ x < TEXT_COLS, ∀ y < TEXT_ROWS, p'.winZBuf (y * TEXT_COLS + x) =
    if task.HasCell x y then z else p.winZBuf (y * TEXT_COLS + x)
  pixel : ∀ px < 800, ∀ py < 600, p'.pixelZBuf (py * 800 + px) =
    if task.ReachesPixel px py then z else p.pixelZBuf (py * 800 + px)
  bitmap : p'.uncoveredBitmap = p.uncoveredBitmap
  highest : p'.highestUncovered = p.highestUncovered

/-- **A window gets the cells of its rectangle and the pixels between its wrapped edges.** -/
theorem paintWindow_spec (task : CTask) (hz : 0 < z) (hmax : z ≤ BOOTSTRAP_WIN_MAX)
    (h : Counted p.winZBuf p.uncoveredCells) :
    ∃ p', paintWindow task z p = some p' ∧ Painted task z p p' := by
  have hcells := task.cellRect_within
  have hpixels := task.cellRect.pixelRect_within
  obtain ⟨buf, cells, hpaint, hcounted, hbuf⟩ := paintCells hz hmax _ hcells.indices h
  obtain ⟨pixels, hrest, hpix⟩ := @paintPixels { p with winZBuf := buf, uncoveredCells := cells }
    z _ hpixels.indices
  refine ⟨{ p with winZBuf := buf, uncoveredCells := cells, pixelZBuf := pixels }, ?_, hcounted,
    fun x hx y hy => ?_, fun px hx py hy => ?_, rfl, rfl⟩
  · rw [paintWindow, hpaint]
    exact hrest
  · refine (hbuf _).trans (if_congr ?_ rfl rfl)
    rw [hcells.mem_indices hx, task.cellRect_has hx hy]
  · refine (hpix _).trans (if_congr ?_ rfl rfl)
    rw [hpixels.mem_indices hx, task.pixelRect_has hx hy]

end ZealBringup.Win
