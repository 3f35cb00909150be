import ZealBringup.Fb.Terminal

/-!
# Two ways to scroll the shell

When the shell's text scrolls, its pixels are moved up by a row of text and the cells of the
screen with them; where the framebuffer does not allow that, the retained cells are drawn
again instead.  Drawing again leaves alone what has no retained cell.

* `Direct.draw_present` — what a drawn cell looks like, pixel by pixel.
* `moveUp_apply` — the move.
* `scrolls_agree_iff` — when the two leave the same.
* `taskText_exact_iff` — the console as a whole.
-/

namespace ZealBringup.Fb

/-! ## Pixels of one colour -/

/-- A byte of a pixel of the framebuffer. -/
def place (s : Screen) (x y j : ℕ) : Cell := (.fb, y * s.pitch + x * s.pxb + j)

/-- The bytes of a colour. -/
def colorByte (c : UInt32) : ℕ → UInt8
  | 0 => (c &&& 0xff).toUInt8
  | 1 => ((c >>> 8) &&& 0xff).toUInt8
  | 2 => ((c >>> 16) &&& 0xff).toUInt8
  | _ => 0

/-- The framebuffer is drawn to directly, in 3 or 4 bytes. -/
structure Direct (s : Screen) : Prop where
  fb : s.fb
  render : s.render = none
  depth : s.pxb = 3 ∨ s.pxb = 4

/-- Pixels plotted in one colour. -/
def stamp (s : Screen) (c : UInt32) (ps : List (ℕ × ℕ)) : List Write :=
  ps.flatMap fun p => pixel s c p.1 p.2

variable {s : Screen} {font : Font} {c : UInt32} {x y x' y' j : ℕ} {k : Cell} {m : Memory}

theorem draw_append (us vs : List Write) (m : Memory) : draw (us ++ vs) m = draw vs (draw us m) :=
  List.foldl_append

theorem draw_of_not_mem {ws : List Write} (h : k ∉ cells ws) (m : Memory) : draw ws m k = m k := by
  have hnone : LastWrite.lastWrite Prod.fst k ws = none :=
    (LastWrite.lastWrite_eq_none_iff Prod.fst).mpr fun a ha hak => h (List.mem_map.mpr ⟨a, ha, hak⟩)
  have hval := LastWrite.foldl_update Prod.fst Prod.snd m ws k
  rw [hnone] at hval
  exact hval

namespace Direct

variable (hd : Direct s)
include hd

theorem drawn_fb : s.drawn .fb = s.pxb := by
  have hdepth := hd.depth
  simp only [Screen.drawn, hd.render, Option.isSome_none, Bool.false_or, decide_eq_true_eq]
  rw [if_neg (by omega)]
  omega

theorem mem_cells_pixel_iff : k ∈ cells (pixel s c x y) ↔
    (x < s.w ∧ y < s.h) ∧ ∃ j < s.pxb, k = place s x y j := by
  obtain ⟨p, i⟩ := k
  rw [mem_cells_pixel, and_iff_right hd.fb]
  refine and_congr_right fun _ => ?_
  cases p with
  | fb =>
    simp only [hd.drawn_fb, place, Prod.mk.injEq, true_and]
    rfl
  | surface => simp [Screen.drawn, hd.render, place]
  | rgba => simp [Screen.drawn, Screen.overlaid, hd.render, place]

theorem place_inj {j' : ℕ} (hx : x < s.w) (hy : y < s.h) (hx' : x' < s.w) (hy' : y' < s.h)
    (hj : j < s.pxb) (hj' : j' < s.pxb) (h : place s x y j = place s x' y' j') : x = x' ∧ y = y' :=
  pixel_unique ((hd.mem_cells_pixel_iff (c := 0)).mpr ⟨⟨hx, hy⟩, j, hj, rfl⟩)
    ((hd.mem_cells_pixel_iff (c := 0)).mpr ⟨⟨hx', hy'⟩, j', hj', h⟩)

theorem draw_pixel (hx : x < s.w) (hy : y < s.h) (hj : j < s.pxb) (m : Memory) :
    draw (pixel s c x y) m (place s x y j) = colorByte c j := by
  rw [pixel_direct hd.fb hd.render hx hy]
  obtain hpxb | hpxb := hd.depth
  · rw [hpxb] at hj ⊢
    interval_cases j <;> simp [draw, place, hpxb, colorByte]
  · rw [hpxb] at hj ⊢
    interval_cases j <;> simp [draw, place, hpxb, colorByte]

theorem draw_stamp (ps : List (ℕ × ℕ)) (hx : x < s.w) (hy : y < s.h) (hj : j < s.pxb)
    (m : Memory) : draw (stamp s c ps) m (place s x y j) =
      if (x, y) ∈ ps then colorByte c j else m (place s x y j) := by
  induction ps generalizing m with
  | nil => rfl
  | cons p ps ih =>
    have hcons : stamp s c (p :: ps) = pixel s c p.1 p.2 ++ stamp s c ps := rfl
    rw [hcons, draw_append, ih]
    by_cases hmem : (x, y) ∈ ps
    · rw [if_pos hmem, if_pos (List.mem_cons_of_mem _ hmem)]
    rw [if_neg hmem]
    by_cases heq : (x, y) = p
    · rw [if_pos (by rw [heq]; exact List.mem_cons_self), ← heq, hd.draw_pixel hx hy hj]
    · rw [if_neg fun h => (List.mem_cons.mp h).elim heq hmem, draw_of_not_mem fun hin => heq ?_]
      obtain ⟨⟨hpx, hpy⟩, j', hj', hplace⟩ := hd.mem_cells_pixel_iff.mp hin
      obtain ⟨h1, h2⟩ := hd.place_inj hx hy hpx hpy hj hj' hplace
      exact Prod.ext h1 h2

theorem draw_stamp_if {P : Prop} [Decidable P] (ps : List (ℕ × ℕ)) (hx : x < s.w) (hy : y < s.h)
    (hj : j < s.pxb) (m : Memory) : draw (if P then stamp s c ps else []) m (place s x y j) =
      if P ∧ (x, y) ∈ ps then colorByte c j else m (place s x y j) := by
  by_cases hP : P
  · rw [if_pos hP, hd.draw_stamp ps hx hy hj]
    exact if_congr (and_iff_right hP).symm rfl rfl
  · rw [if_neg hP, if_neg fun h => hP h.1]
    rfl

end Direct

/-! ## Drawn cells -/

/-- The pixels of a rectangle. -/
def rectPos (x0 y0 w h : ℕ) : List (ℕ × ℕ) :=
  (List.range h).flatMap fun j => (List.range w).map fun i => (x0 + i, y0 + j)

theorem mem_rectPos {x0 y0 w h : ℕ} :
    (x, y) ∈ rectPos x0 y0 w h ↔ (x0 ≤ x ∧ x < x0 + w) ∧ y0 ≤ y ∧ y < y0 + h := by
  simp only [rectPos, List.mem_flatMap, List.mem_map, List.mem_range, Prod.mk.injEq]
  constructor
  · rintro ⟨j, hj, i, hi, rfl, rfl⟩
    omega
  · rintro ⟨⟨h1, h2⟩, h3, h4⟩
    exact ⟨y - y0, by omega, x - x0, by omega, by omega, by omega⟩

theorem Direct.fill_eq (hd : Direct s) (x0 y0 : ℕ) {w h : ℕ} (hx : x0 + w ≤ s.w) (hy : y0 + h ≤ s.h) :
    fbFillrect s (.ofNat x0) (.ofNat y0) (.ofNat w) (.ofNat h) c =
      stamp s c (rectPos x0 y0 w h) := by
  have hsw := s.w_lt
  have hsh := s.h_lt
  have hx0 : (UInt32.ofNat x0).toNat = x0 := toNat_ofNat (by omega)
  have hy0 : (UInt32.ofNat y0).toNat = y0 := toNat_ofNat (by omega)
  have hw : (UInt32.ofNat w).toNat = w := toNat_ofNat (by omega)
  have hh : (UInt32.ofNat h).toNat = h := toNat_ofNat (by omega)
  have hover : s.overlaid = false := by simp [Screen.overlaid, hd.render]
  rw [fillrect_exact fun _ => ⟨hover, by rw [hx0, hy0, hw, hh]; split <;> omega⟩, plotRect, hx0,
    hy0, hw, hh, stamp, rectPos, List.flatMap_assoc]
  refine List.flatMap_congr fun j _ => ?_
  rw [List.flatMap_map]

/-- The pixels that are set in a glyph. -/
def glyphPos (font : Font) (col row : ℕ) (ch : UInt8) : List (ℕ × ℕ) :=
  (List.range 8).flatMap fun r => (List.range 8).flatMap fun c =>
    if glyphBit font ch r c then [(col * 8 + c, row * 8 + r)] else []

theorem mem_glyphPos {col row : ℕ} {ch : UInt8} : (x, y) ∈ glyphPos font col row ch ↔
    ∃ r < 8, ∃ c < 8, glyphBit font ch r c ∧ x = col * 8 + c ∧ y = row * 8 + r := by
  simp only [glyphPos, List.mem_flatMap, List.mem_range]
  refine exists_congr fun r => and_congr_right fun _ => exists_congr fun c =>
    and_congr_right fun _ => ?_
  split
  case isTrue h => simp [h]
  case isFalse h => simp [h]

/-- The colour of a pixel of a cell. -/
def cellColor (font : Font) (packed : UInt32) (r c : ℕ) : UInt32 :=
  if packed &&& 0x80000000 ≠ 0 ∧ r = 7 then cellFg packed
  else if 32 ≤ packed.toUInt8 ∧ glyphBit font packed.toUInt8 r c then cellFg packed
  else cellBg packed

theorem toNat_mul_eight {n : ℕ} (h : n * 8 < 2 ^ 32) : UInt32.ofNat n * 8 = .ofNat (n * 8) := by
  refine UInt32.toNat_inj.mp ?_
  rw [UInt32.toNat_mul, toNat_ofNat (by omega), toNat_ofNat h]
  exact Nat.mod_eq_of_lt h

theorem ofNat_add {a b : ℕ} (h : a + b < 2 ^ 32) :
    UInt32.ofNat a + .ofNat b = .ofNat (a + b) := by
  refine UInt32.toNat_inj.mp ?_
  rw [UInt32.toNat_add, toNat_ofNat (by omega), toNat_ofNat (by omega), toNat_ofNat h]
  exact Nat.mod_eq_of_lt h

theorem Direct.drawChar_eq (hd : Direct s) {col row : ℕ} (hcol : col < s.cols) (hrow : row < s.rows)
    (ch : UInt8) : fbDrawChar s font (.ofNat col) (.ofNat row) ch c =
      stamp s c (glyphPos font col row ch) := by
  have hsw := s.w_lt
  have hsh := s.h_lt
  rw [Screen.cols] at hcol
  rw [Screen.rows] at hrow
  rw [fbDrawChar, if_neg (by simp [hd.fb]), stamp, glyphPos, List.flatMap_assoc]
  refine List.flatMap_congr fun r hr => ?_
  rw [List.flatMap_assoc]
  refine List.flatMap_congr fun i hi => ?_
  have hr' := List.mem_range.mp hr
  have hi' := List.mem_range.mp hi
  split
  · rw [fbPutpixel_eq_pixel, toNat_mul_eight (by omega), toNat_mul_eight (by omega),
      ofNat_add (by omega), ofNat_add (by omega), toNat_ofNat (by omega), toNat_ofNat (by omega)]
    exact (List.flatMap_singleton _ _).symm
  · rfl

theorem Direct.present_eq (hd : Direct s) {col row : ℕ} (hcol : col < s.cols) (hrow : row < s.rows)
    (packed : UInt32) : fbTextPresentCell s font (.ofNat col) (.ofNat row) packed =
      stamp s (cellBg packed) (rectPos (col * 8) (row * 8) 8 8) ++
        (if 32 ≤ packed.toUInt8 then
          stamp s (cellFg packed) (glyphPos font col row packed.toUInt8) else []) ++
        if packed &&& 0x80000000 ≠ 0 then
          stamp s (cellFg packed) (rectPos (col * 8) (row * 8 + 7) 8 1) else [] := by
  have hsw := s.w_lt
  have hsh := s.h_lt
  have hcols : s.cols = s.w / 8 := rfl
  have hrows : s.rows = s.h / 8 := rfl
  have hcoln : (UInt32.ofNat col).toNat = col := toNat_ofNat (by omega)
  have hrown : (UInt32.ofNat row).toNat = row := toNat_ofNat (by omega)
  have hfill := hd.fill_eq (c := cellBg packed) (col * 8) (row * 8) (w := 8) (h := 8)
    (by omega) (by omega)
  have hline := hd.fill_eq (c := cellFg packed) (col * 8) (row * 8 + 7) (w := 8) (h := 1)
    (by omega) (by omega)
  rw [← ofNat_add (by omega)] at hline
  rw [fbTextPresentCell, if_neg, toNat_mul_eight (by omega), toNat_mul_eight (by omega),
    hd.drawChar_eq hcol hrow, ← hfill, ← hline]
  · rfl
  · simp only [hd.fb, Bool.not_true, Bool.false_or, Bool.or_eq_true, decide_eq_true_eq]
    omega

/-- **A drawn cell**, pixel by pixel; the other cells keep theirs. -/
theorem Direct.draw_present (hd : Direct s) {col row X Y r i : ℕ} (hcol : col < s.cols)
    (hrow : row < s.rows) (hX : X < s.cols) (hY : Y < s.rows) (hr : r < 8) (hi : i < 8)
    (hj : j < s.pxb) (packed : UInt32) (m : Memory) :
    draw (fbTextPresentCell s font (.ofNat col) (.ofNat row) packed) m
        (place s (X * 8 + i) (Y * 8 + r) j) =
      if X = col ∧ Y = row then colorByte (cellColor font packed r i) j
      else m (place s (X * 8 + i) (Y * 8 + r) j) := by
  have hcols : s.cols = s.w / 8 := rfl
  have hrows : s.rows = s.h / 8 := rfl
  have hx : X * 8 + i < s.w := by omega
  have hy : Y * 8 + r < s.h := by omega
  have hrect : (X * 8 + i, Y * 8 + r) ∈ rectPos (col * 8) (row * 8) 8 8 ↔ X = col ∧ Y = row :=
    mem_rectPos.trans (by omega)
  have hline : (X * 8 + i, Y * 8 + r) ∈ rectPos (col * 8) (row * 8 + 7) 8 1 ↔
      (X = col ∧ Y = row) ∧ r = 7 := mem_rectPos.trans (by omega)
  have hglyph : (X * 8 + i, Y * 8 + r) ∈ glyphPos font col row packed.toUInt8 ↔
      (X = col ∧ Y = row) ∧ glyphBit font packed.toUInt8 r i := by
    rw [mem_glyphPos]
    constructor
    · rintro ⟨r', hr', i', hi', hbit, h1, h2⟩
      have hr'' : r' = r := by omega
      have hi'' : i' = i := by omega
      subst hr'' hi''
      exact ⟨by omega, hbit⟩
    · rintro ⟨⟨rfl, rfl⟩, hbit⟩
      exact ⟨r, hr, i, hi, hbit, rfl, rfl⟩
  rw [hd.present_eq hcol hrow, draw_append, draw_append, hd.draw_stamp_if _ hx hy hj,
    hd.draw_stamp_if _ hx hy hj, hd.draw_stamp _ hx hy hj, cellColor]
  simp only [hrect, hline, hglyph]
  by_cases hcell : X = col ∧ Y = row
  · simp only [hcell, and_self, true_and, if_true]
    split_ifs <;> rfl
  · simp only [hcell, false_and, and_false, if_false]

/-! ## Drawing retained cells -/

variable {a : Cells} {sh : Shared} {width height row X Y r i : ℕ}

/-- What is observed of one cell of the screen depends only on what is stored in it. -/
theorem presentRow_at {γ : Type*} (obs : Shared → γ) (upd : UInt32 → γ → γ)
    (hstore : ∀ sh v, ∀ x < width, obs (storeCell s font (0 + x) (0 + row) v sh) =
      if x = X ∧ row = Y then upd v (obs sh) else obs sh) (sh : Shared) :
    obs (fbTaskTextPresentRow s font a 0 0 width row sh) =
      if X < width ∧ row = Y then (a.look X row).elim (obs sh) (upd · (obs sh)) else obs sh := by
  have honce := Sweep.foldl_range_once (σ := Shared) (n := width)
    (f := fun sh x => if !a.valid (row * 512 + x) then sh
      else storeCell s font (0 + x) (0 + row) (a.cell (row * 512 + x)) sh) obs
    (fun g => if row = Y then (a.look X row).elim g (upd · g) else g) X ?_ sh
  · rw [fbTaskTextPresentRow, honce]
    split_ifs <;> tauto
  intro sh x hx
  by_cases hxX : x = X
  · subst hxX
    rw [if_pos rfl, Cells.look]
    cases hvalid : a.valid (row * 512 + x) with
    | false => simp
    | true => simpa using hstore sh _ x hx
  · rw [if_neg hxX]
    split
    · rfl
    · rw [hstore sh _ x hx, if_neg fun h => hxX h.1]

theorem present_at {γ : Type*} (obs : Shared → γ) (upd : UInt32 → γ → γ)
    (hstore : ∀ sh v, ∀ x < width, ∀ y < height, obs (storeCell s font (0 + x) (0 + y) v sh) =
      if x = X ∧ y = Y then upd v (obs sh) else obs sh) (sh : Shared) :
    obs (fbTaskTextPresent s font a 0 0 width height sh) =
      if X < width ∧ Y < height then (a.look X Y).elim (obs sh) (upd · (obs sh)) else obs sh := by
  have honce := Sweep.foldl_range_once (σ := Shared) (n := height)
    (f := fun sh y => fbTaskTextPresentRow s font a 0 0 width y sh) obs
    (fun g => if X < width then (a.look X Y).elim g (upd · g) else g) Y ?_ sh
  · rw [fbTaskTextPresent, honce]
    split_ifs <;> tauto
  intro sh y hy
  rw [presentRow_at obs upd (fun sh v x hx => hstore sh v x hx y hy)]
  by_cases hyY : y = Y
  · subst hyY
    simp
  · rw [if_neg hyY, if_neg fun h => hyY h.2]

/-- A byte of a pixel of a cell that shows `cell`, or keeps what it was. -/
def shown (font : Font) (cell : Option UInt32) (r i j : ℕ) (old : UInt8) : UInt8 :=
  cell.elim old fun packed => colorByte (cellColor font packed r i) j

/-- The byte of a pixel: of pixel `(i, r)` of the cell in column `X` of row `Y`. -/
def cellByte (s : Screen) (X Y r i j : ℕ) : Cell := place s (X * 8 + i) (Y * 8 + r) j

theorem Direct.storeCell_byte (hd : Direct s) (hX : X < s.cols) (hY : Y < s.rows) (hr : r < 8)
    (hi : i < 8) (hj : j < s.pxb) (sh : Shared) (packed : UInt32) (hx : x < s.cols)
    (hy : y < s.rows) : (storeCell s font (0 + x) (0 + y) packed sh).mem (cellByte s X Y r i j) =
      if x = X ∧ y = Y then colorByte (cellColor font packed r i) j
      else sh.mem (cellByte s X Y r i j) := by
  rw [Nat.zero_add, Nat.zero_add]
  exact (hd.draw_present hx hy hX hY hr hi hj packed sh.mem).trans
    (if_congr (and_congr eq_comm eq_comm) rfl rfl)

theorem storeCell_look (hX : X < 512) (sh : Shared) (packed : UInt32) (hx : x < 512) :
    (storeCell s font (0 + x) (0 + y) packed sh).cells.look X Y =
      if x = X ∧ y = Y then some packed else sh.cells.look X Y := by
  rw [Nat.zero_add, Nat.zero_add, storeCell, Cells.look_put hX hx]
  exact if_congr (and_congr eq_comm eq_comm) rfl rfl

/-! ## The move -/

theorem moveUp_row {n y0 : ℕ} (hn : n ≤ s.pitch) (hi : i < s.pitch) (m : Memory) :
    (List.range n).foldl (fun m x =>
      Function.update m (.fb, y0 * s.pitch + x) (m (.fb, (y0 + 8) * s.pitch + x))) m
      (.fb, y * s.pitch + i) =
      if y = y0 ∧ i < n then m (.fb, (y0 + 8) * s.pitch + i) else m (.fb, y * s.pitch + i) := by
  induction n generalizing y i with
  | zero => rw [if_neg (by omega)]; rfl
  | succ n ih =>
    have hsrc := ih (y := y0 + 8) (i := n) (by omega) (by omega)
    rw [if_neg (by omega)] at hsrc
    rw [List.range_succ, List.foldl_append, List.foldl_cons, List.foldl_nil, Function.update_apply,
      hsrc, ih (by omega) hi]
    by_cases hlast : y = y0 ∧ i = n
    · obtain ⟨rfl, rfl⟩ := hlast
      rw [if_pos rfl, if_pos (by omega)]
    · have hne : ((.fb, y * s.pitch + i) : Cell) ≠ (.fb, y0 * s.pitch + n) := fun h =>
        hlast (row_unique hi (by omega) (Prod.mk.inj h).2)
      rw [if_neg hne]
      exact if_congr (by omega) rfl rfl

/-- **The move**: each row of pixels gets what the one eight further down had. -/
theorem moveUp_apply {bytes : ℕ} (rows : ℕ) (hb : bytes ≤ s.pitch) (hi : i < s.pitch) (m : Memory) :
    moveUp s bytes rows m (.fb, y * s.pitch + i) =
      if y < rows ∧ i < bytes then m (.fb, (y + 8) * s.pitch + i)
      else m (.fb, y * s.pitch + i) := by
  rw [moveUp]
  induction rows generalizing y i with
  | zero => rw [if_neg (by omega)]; rfl
  | succ rows ih =>
    have hsrc := ih (y := rows + 8) hi
    rw [if_neg (by omega)] at hsrc
    rw [List.range_succ, List.foldl_append, List.foldl_cons, List.foldl_nil, moveUp_row hb hi, hsrc,
      ih hi]
    by_cases hlast : y = rows ∧ i < bytes
    · obtain ⟨rfl, hib⟩ := hlast
      rw [if_pos ⟨rfl, hib⟩, if_pos ⟨y.lt_succ_self, hib⟩]
    · rw [if_neg hlast]
      exact if_congr (by omega) rfl rfl

/-! ## The two ways -/

/-- The cells and the pixels of the text area are the same. -/
structure SameText (s : Screen) (a b : Shared) : Prop where
  look : ∀ x y, x < 512 → a.cells.look x y = b.cells.look x y
  bytes : ∀ X < s.cols, ∀ Y < s.rows, ∀ r < 8, ∀ i < 8, ∀ j < s.pxb,
    a.mem (cellByte s X Y r i j) = b.mem (cellByte s X Y r i j)

/-- The screen and what the shell has retained before they are scrolled: below the first row
the screen shows what is retained or, where nothing is, the same as in the row above; and
the last row of the screen is empty. -/
structure ScrollAgrees (s : Screen) (font : Font) (a : Cells) (sh : Shared) : Prop where
  look : ∀ X < s.cols, ∀ Y, Y + 1 < s.rows →
    sh.cells.look X (Y + 1) = (a.look X (Y + 1)).or (sh.cells.look X Y)
  bytes : ∀ X < s.cols, ∀ Y, Y + 1 < s.rows → ∀ r < 8, ∀ i < 8, ∀ j < s.pxb,
    sh.mem (cellByte s X (Y + 1) r i j) =
      shown font (a.look X (Y + 1)) r i j (sh.mem (cellByte s X Y r i j))
  last : ∀ X < s.cols, sh.cells.look X (s.rows - 1) = none

/-- The row of pixels at the bottom of the text area becomes blank. -/
theorem Direct.blank_byte (hd : Direct s) (hX : X < s.cols) (hY : Y < s.rows) (hr : r < 8)
    (hi : i < 8) (hj : j < s.pxb) (m : Memory) :
    draw (fbFillrect s 0 (.ofNat ((s.rows - 1) * 8)) (.ofNat (s.cols * 8)) 8 c) m
        (cellByte s X Y r i j) =
      if Y + 1 = s.rows then colorByte c j else m (cellByte s X Y r i j) := by
  have hcols : s.cols = s.w / 8 := rfl
  have hrows : s.rows = s.h / 8 := rfl
  have hfill := hd.fill_eq (c := c) 0 ((s.rows - 1) * 8) (w := s.cols * 8) (h := 8)
    (by omega) (by omega)
  have hmem : (X * 8 + i, Y * 8 + r) ∈ rectPos 0 ((s.rows - 1) * 8) (s.cols * 8) 8 ↔
      Y + 1 = s.rows := mem_rectPos.trans (by omega)
  refine (congrFun (congrArg (draw · m) hfill) _).trans ?_
  rw [cellByte, hd.draw_stamp _ (by omega) (by omega) hj]
  exact if_congr hmem rfl rfl

theorem moved_byte (hX : X < s.cols) (hr : r < 8)
    (hi : i < 8) (hj : j < s.pxb) (hY : Y + 1 < s.rows) (hb : s.cols * 8 * s.pxb ≤ s.pitch)
    (m : Memory) : moveUp s (s.cols * 8 * s.pxb) (s.rows * 8 - 8) m (cellByte s X Y r i j) =
      m (cellByte s X (Y + 1) r i j) := by
  have hcols : s.cols = s.w / 8 := rfl
  have hoff : (X * 8 + i) * s.pxb + j < s.cols * 8 * s.pxb :=
    offset_lt le_rfl (by omega) hj
  have hmove := moveUp_apply (y := Y * 8 + r) (s.rows * 8 - 8) hb (hoff.trans_le hb) m
  rw [if_pos ⟨by omega, hoff⟩] at hmove
  have hrow : Y * 8 + r + 8 = (Y + 1) * 8 + r := by omega
  rw [hrow] at hmove
  rw [cellByte, cellByte, place, place, Nat.add_assoc, Nat.add_assoc]
  exact hmove

theorem scroll_last_row (hw : width ≤ 512) (hh : 0 < height) (hX : X < width) :
    (a.scroll width height).look X (height - 1) = none := by
  rw [Cells.look_scroll hw hh (by omega), if_pos (by omega), if_neg (by omega)]

section Moved

variable (hw : s.cols ≤ 512) (hh : 0 < s.rows)
include hw hh

theorem moved_look (hX : X < 512) (sh : Shared) :
    (scrollMoved s font (a.scroll s.cols s.rows) 0 0 s.cols s.rows sh).cells.look X Y =
      (sh.cells.scroll s.cols s.rows).look X Y := by
  refine (presentRow_at (fun sh => sh.cells.look X Y) (fun packed _ => some packed)
    (fun sh packed x hx => storeCell_look hX sh packed (by omega)) _).trans ?_
  split
  case isTrue h => rw [scroll_last_row hw hh h.1]; rfl
  case isFalse => rfl

theorem Direct.moved_final (hd : Direct s) (hX : X < s.cols) (hY : Y < s.rows) (hr : r < 8)
    (hi : i < 8) (hj : j < s.pxb) (hb : s.cols * 8 * s.pxb ≤ s.pitch)
    (hm : m = draw (fbFillrect s 0 (.ofNat ((s.rows - 1) * 8)) (.ofNat (s.cols * 8)) 8 c)
      (moveUp s (s.cols * 8 * s.pxb) (s.rows * 8 - 8) sh.mem)) :
    (scrollMoved s font (a.scroll s.cols s.rows) 0 0 s.cols s.rows { sh with mem := m }).mem
        (cellByte s X Y r i j) =
      if Y + 1 < s.rows then sh.mem (cellByte s X (Y + 1) r i j) else colorByte c j := by
  have hrow : (scrollMoved s font (a.scroll s.cols s.rows) 0 0 s.cols s.rows
      { sh with mem := m }).mem (cellByte s X Y r i j) = m (cellByte s X Y r i j) := by
    refine (presentRow_at (fun sh => sh.mem (cellByte s X Y r i j))
      (fun packed _ => colorByte (cellColor font packed r i) j)
      (fun sh packed x hx => hd.storeCell_byte hX hY hr hi hj sh packed hx (by omega)) _).trans ?_
    split
    case isTrue h => rw [scroll_last_row hw hh h.1]; rfl
    case isFalse => rfl
  rw [hrow, hm, hd.blank_byte hX hY hr hi hj]
  by_cases hlast : Y + 1 < s.rows
  · rw [if_neg (by omega), if_pos hlast, moved_byte hX hr hi hj hlast hb]
  · rw [if_pos (by omega), if_neg hlast]

end Moved

theorem redrawn_look (hw : s.cols ≤ 512) (hX : X < 512) (sh : Shared) :
    (scrollRedrawn s font true a 0 0 s.cols s.rows sh).cells.look X Y =
      if X < s.cols ∧ Y < s.rows then (a.look X Y).or (sh.cells.look X Y)
      else sh.cells.look X Y := by
  refine (present_at (fun sh => sh.cells.look X Y) (fun packed _ => some packed)
    (fun sh packed x hx y _ => storeCell_look hX sh packed (by omega)) _).trans ?_
  refine if_congr Iff.rfl ?_ rfl
  cases a.look X Y <;> rfl

theorem Direct.redrawn_byte (hd : Direct s) (hX : X < s.cols) (hY : Y < s.rows) (hr : r < 8)
    (hi : i < 8) (hj : j < s.pxb) (sh : Shared) :
    (scrollRedrawn s font true a 0 0 s.cols s.rows sh).mem (cellByte s X Y r i j) =
      shown font (a.look X Y) r i j (if Y + 1 = s.rows then colorByte 0x00101820 j
        else sh.mem (cellByte s X Y r i j)) := by
  refine (present_at (fun sh => sh.mem (cellByte s X Y r i j))
    (fun packed _ => colorByte (cellColor font packed r i) j)
    (fun sh packed x hx y hy => hd.storeCell_byte hX hY hr hi hj sh packed hx hy) _).trans ?_
  rw [if_pos ⟨hX, hY⟩, shown]
  exact congrArg (fun b => (a.look X Y).elim b fun packed => colorByte (cellColor font packed r i) j)
    (hd.blank_byte hX hY hr hi hj sh.mem)

theorem scrollPixels_some {m m' : Memory}
    (h : fbShellTextScrollPixels s width height m = some m') :
    (s.fb ∧ width = s.cols ∧ height = s.rows) ∧ (s.pxb = 3 ∨ s.pxb = 4) ∧ 1 < s.rows ∧
      s.cols * 8 * s.pxb ≤ s.pitch ∧
      m' = draw (fbFillrect s 0 (.ofNat ((s.rows - 1) * 8)) (.ofNat (s.cols * 8)) 8 0x00101820)
        (moveUp s (s.cols * 8 * s.pxb) (s.rows * 8 - 8) m) := by
  rw [fbShellTextScrollPixels] at h
  split at h
  case isTrue => cases h
  case isFalse h1 =>
    simp only [Bool.or_eq_true, Bool.not_eq_true', decide_eq_true_eq, Bool.and_eq_true,
      not_or, not_and_or, not_not, Bool.not_eq_false] at h1
    obtain ⟨⟨⟨hfb, rfl⟩, rfl⟩, hbpp⟩ := h1
    simp only at h
    split at h
    case isTrue => cases h
    case isFalse h2 =>
      simp only [Bool.or_eq_true, decide_eq_true_eq, not_or] at h2
      have hrow : s.rows * 8 - 8 = (s.rows - 1) * 8 := by omega
      refine ⟨⟨hfb, rfl, rfl⟩, ?_, by omega, by omega, ?_⟩
      · rw [Screen.pxb]
        obtain hbpp | hbpp := hbpp <;> rw [hbpp]
        · exact .inl (by decide)
        · exact .inr (by decide)
      · rw [← Option.some.inj h, hrow]

/-- **The two ways to scroll** leave the same exactly if the screen agrees with what the shell has
retained. -/
theorem scrolls_agree_iff (hrender : s.render = none)
    (hpix : fbShellTextScrollPixels s width height sh.mem = some m) (hw : width ≤ 512) :
    SameText s
        (scrollMoved s font (a.scroll width height) 0 0 width height { sh with mem := m })
        (scrollRedrawn s font true (a.scroll width height) 0 0 width height sh) ↔
      ScrollAgrees s font a sh := by
  obtain ⟨⟨hfb, rfl, rfl⟩, hdepth, hrows, hpitch, rfl⟩ := scrollPixels_some hpix
  have hd : Direct s := ⟨hfb, hrender, hdepth⟩
  have hpos : 0 < s.rows := by omega
  have hscroll : ∀ (b : Cells) X, X < s.cols → ∀ Y, Y + 1 < s.rows →
      (b.scroll s.cols s.rows).look X Y = b.look X (Y + 1) := fun b X hX Y hY => by
    rw [Cells.look_scroll hw hpos (by omega), if_pos ⟨hX, by omega⟩, if_pos hY]
  constructor
  · intro h
    constructor
    · intro X hX Y hY
      have hlook := h.look X Y (by omega)
      rw [moved_look hw hpos (by omega), redrawn_look hw (by omega), if_pos ⟨hX, by omega⟩] at hlook
      rwa [hscroll _ X hX Y hY, hscroll _ X hX Y hY] at hlook
    · intro X hX Y hY r hr i hi j hj
      have hbyte := h.bytes X hX Y (by omega) r hr i hi j hj
      rwa [hd.moved_final hw hpos hX (by omega) hr hi hj hpitch rfl, if_pos hY,
        hd.redrawn_byte hX (by omega) hr hi hj, if_neg (by omega), hscroll _ X hX Y hY] at hbyte
    · intro X hX
      have hlook := h.look X (s.rows - 1) (by omega)
      rw [moved_look hw hpos (by omega), redrawn_look hw (by omega), if_pos ⟨hX, by omega⟩,
        scroll_last_row hw hpos hX, scroll_last_row hw hpos hX] at hlook
      exact hlook.symm
  · intro h
    constructor
    · intro X Y hX
      rw [moved_look hw hpos hX, redrawn_look hw hX]
      by_cases hin : X < s.cols ∧ Y < s.rows
      · rw [if_pos hin]
        by_cases hlast : Y + 1 < s.rows
        · rw [hscroll _ X hin.1 Y hlast, hscroll _ X hin.1 Y hlast]
          exact h.look X hin.1 Y hlast
        · obtain rfl : Y = s.rows - 1 := by omega
          rw [scroll_last_row hw hpos hin.1, scroll_last_row hw hpos hin.1, h.last X hin.1]
          rfl
      · rw [if_neg hin, Cells.look_scroll hw hpos hX, if_neg hin]
    · intro X hX Y hY r hr i hi j hj
      rw [hd.moved_final hw hpos hX hY hr hi hj hpitch rfl, hd.redrawn_byte hX hY hr hi hj]
      by_cases hlast : Y + 1 < s.rows
      · rw [if_pos hlast, if_neg (by omega), hscroll _ X hX Y hlast]
        exact h.bytes X hX Y hlast r hr i hi j hj
      · obtain rfl : Y = s.rows - 1 := by omega
        rw [if_neg hlast, if_pos (by omega), scroll_last_row hw hpos hX]
        rfl

/-! ## The console -/

/-- **The text console**: runs without backspaces whose cursors recover do what terminals do, one
call stays inside exactly if its cursor recovers, and the two ways to scroll the shell agree
exactly if the screen agrees with what it has retained. -/
theorem taskText_exact_iff (s : Screen) (font : Font) :
    (∀ (k : Console) (terms : Fin 8 → Term) (cs : List TextCall),
      (∀ i, (k.slots i).view = terms i) → AllMeet s font k cs → AllFaithful s font terms k cs) ∧
    (∀ (k : Console) (c : TextCall) (text : List UInt8)
      (v : TextWindow), c.text = some text → textWindow s c = some v → 8 ∉ textRead text →
      (Inside s font k c v ↔
        Recovers v.width v.height (k.slots v.slot).x (k.slots v.slot).y (textRead text))) ∧
    ∀ (c : TextCall) (v : TextWindow) (a : Cells) (sh : Shared)
      (m : Memory), s.render = none → textWindow s c = some v →
      fbShellTextScrollPixels s v.width v.height sh.mem = some m →
      (SameText s
        (scrollMoved s font (a.scroll v.width v.height) 0 0 v.width v.height { sh with mem := m })
        (scrollRedrawn s font true (a.scroll v.width v.height) 0 0 v.width v.height sh) ↔
        ScrollAgrees s font a sh) := by
  refine ⟨fun k terms cs hterms h => run_faithful hterms h,
    fun k c text v htext hv h8 => inside_iff_recovers htext hv h8,
    fun c v a sh m hrender hv hpix => ?_⟩
  have hright := (fits_of_textWindow hv).right
  exact scrolls_agree_iff hrender hpix (by omega)

/-- Two by two cells of 32-bit pixels. -/
def tinyScreen : Screen where
  fb := true
  w := 16
  h := 16
  pitch := 64
  bpp := 32
  palette := fun _ => 0
  render := none
  w_lt := by decide
  h_lt := by decide
  row_fits := by decide
  surface_fits := by simp

def blankCells : Cells := ⟨fun _ => 0, fun _ => false⟩

def blankConsole : Console := ⟨fun _ => ⟨blankCells, 0, 0⟩, ⟨blankCells, fun _ => 0⟩⟩

def blankTerm : Term := ⟨fun _ _ => none, 0, 0⟩

/-- A text for the whole of the tiny screen. -/
def tinyCall (slot : ℕ) (text : List UInt8) : TextCall := ⟨slot, 0, 1, 0, 1, 7, some text⟩

theorem blankConsole_view (i : Fin 8) : (blankConsole.slots i).view = blankTerm := by
  simp only [blankConsole, Slot.view, blankTerm, Cells.look, blankCells, Term.mk.injEq, and_true]
  funext x y
  simp

theorem taskText_exact_small :
    AllFaithful tinyScreen (fun _ _ => 0) (fun _ => blankTerm) blankConsole
      [tinyCall 0 [65, 66, 67, 10, 68]] ∧
    (Inside tinyScreen (fun _ _ => 0) blankConsole (tinyCall 0 [65, 10])
      ⟨0, 0, 0, 2, 2, 7⟩ ↔ Recovers 2 2 0 0 [65, 10]) := by
  refine ⟨(taskText_exact_iff _ _).1 _ _ _ blankConsole_view ⟨?_, trivial⟩,
    (taskText_exact_iff _ _).2.1 blankConsole _ [65, 10] ⟨0, 0, 0, 2, 2, 7⟩ rfl rfl (by decide)⟩
  intro text v htext hv
  obtain rfl := Option.some.inj htext
  obtain rfl := Option.some.inj ((rfl : textWindow tinyScreen
    (tinyCall 0 [65, 66, 67, 10, 68]) = some ⟨0, 0, 0, 2, 2, 7⟩).symm.trans hv)
  exact ⟨by decide, .inr (by decide)⟩

/-- A backspace leaves the cursor behind the blank, a smaller window is printed outside of, and
a scroll that draws again keeps the last row of the screen. -/
theorem taskText_strays :
    ¬AllFaithful tinyScreen (fun _ _ => 0) (fun _ => blankTerm) blankConsole
      [tinyCall 0 [65, 8]] ∧
    ¬AllFaithful tinyScreen (fun _ _ => 0) (fun _ => blankTerm) blankConsole
      [tinyCall 0 [10], ⟨0, 0, 1, 0, 0, 7, some [65]⟩] ∧
    ∃ k m, k = (zealFbTaskTextWrite tinyScreen (fun _ _ => 0) (tinyCall 7 [10, 66])
        blankConsole).1 ∧
      fbShellTextScrollPixels tinyScreen 2 2 k.shared.mem = some m ∧
      ¬SameText tinyScreen
        (scrollMoved tinyScreen (fun _ _ => 0) ((k.slots 7).cells.scroll 2 2) 0 0 2 2
          { k.shared with mem := m })
        (scrollRedrawn tinyScreen (fun _ _ => 0) true ((k.slots 7).cells.scroll 2 2) 0 0 2 2
          k.shared) := by
  refine ⟨fun h => ?_, fun h => ?_, _, _, rfl, rfl, fun h => ?_⟩
  · have hx := congrArg Term.x (h.1.terms 0)
    revert hx
    decide +kernel
  · have hin := (h.2.1.inside [65] ⟨0, 0, 0, 2, 1, 7⟩ rfl rfl).stored (0, 1)
    revert hin
    decide +kernel
  · have hlast := ((scrolls_agree_iff rfl rfl (by decide)).mp h).last 0 (by decide)
    revert hlast
    decide +kernel

end ZealBringup.Fb
