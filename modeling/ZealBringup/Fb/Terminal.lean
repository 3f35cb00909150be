import ZealBringup.Fb.Text

/-!
# The text console as a terminal

A terminal has a grid of cells and a cursor.  Without backspaces a slot of the text console is
one, whatever its windows are; and printing stays within the window as long as the cursor,
when the window has become smaller, gets back into it before anything is printed.

* `Cells.look_scroll` — scrolling, cell by cell.
* `view_textStep` — a character does to the slot what it does to the terminal.
* `textLoop_inside_iff` — when a text stays in its window.
* `run_faithful` — whole runs.
-/

namespace ZealBringup.Fb

/-! ## Scrolling, cell by cell -/

namespace Cells

variable {a : Cells} {i x y : ℕ}

/-- What is stored at an index. -/
def entry (a : Cells) (i : ℕ) : UInt32 × Bool := (a.cell i, a.valid i)

theorem look_eq (a : Cells) (x y : ℕ) :
    a.look x y = if (a.entry (y * 512 + x)).2 then
      some (a.entry (y * 512 + x)).1 else none := rfl

theorem entry_put (a : Cells) (j : ℕ) (v : UInt32) :
    (a.put j v).entry i = if i = j then (v, true) else a.entry i := by
  by_cases h : i = j
  · subst h; simp [entry, put]
  · simp [entry, put, h]

theorem entry_clear (a : Cells) (j : ℕ) :
    (a.clear j).entry i = if i = j then (0, false) else a.entry i := by
  by_cases h : i = j
  · subst h; simp [entry, clear]
  · simp [entry, clear, h]

theorem entry_copy (a : Cells) (dst src : ℕ) :
    (a.copy dst src).entry i = if i = dst then a.entry src else a.entry i := by
  by_cases h : i = dst
  · subst h; simp [entry, copy]
  · simp [entry, copy, h]

theorem entry_copyRow {dst src : ℕ} (width : ℕ) (h : dst + width ≤ src) :
    (copyRow width dst src a).entry i =
      if dst ≤ i ∧ i < dst + width then a.entry (src + (i - dst)) else a.entry i := by
  induction width generalizing i with
  | zero => rw [if_neg (by omega)]; rfl
  | succ width ih =>
    have hlast : copyRow (width + 1) dst src a =
        (copyRow width dst src a).copy (dst + width) (src + width) := by
      rw [copyRow, List.range_succ, List.foldl_append]
      rfl
    have hsrc : (copyRow width dst src a).entry (src + width) = a.entry (src + width) := by
      rw [ih (by omega), if_neg (by omega)]
    rw [hlast, entry_copy, hsrc, ih (by omega)]
    by_cases hi : i = dst + width
    · rw [if_pos hi, if_pos (by omega), hi, Nat.add_sub_cancel_left]
    · rw [if_neg hi]
      refine if_congr ?_ rfl rfl
      omega

theorem entry_clearRow (width row : ℕ) : (clearRow width row a).entry i =
    if row ≤ i ∧ i < row + width then (0, false) else a.entry i := by
  induction width with
  | zero => rw [if_neg (by omega)]; rfl
  | succ width ih =>
    have hlast : clearRow (width + 1) row a = (clearRow width row a).clear (row + width) := by
      rw [clearRow, List.range_succ, List.foldl_append]
      rfl
    rw [hlast, entry_clear, ih]
    by_cases hi : i = row + width
    · rw [if_pos hi, if_pos (by omega)]
    · rw [if_neg hi]
      refine if_congr ?_ rfl rfl
      omega

variable {width : ℕ}

theorem entry_copyRows (hw : width ≤ 512) (hx : x < 512) (n : ℕ) :
    ((List.range' 1 n).foldl (fun a y =>
      copyRow width ((y - 1) * 512) (y * 512) a) a).entry (y * 512 + x) =
      if x < width ∧ y < n then a.entry ((y + 1) * 512 + x)
      else a.entry (y * 512 + x) := by
  induction n generalizing x y with
  | zero => rw [if_neg (by omega)]; rfl
  | succ n ih =>
    rw [List.range'_concat, List.foldl_append, List.foldl_cons, List.foldl_nil,
      entry_copyRow width (by omega)]
    by_cases hrow : x < width ∧ y = n
    · have hfrom : (1 + 1 * n) * 512 + (y * 512 + x - (1 + 1 * n - 1) * 512) = (n + 1) * 512 + x := by
        omega
      rw [if_pos (by omega), if_pos (by omega), hfrom, ih hx, if_neg (by omega), hrow.2]
    · rw [if_neg (by omega), ih hx]
      refine if_congr ?_ rfl rfl
      omega

theorem entry_scroll {height : ℕ} (hw : width ≤ 512) (hh : 0 < height) (hx : x < 512) :
    (a.scroll width height).entry (y * 512 + x) =
      if x < width ∧ y < height then
        if y + 1 < height then a.entry ((y + 1) * 512 + x) else (0, false)
      else a.entry (y * 512 + x) := by
  rw [scroll, entry_clearRow, entry_copyRows hw hx]
  by_cases hin : x < width ∧ y < height
  · rw [if_pos hin]
    by_cases hlast : y + 1 < height
    · rw [if_neg (by omega), if_pos (by omega), if_pos hlast]
    · rw [if_pos (by omega), if_neg hlast]
  · rw [if_neg (by omega), if_neg (by omega), if_neg hin]

/-- **Scrolling**: each row of the window gets what the next one had, the last becomes empty. -/
theorem look_scroll {height : ℕ} (hw : width ≤ 512) (hh : 0 < height) (hx : x < 512) :
    (a.scroll width height).look x y =
      if x < width ∧ y < height then if y + 1 < height then a.look x (y + 1) else none
      else a.look x y := by
  rw [look_eq, entry_scroll hw hh hx]
  split
  · split <;> rfl
  · rfl

theorem look_put {x' y' : ℕ} (hx : x < 512) (hx' : x' < 512) (v : UInt32) :
    (a.put (y' * 512 + x') v).look x y = if x = x' ∧ y = y' then some v else a.look x y := by
  have hentry := entry_put (i := y * 512 + x) a (y' * 512 + x') v
  by_cases h : x = x' ∧ y = y'
  · rw [if_pos (by omega)] at hentry
    rw [look_eq, hentry, if_pos h]
    rfl
  · rw [if_neg (by omega)] at hentry
    rw [look_eq, hentry, if_neg h, look_eq]

end Cells

/-! ## Terminals -/

/-- A terminal: what its cells show, and its cursor. -/
structure Term where
  look : ℕ → ℕ → Option UInt32
  x : ℕ
  y : ℕ

namespace Term

def scrolled (w h : ℕ) (look : ℕ → ℕ → Option UInt32) : ℕ → ℕ → Option UInt32 := fun x y =>
  if x < w ∧ y < h then if y + 1 < h then look x (y + 1) else none else look x y

/-- To the start of the next row, which scrolls at the bottom. -/
def newline (w h : ℕ) (t : Term) : Term :=
  if h ≤ t.y + 1 then ⟨scrolled w h t.look, 0, h - 1⟩ else ⟨t.look, 0, t.y + 1⟩

/-- A cell gets a character. -/
def store (v : UInt32) (t : Term) : Term :=
  { t with look := fun x y => if x = t.x ∧ y = t.y then some v else t.look x y }

def print (w h : ℕ) (v : UInt32) (t : Term) : Term :=
  let t := if w ≤ t.x then t.newline w h else t
  { t.store v with x := t.x + 1 }

/-- Back by one cell, which becomes blank and keeps the cursor. -/
def backspace (w : ℕ) (blank : UInt32) (t : Term) : Term :=
  (if 0 < t.x then { t with x := t.x - 1 }
    else if 0 < t.y then { t with x := w - 1, y := t.y - 1 } else t).store blank

def step (w h : ℕ) (attr : UInt32) (t : Term) (ch : UInt8) : Term :=
  if ch = 13 then { t with x := 0 }
  else if ch = 10 then t.newline w h
  else if ch = 8 then t.backspace w (textCell attr 32)
  else if ch < 32 then t
  else t.print w h (textCell attr ch)

end Term

/-- A slot as a terminal. -/
def Slot.view (sl : Slot) : Term := ⟨fun x y => if x < 512 then sl.cells.look x y else none, sl.x, sl.y⟩

/-- A window has room for a cell and is no larger than the cells that are kept. -/
structure TextWindow.Fits (v : TextWindow) : Prop where
  wide : 0 < v.width
  high : 0 < v.height
  right : v.left + v.width ≤ 512
  bottom : v.top + v.height ≤ 512

variable {s : Screen} {font : Font} {v : TextWindow} {st : Slot × Shared} {ch : UInt8}

theorem fbTaskTextScroll_slot (slot : Fin 8) (left top width height : ℕ) (sl : Slot) (sh : Shared) :
    (fbTaskTextScroll s font slot left top width height sl sh).1 =
      { sl with cells := sl.cells.scroll width height } := by
  simp only [fbTaskTextScroll]
  split <;> rfl

theorem view_nextRow (hv : v.Fits) :
    (nextRow s font v st).1.view = st.1.view.newline v.width v.height := by
  have hright := hv.right
  rw [nextRow, Term.newline]
  by_cases hlast : v.height ≤ st.1.y + 1
  · simp only [hlast, if_true, Slot.view, fbTaskTextScroll_slot, Term.mk.injEq, and_true]
    funext x y
    rw [Term.scrolled]
    by_cases hx : x < 512
    · rw [if_pos hx, if_pos hx, if_pos hx, Cells.look_scroll (by omega) hv.high hx]
    · rw [if_neg hx, if_neg (by omega), if_neg hx]
  · simp only [hlast, if_false, Slot.view]

theorem view_putChar (hv : v.Fits) :
    (putChar s font v ch st).1.1.view = st.1.view.print v.width v.height (textCell v.attr ch) := by
  have hright := hv.right
  have hwide := hv.wide
  have hstore : ∀ st : Slot × Shared, st.1.x < v.width →
      ({ cells := st.1.cells.put (st.1.y * 512 + st.1.x) (textCell v.attr ch),
         x := st.1.x + 1, y := st.1.y } : Slot).view =
      { st.1.view.store (textCell v.attr ch) with x := st.1.x + 1 } := by
    intro st hx
    simp only [Slot.view, Term.store, Term.mk.injEq, and_true]
    funext x y
    by_cases hx' : x < 512
    · simp only [hx', if_true]
      rw [Cells.look_put hx' (by omega)]
    · have hne : x ≠ st.1.x := by omega
      simp [hx', hne]
  have hviewx : st.1.view.x = st.1.x := rfl
  rw [putChar, Term.print, hviewx]
  by_cases hwrap : v.width ≤ st.1.x
  · have hx : (nextRow s font v st).1.x = 0 := by
      rw [nextRow]
      simp only [fbTaskTextScroll_slot]
      split <;> rfl
    simp only [hwrap, if_true]
    rw [hstore _ (by omega), view_nextRow hv]
    have hx' : (st.1.view.newline v.width v.height).x = 0 := by
      rw [Term.newline]
      split <;> rfl
    rw [hx, hx']
  · simp only [hwrap, if_false]
    exact hstore st (by omega)

/-- **A character does to the slot what it does to the terminal**, unless it is a backspace. -/
theorem view_textStep (hv : v.Fits) (hch : ch ≠ 8) :
    (textStep s font v ch st).1.1.view = st.1.view.step v.width v.height v.attr ch := by
  rw [textStep, Term.step]
  by_cases h13 : ch = 13
  · rw [if_pos h13, if_pos h13]
    rfl
  rw [if_neg h13, if_neg h13]
  by_cases h10 : ch = 10
  · rw [if_pos h10, if_pos h10]
    exact view_nextRow hv
  rw [if_neg h10, if_neg h10, if_neg hch, if_neg hch]
  by_cases h32 : ch < 32
  · rw [if_pos h32, if_pos h32]
  · rw [if_neg h32, if_neg h32]
    exact view_putChar hv

variable {text : List UInt8}

theorem view_textLoop (hv : v.Fits) (h8 : 8 ∉ text) (stored : List (ℕ × ℕ)) :
    (textLoop s font v st stored text).1.1.view =
      text.foldl (Term.step v.width v.height v.attr) st.1.view := by
  induction text generalizing st stored with
  | nil => rfl
  | cons ch text ih =>
    rw [List.mem_cons, not_or] at h8
    rw [textLoop, List.foldl_cons, ih h8.2, view_textStep hv (Ne.symm h8.1)]

/-! ## Staying in the window -/

/-- The row that follows another. -/
def rowAfter (h y : ℕ) : ℕ := if h ≤ y + 1 then h - 1 else y + 1

theorem nextRow_x : (nextRow s font v st).1.x = 0 := by
  simp only [nextRow, fbTaskTextScroll_slot]
  split <;> rfl

theorem nextRow_y : (nextRow s font v st).1.y = rowAfter v.height st.1.y := by
  simp only [nextRow, rowAfter]
  split <;> rfl

variable {h : ℕ}

theorem rowAfter_lt (hh : 0 < h) (y : ℕ) : rowAfter h y < h := by
  rw [rowAfter]
  split <;> omega

/-- The cursor gets into the window before anything is printed outside, and is in it at the
end: what a text without backspaces has to do if the window has become smaller. -/
def Recovers (w h : ℕ) : ℕ → ℕ → List UInt8 → Prop
  | x, y, [] => x ≤ w ∧ y < h
  | x, y, ch :: text =>
    if ch = 13 then Recovers w h 0 y text
    else if ch = 10 then True
    else if ch < 32 then Recovers w h x y text
    else w ≤ x ∨ y < h

variable {w : ℕ}

theorem recovers_of_placed {x y : ℕ} (hx : x ≤ w) (hy : y < h) (text : List UInt8) :
    Recovers w h x y text := by
  induction text generalizing x with
  | nil => exact ⟨hx, hy⟩
  | cons ch text ih =>
    rw [Recovers]
    split_ifs
    · exact ih (Nat.zero_le _)
    · exact ih hx
    · exact .inr hy

/-- A text stays in its window exactly if the cursor recovers. -/
theorem textLoop_inside_iff (hv : v.Fits) {text : List UInt8} (h8 : 8 ∉ text)
    (stored : List (ℕ × ℕ)) :
    ((∀ p ∈ (textLoop s font v st stored text).2, p.1 < v.width ∧ p.2 < v.height) ∧
      (textLoop s font v st stored text).1.1.x ≤ v.width ∧
      (textLoop s font v st stored text).1.1.y < v.height) ↔
    (∀ p ∈ stored, p.1 < v.width ∧ p.2 < v.height) ∧
      Recovers v.width v.height st.1.x st.1.y text := by
  have hwide := hv.wide
  have hhigh := hv.high
  induction text generalizing st stored with
  | nil => rfl
  | cons ch text ih =>
    rw [List.mem_cons, not_or] at h8
    have hch : ¬ch = 8 := fun h => h8.1 h.symm
    refine (ih h8.2 _).trans ?_
    rw [Recovers, textStep]
    by_cases h13 : ch = 13
    · simp only [h13, if_true, Option.toList_none, List.append_nil]
    by_cases h10 : ch = 10
    · rw [if_neg h13, if_neg h13, if_pos h10, if_pos h10]
      simp only [nextRow_x, nextRow_y, Option.toList_none, List.append_nil]
      exact and_congr_right fun _ => iff_of_true
        (recovers_of_placed (Nat.zero_le _) (rowAfter_lt hhigh _) _) trivial
    by_cases h32 : ch < 32
    · simp only [h13, h10, hch, h32, if_false, if_true, Option.toList_none, List.append_nil]
    simp only [h13, h10, hch, h32, if_false, putChar, Option.toList_some, List.mem_append,
      List.mem_singleton, or_imp, forall_and, forall_eq]
    by_cases hwrap : v.width ≤ st.1.x
    · simp only [hwrap, if_true, nextRow_x, nextRow_y, true_or, and_true]
      have hrow := rowAfter_lt hhigh st.1.y
      have hrec := recovers_of_placed (show 0 + 1 ≤ v.width by omega) hrow text
      tauto
    · simp only [hwrap, if_false, false_or]
      have hin : st.1.x < v.width := by omega
      have hrec : st.1.y < v.height → Recovers v.width v.height (st.1.x + 1) st.1.y text :=
        fun hy => recovers_of_placed (by omega) hy text
      tauto

/-! ## What else a text touches -/

/-- Two arrays show the same outside a rectangle. -/
def Within (left top w h : ℕ) (a b : Cells) : Prop :=
  ∀ x y, x < 512 → ¬((left ≤ x ∧ x < left + w) ∧ top ≤ y ∧ y < top + h) → b.look x y = a.look x y

theorem Within.refl (left top w h : ℕ) (a : Cells) : Within left top w h a a := fun _ _ _ _ => rfl

variable {left top : ℕ}

theorem Within.trans {a b c : Cells} (h1 : Within left top w h a b) (h2 : Within left top w h b c) :
    Within left top w h a c :=
  fun x y hx hout => (h2 x y hx hout).trans (h1 x y hx hout)

theorem within_put {x y : ℕ} (hx : left ≤ x ∧ x < left + w) (hy : top ≤ y ∧ y < top + h)
    (hw : left + w ≤ 512) (a : Cells) (p : UInt32) :
    Within left top w h a (a.put (y * 512 + x) p) := by
  intro x' y' hx' hout
  rw [Cells.look_put hx' (by omega), if_neg]
  rintro ⟨rfl, rfl⟩
  exact hout ⟨hx, hy⟩

theorem within_scroll (hw : w ≤ 512) (hh : 0 < h) (a : Cells) :
    Within 0 0 w h a (a.scroll w h) := by
  intro x y hx hout
  rw [Cells.look_scroll hw hh hx, if_neg fun hin => hout ⟨⟨Nat.zero_le _, by omega⟩,
    Nat.zero_le _, by omega⟩]

theorem within_presentRow {row : ℕ} (a : Cells) (hw : left + w ≤ 512) (hrow : row < h)
    (sh : Shared) :
    Within left top w h sh.cells (fbTaskTextPresentRow s font a left top w row sh).cells := by
  have hall : ∀ l : List ℕ, (∀ x ∈ l, x < w) → ∀ sh : Shared, Within left top w h sh.cells
      (l.foldl (fun sh x => if !a.valid (row * 512 + x) then sh
        else storeCell s font (left + x) (top + row) (a.cell (row * 512 + x)) sh) sh).cells := by
    intro l
    induction l with
    | nil => exact fun _ sh => Within.refl _ _ _ _ _
    | cons x l ih =>
      intro hl sh
      have hx := hl x List.mem_cons_self
      have hone : Within left top w h sh.cells (if !a.valid (row * 512 + x) then sh
          else storeCell s font (left + x) (top + row) (a.cell (row * 512 + x)) sh).cells := by
        split
        · exact Within.refl _ _ _ _ _
        · exact within_put ⟨by omega, by omega⟩ ⟨by omega, by omega⟩ hw _ _
      exact hone.trans (ih (fun y hy => hl y (List.mem_cons_of_mem _ hy)) _)
  exact hall _ (fun x hx => List.mem_range.mp hx) sh

theorem within_present (a : Cells) (hw : left + w ≤ 512) (sh : Shared) :
    Within left top w h sh.cells (fbTaskTextPresent s font a left top w h sh).cells := by
  have hall : ∀ l : List ℕ, (∀ y ∈ l, y < h) → ∀ sh : Shared, Within left top w h sh.cells
      (l.foldl (fun sh y => fbTaskTextPresentRow s font a left top w y sh) sh).cells := by
    intro l
    induction l with
    | nil => exact fun _ sh => Within.refl _ _ _ _ _
    | cons y l ih =>
      intro hl sh
      exact (within_presentRow a hw (hl y List.mem_cons_self) sh).trans
        (ih (fun z hz => hl z (List.mem_cons_of_mem _ hz)) _)
  exact hall _ (fun y hy => List.mem_range.mp hy) sh

theorem within_taskTextScroll (hv : v.Fits) (sl : Slot) (sh : Shared) :
    Within v.left v.top v.width v.height sh.cells
      (fbTaskTextScroll s font v.slot v.left v.top v.width v.height sl sh).2.cells := by
  have hright := hv.right
  have hhigh := hv.high
  simp only [fbTaskTextScroll]
  split
  case h_1 m hm =>
    have hshell : v.left = 0 ∧ v.top = 0 := by
      split at hm
      case isTrue h => simp only [Bool.and_eq_true, beq_iff_eq] at h; exact ⟨h.1.2, h.2⟩
      case isFalse => cases hm
    have hscroll := within_scroll (show v.width ≤ 512 by omega) hhigh sh.cells
    rw [hshell.1, hshell.2]
    exact hscroll.trans (within_presentRow _ (by omega) (by omega) _)
  case h_2 =>
    rw [scrollRedrawn]
    split
    · exact within_present _ hright _
    · exact within_present _ hright _

theorem within_nextRow (hv : v.Fits) :
    Within 0 0 v.width v.height st.1.cells (nextRow s font v st).1.cells ∧
      Within v.left v.top v.width v.height st.2.cells (nextRow s font v st).2.cells := by
  have hright := hv.right
  rw [nextRow]
  by_cases hlast : v.height ≤ st.1.y + 1
  · simp only [hlast, if_true, fbTaskTextScroll_slot]
    exact ⟨within_scroll (by omega) hv.high _, within_taskTextScroll hv _ _⟩
  · simp only [hlast, if_false]
    exact ⟨Within.refl _ _ _ _ _, Within.refl _ _ _ _ _⟩

theorem within_putChar (hv : v.Fits)
    (hin : ∀ p ∈ (putChar s font v ch st).2, p.1 < v.width ∧ p.2 < v.height) :
    Within 0 0 v.width v.height st.1.cells (putChar s font v ch st).1.1.cells ∧
      Within v.left v.top v.width v.height st.2.cells (putChar s font v ch st).1.2.cells := by
  have hright := hv.right
  have hnext := @within_nextRow s font v st hv
  rw [putChar] at hin ⊢
  by_cases hwrap : v.width ≤ st.1.x
  · simp only [hwrap, if_true, Option.mem_some_iff, forall_eq'] at hin ⊢
    exact ⟨hnext.1.trans (within_put ⟨by omega, by omega⟩ ⟨by omega, by omega⟩ (by omega) _ _),
      hnext.2.trans (within_put ⟨by omega, by omega⟩ ⟨by omega, by omega⟩ hright _ _)⟩
  · simp only [hwrap, if_false, Option.mem_some_iff, forall_eq'] at hin ⊢
    exact ⟨within_put ⟨by omega, by omega⟩ ⟨by omega, by omega⟩ (by omega) _ _,
      within_put ⟨by omega, by omega⟩ ⟨by omega, by omega⟩ hright _ _⟩

theorem within_textStep (hv : v.Fits) (hch : ch ≠ 8)
    (hin : ∀ p ∈ (textStep s font v ch st).2, p.1 < v.width ∧ p.2 < v.height) :
    Within 0 0 v.width v.height st.1.cells (textStep s font v ch st).1.1.cells ∧
      Within v.left v.top v.width v.height st.2.cells (textStep s font v ch st).1.2.cells := by
  rw [textStep] at hin ⊢
  split_ifs at hin ⊢
  · exact ⟨Within.refl _ _ _ _ _, Within.refl _ _ _ _ _⟩
  · exact within_nextRow hv
  · exact ⟨Within.refl _ _ _ _ _, Within.refl _ _ _ _ _⟩
  · exact within_putChar hv hin

theorem stored_subset (text : List UInt8) (stored : List (ℕ × ℕ)) :
    stored ⊆ (textLoop s font v st stored text).2 := by
  induction text generalizing st stored with
  | nil => exact List.Subset.refl _
  | cons ch text ih => exact List.Subset.trans (List.subset_append_left _ _) (ih _)

theorem within_textLoop (hv : v.Fits) (h8 : 8 ∉ text) (stored : List (ℕ × ℕ))
    (hin : ∀ p ∈ (textLoop s font v st stored text).2, p.1 < v.width ∧ p.2 < v.height) :
    Within 0 0 v.width v.height st.1.cells (textLoop s font v st stored text).1.1.cells ∧
      Within v.left v.top v.width v.height st.2.cells
        (textLoop s font v st stored text).1.2.cells := by
  induction text generalizing st stored with
  | nil => exact ⟨Within.refl _ _ _ _ _, Within.refl _ _ _ _ _⟩
  | cons ch text ih =>
    rw [List.mem_cons, not_or] at h8
    rw [textLoop] at hin ⊢
    have hstep := @within_textStep s font v st ch hv (Ne.symm h8.1) fun p hp =>
      hin p (stored_subset _ _ (List.mem_append_right _ (by
        cases hr : (textStep s font v ch st).2 with
        | none => rw [hr] at hp; cases hp
        | some q => rw [hr] at hp; simpa using hp.symm)))
    have hrest := ih h8.2 _ hin
    exact ⟨hstep.1.trans hrest.1, hstep.2.trans hrest.2⟩

/-! ## Runs -/

/-- The terminals after a call. -/
def termsAfter (s : Screen) (terms : Fin 8 → Term) (c : TextCall) : Fin 8 → Term :=
  match c.text, textWindow s c with
  | some text, some v => Function.update terms v.slot
      ((textRead text).foldl (Term.step v.width v.height v.attr) (terms v.slot))
  | _, _ => terms

/-- What a call has to meet: no backspace is read, and the cursor recovers. -/
def Meets (s : Screen) (k : Console) (c : TextCall) : Prop :=
  ∀ text v, c.text = some text → textWindow s c = some v → 8 ∉ textRead text ∧
    Recovers v.width v.height (k.slots v.slot).x (k.slots v.slot).y (textRead text)

/-- A call stores characters inside its window and the arrays, touches nothing else, and
leaves the cursor in the window or one column behind it. -/
structure Inside (s : Screen) (font : Font) (k : Console) (c : TextCall) (v : TextWindow) :
    Prop where
  stored : ∀ p ∈ (zealFbTaskTextWrite s font c k).2, p.1 < v.width ∧ p.2 < v.height
  arrays : ∀ p ∈ (zealFbTaskTextWrite s font c k).2, p.2 * 512 + p.1 < 512 * 512 ∧
    (v.top + p.2) * 512 + (v.left + p.1) < 512 * 512
  slot : Within 0 0 v.width v.height (k.slots v.slot).cells
    ((zealFbTaskTextWrite s font c k).1.slots v.slot).cells
  screen : Within v.left v.top v.width v.height k.shared.cells
    (zealFbTaskTextWrite s font c k).1.shared.cells
  cursor : ((zealFbTaskTextWrite s font c k).1.slots v.slot).x ≤ v.width ∧
    ((zealFbTaskTextWrite s font c k).1.slots v.slot).y < v.height

/-- What a call should do: it stays inside, and its slots are the terminals. -/
structure Faithful (s : Screen) (font : Font) (terms : Fin 8 → Term) (k : Console)
    (c : TextCall) : Prop where
  inside : ∀ text v, c.text = some text → textWindow s c = some v → Inside s font k c v
  terms : ∀ i, ((zealFbTaskTextWrite s font c k).1.slots i).view = termsAfter s terms c i

/-- Every call of a run meets its condition in the state it finds. -/
def AllMeet (s : Screen) (font : Font) : Console → List TextCall → Prop
  | _, [] => True
  | k, c :: cs => Meets s k c ∧ AllMeet s font (zealFbTaskTextWrite s font c k).1 cs

/-- Every call of a run does what it should, with the terminals running alongside. -/
def AllFaithful (s : Screen) (font : Font) : (Fin 8 → Term) → Console → List TextCall → Prop
  | _, _, [] => True
  | terms, k, c :: cs => Faithful s font terms k c ∧
      AllFaithful s font (termsAfter s terms c) (zealFbTaskTextWrite s font c k).1 cs

variable {c : TextCall} {k : Console}

theorem fits_of_textWindow (h : textWindow s c = some v) : v.Fits := by
  rw [textWindow] at h
  split at h
  case isFalse => cases h
  case isTrue hslot =>
    split at h
    case isTrue => cases h
    case isFalse hb =>
      simp only [fbTaskTextBounds, Bool.not_eq_true', Bool.not_eq_false, Bool.and_eq_true,
        decide_eq_true_eq] at hb
      cases h
      constructor <;> simp only <;> omega

theorem textWrite_eq {text : List UInt8} (htext : c.text = some text)
    (hv : textWindow s c = some v) : zealFbTaskTextWrite s font c k =
      (⟨Function.update k.slots v.slot
          (textLoop s font v (k.slots v.slot, k.shared) [] (textRead text)).1.1,
        (textLoop s font v (k.slots v.slot, k.shared) [] (textRead text)).1.2⟩,
        (textLoop s font v (k.slots v.slot, k.shared) [] (textRead text)).2) := by
  rw [zealFbTaskTextWrite, htext, hv]

/-- **One call** without a backspace stays inside its window exactly if the cursor recovers. -/
theorem inside_iff_recovers (htext : c.text = some text) (hv : textWindow s c = some v)
    (h8 : 8 ∉ textRead text) : Inside s font k c v ↔
      Recovers v.width v.height (k.slots v.slot).x (k.slots v.slot).y (textRead text) := by
  have hfits := fits_of_textWindow hv
  have hright := hfits.right
  have hbottom := hfits.bottom
  have hwrite := @textWrite_eq s font v c k text htext hv
  have hiff := @textLoop_inside_iff s font v (k.slots v.slot, k.shared) hfits _ h8 []
  have hnil : ∀ p ∈ ([] : List (ℕ × ℕ)), p.1 < v.width ∧ p.2 < v.height := fun p hp => by cases hp
  rw [and_iff_right hnil] at hiff
  rw [← hiff]
  constructor
  · intro h
    have hstored := h.stored
    have hcursor := h.cursor
    rw [hwrite] at hstored hcursor
    simp only [Function.update_self] at hcursor
    exact ⟨hstored, hcursor⟩
  · rintro ⟨hstored, hcursor⟩
    have hwithin := within_textLoop hfits h8 [] hstored
    constructor
    · rw [hwrite]
      exact hstored
    · rw [hwrite]
      intro p hp
      obtain ⟨h1, h2⟩ := hstored p hp
      omega
    · rw [hwrite]
      simp only [Function.update_self]
      exact hwithin.1
    · rw [hwrite]
      exact hwithin.2
    · rw [hwrite]
      simp only [Function.update_self]
      exact hcursor

theorem faithful_of_meets {terms : Fin 8 → Term} (hterms : ∀ i, (k.slots i).view = terms i)
    (h : Meets s k c) : Faithful s font terms k c where
  inside text v htext hv :=
    (inside_iff_recovers htext hv (h text v htext hv).1).mpr (h text v htext hv).2
  terms i := by
    rw [zealFbTaskTextWrite, termsAfter]
    cases htext : c.text with
    | none => exact hterms i
    | some text =>
      cases hv : textWindow s c with
      | none => exact hterms i
      | some v =>
        simp only [Function.update_apply]
        by_cases hi : i = v.slot
        · rw [if_pos hi, if_pos hi, view_textLoop (fits_of_textWindow hv) (h text v htext hv).1,
            ← hterms]
        · rw [if_neg hi, if_neg hi]
          exact hterms i

/-- **Whole runs**: as long as every call meets its condition, all do what they should. -/
theorem run_faithful {terms : Fin 8 → Term} (hterms : ∀ i, (k.slots i).view = terms i)
    {cs : List TextCall} (h : AllMeet s font k cs) : AllFaithful s font terms k cs := by
  induction cs generalizing k terms with
  | nil => trivial
  | cons c cs ih =>
    have hone := @faithful_of_meets s font c k terms hterms h.1
    exact ⟨hone, ih hone.terms h.2⟩

end ZealBringup.Fb
