import Mathlib

/-!
# Pieces laid over a memory

A memory is a function of addresses, and a piece is a list of cells with its base.  Pieces
that share no address may be laid over the memory in any order.

* `paste_of_has`, `paste_of_not_has` — what one piece leaves.
* `pasteAll_of_mem`, `pasteAll_of_forall_not` — what many of them leave.
* `window_paste` — reading a piece back.
* `layRun_succ`, `layRun_add` — a source laid over the memory cell by cell.
-/

namespace Overlay

variable {α : Type*}

/-- Cells from `base` on. -/
structure Piece (α : Type*) where
  base : ℕ
  cells : List α

/-- The piece has the address `i`. -/
def Piece.Has (p : Piece α) (i : ℕ) : Prop := p.base ≤ i ∧ i < p.base + p.cells.length

/-- No address is in both pieces. -/
def Piece.Apart (p q : Piece α) : Prop := ∀ i, p.Has i → ¬q.Has i

/-- The piece laid over the memory. -/
def paste (f : ℕ → α) (p : Piece α) : ℕ → α := fun i =>
  if p.base ≤ i then (p.cells[i - p.base]?).getD (f i) else f i

/-- The pieces laid over the memory, one after the other. -/
def pasteAll (f : ℕ → α) (ps : List (Piece α)) : ℕ → α := ps.foldl paste f

/-- `n` cells from `base` on. -/
def window (f : ℕ → α) (base n : ℕ) : List α := (List.range n).map fun k => f (base + k)

variable {f g : ℕ → α} {p : Piece α} {ps : List (Piece α)} {i : ℕ}

theorem paste_of_not_has (h : ¬p.Has i) : paste f p i = f i := by
  unfold paste
  split
  · rename_i hle
    rw [List.getElem?_eq_none, Option.getD_none]
    by_contra hlt
    exact h ⟨hle, by omega⟩
  · rfl

theorem paste_of_has (h : p.Has i) : (p.cells[i - p.base]?) = some (paste f p i) := by
  obtain ⟨hle, hlt⟩ := h
  rw [paste, if_pos hle, List.getElem?_eq_getElem (by omega), Option.getD_some]

theorem pasteAll_nil (f : ℕ → α) : pasteAll f [] = f := rfl

theorem pasteAll_cons (f : ℕ → α) (p : Piece α) (ps : List (Piece α)) :
    pasteAll f (p :: ps) = pasteAll (paste f p) ps := rfl

theorem pasteAll_append (f : ℕ → α) (ps qs : List (Piece α)) :
    pasteAll f (ps ++ qs) = pasteAll (pasteAll f ps) qs := List.foldl_append

theorem pasteAll_of_forall_not (h : ∀ p ∈ ps, ¬p.Has i) : pasteAll f ps i = f i := by
  induction ps generalizing f with
  | nil => rfl
  | cons p ps ih =>
    rw [pasteAll_cons, ih fun q hq => h q (List.mem_cons_of_mem _ hq)]
    exact paste_of_not_has (h p List.mem_cons_self)

/-- **Pieces that are apart** are all there in the end, in whatever order they were laid. -/
theorem pasteAll_of_mem (hapart : ps.Pairwise Piece.Apart) (hp : p ∈ ps) (h : p.Has i) :
    (p.cells[i - p.base]?) = some (pasteAll f ps i) := by
  induction ps generalizing f with
  | nil => cases hp
  | cons q ps ih =>
    obtain ⟨hq, hrest⟩ := List.pairwise_cons.1 hapart
    rw [pasteAll_cons]
    rcases List.mem_cons.1 hp with rfl | hp
    · rw [pasteAll_of_forall_not fun r hr => hq r hr i h]
      exact paste_of_has h
    · exact ih hrest hp

theorem length_window (f : ℕ → α) (base n : ℕ) : (window f base n).length = n := by
  rw [window, List.length_map, List.length_range]

theorem getElem?_window {base n k : ℕ} (h : k < n) : (window f base n)[k]? = some (f (base + k)) := by
  rw [window, List.getElem?_map, List.getElem?_range h]
  rfl

theorem window_congr {base n : ℕ} (h : ∀ k < n, f (base + k) = g (base + k)) :
    window f base n = window g base n :=
  List.map_congr_left fun k hk => h k (List.mem_range.1 hk)

/-- A memory that has the cells of a piece at its place reads back as the piece. -/
theorem window_eq {base : ℕ} {cells : List α}
    (h : ∀ k < cells.length, cells[k]? = some (f (base + k))) :
    window f base cells.length = cells := by
  refine List.ext_getElem? fun k => ?_
  by_cases hk : k < cells.length
  · rw [getElem?_window hk, h k hk]
  · rw [List.getElem?_eq_none (by rw [length_window]; omega), List.getElem?_eq_none (by omega)]

/-! ## Runs of cells -/

/-- The first `n` cells of a source laid over the memory from `base` on. -/
def layRun (f : ℕ → α) (base : ℕ) (src : ℕ → α) (n : ℕ) : ℕ → α := fun i =>
  if base ≤ i ∧ i < base + n then src (i - base) else f i

@[simp] theorem layRun_zero (f : ℕ → α) (base : ℕ) (src : ℕ → α) : layRun f base src 0 = f := by
  funext i
  unfold layRun
  rw [if_neg (by omega)]

/-- One more cell. -/
theorem layRun_succ (f : ℕ → α) (base : ℕ) (src : ℕ → α) (n : ℕ) :
    layRun f base src (n + 1) = Function.update (layRun f base src n) (base + n) (src n) := by
  funext i
  unfold layRun
  by_cases hi : i = base + n
  · subst hi
    rw [Function.update_self, if_pos (by omega), Nat.add_sub_cancel_left]
  · rw [Function.update_of_ne hi]
    by_cases hin : base ≤ i ∧ i < base + n
    · rw [if_pos (by omega), if_pos hin]
    · rw [if_neg (by omega), if_neg hin]

/-- Two runs that follow each other. -/
theorem layRun_add (f : ℕ → α) (base : ℕ) (src : ℕ → α) (n m : ℕ) :
    layRun (layRun f base src n) (base + n) (fun k => src (n + k)) m =
      layRun f base src (n + m) := by
  induction m with
  | zero => rw [layRun_zero, Nat.add_zero]
  | succ m ih => rw [layRun_succ, ih, ← Nat.add_assoc, layRun_succ, Nat.add_assoc]

end Overlay
