import Mathlib.Data.List.Induction
import Mathlib.Data.List.Pairwise
import Mathlib.Data.Nat.Notation
import Mathlib.Tactic.Common

/-!
# Fields one after the other

A record puts its fields one after the other, each at the next multiple of its alignment, or all of
them at its beginning.

* `roundUp` — the next multiple.
* `offsets`, `extent` — where the fields are, and where the last one ends.
* `offsets_concat`, `extent_concat` — one field more.
* `pairwise_offsets` — a field ends before the next one begins.
* `end_le_extent`, `extent_le` — no field ends behind the extent, and how large it is at most.
-/

namespace Packing

/-- The next multiple of `a`. -/
def roundUp (n a : ℕ) : ℕ := (n + (a - 1)) / a * a

theorem le_roundUp {a : ℕ} (ha : 0 < a) (n : ℕ) : n ≤ roundUp n a := by
  have hdiv := Nat.div_add_mod (n + (a - 1)) a
  have hmod := Nat.mod_lt (n + (a - 1)) ha
  rw [roundUp, Nat.mul_comm]
  omega

theorem roundUp_le (n a : ℕ) : roundUp n a ≤ n + (a - 1) := Nat.div_mul_le_self _ _

theorem roundUp_mod (n a : ℕ) : roundUp n a % a = 0 := Nat.mul_mod_left _ _

/-- What is known of a field. -/
structure Field where
  size : ℕ
  align : ℕ

/-- Where a field goes, behind the others or upon them. -/
def offset (overlay : Bool) (e : ℕ) (t : Field) : ℕ := if overlay then 0 else roundUp e t.align

/-- The end with one field more. -/
def extend (overlay : Bool) (e : ℕ) (t : Field) : ℕ :=
  if overlay then max e t.size else roundUp e t.align + t.size

/-- Where the fields are, from an end on. -/
def offsets (overlay : Bool) : ℕ → List Field → List ℕ
  | _, [] => []
  | e, t :: ts => offset overlay e t :: offsets overlay (extend overlay e t) ts

/-- The end behind the fields. -/
def extent (overlay : Bool) (e : ℕ) (ts : List Field) : ℕ := ts.foldl (extend overlay) e

variable {overlay : Bool} {e : ℕ} {t : Field} {ts : List Field}

@[simp] theorem length_offsets : (offsets overlay e ts).length = ts.length := by
  induction ts generalizing e with
  | nil => rfl
  | cons t ts ih => simp [offsets, ih]

theorem extent_concat (ts : List Field) (t : Field) :
    extent overlay e (ts ++ [t]) = extend overlay (extent overlay e ts) t := by
  simp [extent]

theorem offsets_concat (ts : List Field) (t : Field) : offsets overlay e (ts ++ [t]) =
    offsets overlay e ts ++ [offset overlay (extent overlay e ts) t] := by
  induction ts generalizing e with
  | nil => rfl
  | cons u ts ih =>
    rw [List.cons_append, offsets, offsets, ih]
    rfl

theorem zip_concat (ts : List Field) (t : Field) :
    (offsets overlay e (ts ++ [t])).zip (ts ++ [t]) =
      (offsets overlay e ts).zip ts ++ [(offset overlay (extent overlay e ts) t, t)] := by
  rw [offsets_concat, List.zip_append length_offsets]
  rfl

/-- The end never comes closer. -/
theorem le_extend (ha : 0 < t.align) : e ≤ extend overlay e t := by
  unfold extend
  split
  · exact Nat.le_max_left _ _
  · exact Nat.le_trans (le_roundUp ha e) (Nat.le_add_right _ _)

theorem offset_add_size_le (t : Field) : offset overlay e t + t.size ≤ extend overlay e t := by
  unfold offset extend
  split
  · rw [Nat.zero_add]
    exact Nat.le_max_right _ _
  · exact Nat.le_refl _

/-- **No field ends behind the extent.** -/
theorem end_le_extent (ha : ∀ t ∈ ts, 0 < t.align) :
    ∀ x ∈ (offsets overlay e ts).zip ts, x.1 + x.2.size ≤ extent overlay e ts := by
  induction ts using List.reverseRecOn with
  | nil => intro x hx; cases hx
  | append_singleton ts t ih =>
    intro x hx
    rw [zip_concat, List.mem_append, List.mem_singleton] at hx
    rw [extent_concat]
    rcases hx with hx | rfl
    · have hle := ih (fun t ht => ha t (List.mem_append_left _ ht)) x hx
      exact Nat.le_trans hle (le_extend (ha t (List.mem_append_right _ List.mem_cons_self)))
    · exact offset_add_size_le t

/-- **Each field ends before the next ones begin.** -/
theorem pairwise_offsets (ha : ∀ t ∈ ts, 0 < t.align) :
    ((offsets false e ts).zip ts).Pairwise fun x y => x.1 + x.2.size ≤ y.1 := by
  induction ts using List.reverseRecOn with
  | nil => exact List.Pairwise.nil
  | append_singleton ts t ih =>
    have hprev : ∀ t ∈ ts, 0 < t.align := fun t ht => ha t (List.mem_append_left _ ht)
    rw [zip_concat]
    refine List.pairwise_append.mpr ⟨ih hprev, List.pairwise_singleton _ _, fun x hx y hy => ?_⟩
    rw [List.mem_singleton.mp hy]
    have hpos := ha t (List.mem_append_right _ List.mem_cons_self)
    exact Nat.le_trans (end_le_extent hprev x hx) (le_roundUp hpos _)

/-- The extent, when no field begins far away and none is large. -/
theorem extent_le {b s : ℕ} (hb : ∀ o ∈ offsets overlay e ts, o ≤ b) (hs : ∀ t ∈ ts, t.size ≤ s)
    (he : e ≤ b + s) : extent overlay e ts ≤ b + s := by
  induction ts using List.reverseRecOn with
  | nil => exact he
  | append_singleton ts t ih =>
    rw [offsets_concat] at hb
    have hprev := ih (fun o ho => hb o (List.mem_append_left _ ho))
      fun t ht => hs t (List.mem_append_left _ ht)
    have hoff := hb _ (List.mem_append_right _ List.mem_cons_self)
    have hsize := hs t (List.mem_append_right _ List.mem_cons_self)
    rw [extent_concat]
    unfold offset at hoff
    unfold extend
    split at hoff
    · rename_i h
      rw [if_pos h]
      omega
    · rename_i h
      rw [if_neg h]
      omega

end Packing
