import Mathlib

/-!
# Sparse sequences of extents

An extent says where a stretch of units belongs and where its data is.  In a sorted
list of extents every unit has at most one of them, and a cursor that only moves
forward finds it.

* `mem_find` — what a search of the list finds.
* `find_advance` — the cursor finds the same.
-/

namespace Sparse

/-- `count` units from `start` on; their data is at `offset`. -/
structure Extent where
  start : ℕ
  count : ℕ
  offset : ℕ
  deriving DecidableEq, Repr

/-- The first unit behind the extent. -/
def Extent.stop (e : Extent) : ℕ := e.start + e.count

/-- The extent has the unit `s`. -/
def Extent.Has (e : Extent) (s : ℕ) : Prop := e.start ≤ s ∧ s < e.stop

instance (e : Extent) (s : ℕ) : Decidable (e.Has s) := inferInstanceAs (Decidable (_ ∧ _))

/-- Each extent ends before the next one starts. -/
def Sorted (es : List Extent) : Prop := es.Pairwise fun e f => e.stop ≤ f.start

/-- The extent of a unit. -/
def find (es : List Extent) (s : ℕ) : Option Extent := es.find? fun e => decide (e.Has s)

/-- The cursor: the extents that are not behind `s`. -/
def advance (es : List Extent) (s : ℕ) : List Extent := es.dropWhile fun e => decide (e.stop ≤ s)

variable {es : List Extent} {e : Extent} {s t : ℕ}

theorem find_none_iff : find es s = none ↔ ∀ e ∈ es, ¬e.Has s := by
  rw [find, List.find?_eq_none]
  simp

theorem find_cons_of_not (h : ¬e.Has s) : find (e :: es) s = find es s := by
  rw [find, List.find?_cons, decide_eq_false h]
  rfl

theorem find_cons_of_has (h : e.Has s) : find (e :: es) s = some e := by
  rw [find, List.find?_cons, decide_eq_true h]

theorem advance_cons_of_le (h : e.stop ≤ s) : advance (e :: es) s = advance es s := by
  rw [advance, List.dropWhile_cons, if_pos (by simpa using h)]
  rfl

theorem advance_cons_of_lt (h : s < e.stop) : advance (e :: es) s = e :: es := by
  rw [advance, List.dropWhile_cons, if_neg (by simpa using h)]

/-- The cursor may move in any number of steps. -/
theorem advance_advance (h : s ≤ t) : advance (advance es s) t = advance es t := by
  induction es with
  | nil => rfl
  | cons e es ih =>
    by_cases hs : e.stop ≤ s
    · rw [advance_cons_of_le hs, ih, advance_cons_of_le (hs.trans h)]
    · rw [advance_cons_of_lt (not_le.1 hs)]

/-- The cursor stands before the end of its first extent. -/
theorem lt_stop_of_advance {rest : List Extent} (h : advance es s = e :: rest) : s < e.stop := by
  induction es with
  | nil => cases h
  | cons f es ih =>
    by_cases hs : f.stop ≤ s
    · rw [advance_cons_of_le hs] at h
      exact ih h
    · rw [advance_cons_of_lt (not_le.1 hs)] at h
      cases h
      exact not_le.1 hs

/-- **The cursor finds what the search finds.** -/
theorem find_advance (hs : Sorted es) :
    find es s = match advance es s with
      | [] => none
      | e :: _ => if e.start ≤ s then some e else none := by
  induction es with
  | nil => rfl
  | cons e es ih =>
    obtain ⟨he, hrest⟩ := List.pairwise_cons.1 hs
    by_cases hstop : e.stop ≤ s
    · rw [advance_cons_of_le hstop, find_cons_of_not fun hh => absurd hh.2 (not_lt.2 hstop), ih hrest]
    · rw [advance_cons_of_lt (not_le.1 hstop)]
      dsimp only
      by_cases hstart : e.start ≤ s
      · rw [if_pos hstart, find_cons_of_has ⟨hstart, not_le.1 hstop⟩]
      · rw [if_neg hstart, find_none_iff]
        intro f hf hh
        have h1 := hh.1
        rcases List.mem_cons.1 hf with rfl | hf
        · exact hstart h1
        · have hle := he f hf
          have : e.start ≤ e.stop := Nat.le_add_right _ _
          omega

/-! ## Where the data of a unit is -/

/-- The place of the data of `s`, `width` for each unit. -/
def place (width : ℕ) (es : List Extent) (s : ℕ) : Option ℕ :=
  (find es s).map fun e => e.offset + (s - e.start) * width

variable {width : ℕ} {fs : List Extent}

theorem find_append : find (es ++ fs) s = (find es s).or (find fs s) := List.find?_append

theorem place_append : place width (es ++ fs) s = (place width es s).or (place width fs s) := by
  rw [place, find_append]
  cases h : find es s with
  | none => rw [Option.none_or, place, h, Option.map_none, Option.none_or, place]
  | some e => rw [Option.some_or, place, h, Option.map_some, Option.some_or]

theorem place_singleton :
    place width [e] s = if e.Has s then some (e.offset + (s - e.start) * width) else none := by
  by_cases h : e.Has s
  · rw [if_pos h, place, find_cons_of_has h, Option.map_some]
  · rw [if_neg h, place, find_cons_of_not h]
    rfl

theorem place_none (h : ∀ e ∈ es, e.stop ≤ s) : place width es s = none := by
  rw [place, find_none_iff.2 fun e he hh => absurd hh.2 (not_lt.2 (h e he)), Option.map_none]

end Sparse
