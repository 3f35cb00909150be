import Mathlib.Data.List.Basic
import Mathlib.Data.List.Nodup
import Mathlib.Data.List.Range
import Mathlib.Tactic.Common

/-!
# Presses and releases

Traces of presses and releases of keys, where each release has to go with one press that no
earlier release goes with.

* `edges` — the presses and releases of one key.
* `unreleased` — how many presses are left, if every release has one.
* `pressed` — the same for a key of a trace.
* `toggled` — whether a key is down at the end, if its presses and releases take turns.
* `edges_loop`, `edges_firsts`, `edges_range` — what loops over keys do.
-/

namespace Presses

variable {α : Type*} [DecidableEq α]

/-- The presses (`true`) and releases (`false`) of a key. -/
def edges (x : α) (trace : List (α × Bool)) : List Bool :=
  (trace.filter fun e => e.1 = x).map Prod.snd

/-- The presses that no release goes with, after some such presses. -/
def unreleased : ℕ → List Bool → Option ℕ
  | n, [] => some n
  | n, true :: es => unreleased (n + 1) es
  | 0, false :: _ => none
  | n + 1, false :: es => unreleased n es

/-- The presses of a key that no release goes with, if every release goes with one press. -/
def pressed (x : α) (trace : List (α × Bool)) : Option ℕ := unreleased 0 (edges x trace)

variable {x : α} {trace trace' : List (α × Bool)} {n k : ℕ} {es es' : List Bool}

@[simp] theorem edges_nil : edges x [] = [] := rfl

@[simp] theorem edges_append : edges x (trace ++ trace') = edges x trace ++ edges x trace' := by
  simp [edges]

theorem edges_singleton (y : α) (down : Bool) :
    edges x [(y, down)] = if y = x then [down] else [] := by
  by_cases h : y = x <;> simp [edges, h]

theorem edges_eq_nil (h : ∀ e ∈ trace, e.1 ≠ x) : edges x trace = [] := by
  rw [edges, List.filter_eq_nil_iff.2 fun e he => by simpa using h e he, List.map_nil]

@[simp] theorem unreleased_nil : unreleased n [] = some n := by cases n <;> rfl

theorem unreleased_append :
    unreleased n (es ++ es') = (unreleased n es).bind fun m => unreleased m es' := by
  induction es generalizing n with
  | nil => simp
  | cons e es ih =>
    cases e with
    | true => simpa only [List.cons_append, unreleased] using ih
    | false =>
      cases n with
      | zero => rfl
      | succ n => simpa only [List.cons_append, unreleased] using ih

/-- Releases only. -/
theorem unreleased_replicate (h : k ≤ n) :
    unreleased n (List.replicate k false) = some (n - k) := by
  induction k generalizing n with
  | zero => simp
  | succ k ih =>
    cases n with
    | zero => omega
    | succ n => rw [List.replicate_succ, unreleased, ih (by omega), Nat.add_sub_add_right]

/-- More releases than presses. -/
theorem unreleased_replicate_of_lt (h : n < k) :
    unreleased n (List.replicate k false) = none := by
  induction k generalizing n with
  | zero => omega
  | succ k ih =>
    cases n with
    | zero => rfl
    | succ n => exact ih (by omega)

theorem pressed_append (h : pressed x trace = some n) :
    pressed x (trace ++ trace') = unreleased n (edges x trace') := by
  rw [pressed, edges_append, unreleased_append]
  rw [pressed] at h
  rw [h, Option.bind_some]

/-! ## Taking turns -/

/-- Whether a key is down after some presses and releases, if they take turns. -/
def toggled : Bool → List Bool → Option Bool
  | down, [] => some down
  | down, e :: es => if e = down then none else toggled e es

@[simp] theorem toggled_nil (down : Bool) : toggled down [] = some down := rfl

theorem toggled_append (down : Bool) :
    toggled down (es ++ es') = (toggled down es).bind fun d => toggled d es' := by
  induction es generalizing down with
  | nil => rfl
  | cons e es ih =>
    rw [List.cons_append, toggled, toggled]
    split
    · rfl
    · exact ih e

/-! ## Loops over keys -/

variable {β : Type*} {down : Bool}

/-- A loop that has an event for every key with a property. -/
theorem edges_loop (f : β → α) (P : α → Prop) [DecidablePred P] (down : Bool) (is : List β) :
    edges x (is.flatMap fun i => if P (f i) then [(f i, down)] else []) =
      if P x then List.replicate (is.countP fun i => f i = x) down else [] := by
  induction is with
  | nil => simp
  | cons i is ih =>
    rw [List.flatMap_cons, edges_append, ih, List.countP_cons]
    by_cases hx : f i = x
    · rw [hx]
      by_cases hP : P x
      · rw [if_pos hP, if_pos hP, edges_singleton, if_pos rfl, if_pos hP, decide_eq_true rfl,
          if_pos rfl, List.replicate_succ, List.singleton_append]
      · rw [if_neg hP, if_neg hP, if_neg hP, edges_nil, List.nil_append]
    · have hskip : edges x (if P (f i) then [(f i, down)] else []) = [] := by
        split
        · rw [edges_singleton, if_neg hx]
        · rfl
      rw [hskip, List.nil_append, decide_eq_false hx, if_neg Bool.false_ne_true, Nat.add_zero]

/-- A loop that has an event for every key with a property where it comes first. -/
theorem edges_firsts (f : ℕ → α) (P : α → Prop) [DecidablePred P] (down : Bool) (a k : ℕ) :
    edges x ((List.range' a k).flatMap fun i =>
        if P (f i) ∧ ((List.range' a (i - a)).any fun j => f j = f i) = false then [(f i, down)]
        else []) =
      if P x ∧ ((List.range' a k).any fun i => f i = x) = true then [down] else [] := by
  induction k with
  | zero => simp
  | succ k ih =>
    rw [List.range'_1_concat, List.flatMap_append, List.flatMap_singleton, edges_append, ih,
      List.any_append, Nat.add_sub_cancel_left]
    by_cases hx : f (a + k) = x
    · rw [hx]
      by_cases hP : P x
      · cases (List.range' a k).any fun i => f i = x <;> simp [hP, hx, edges_singleton]
      · simp [hP]
    · have hskip : edges x (if P (f (a + k)) ∧
          ((List.range' a k).any fun j => f j = f (a + k)) = false then [(f (a + k), down)]
          else []) = [] := by
        split
        · rw [edges_singleton, if_neg hx]
        · rfl
      have hlast : ([a + k].any fun i => decide (f i = x)) = false := by simp [hx]
      rw [hskip, List.append_nil, hlast, Bool.or_false]

/-- A loop whose rounds are about one key each, in the order of the keys. -/
theorem edges_range {u : ℕ} {g : ℕ → List (ℕ × Bool)} {l : ℕ → List Bool} (base : ℕ)
    (hg : ∀ i, edges u (g i) = if base + i = u then l i else []) (k : ℕ) :
    edges u ((List.range k).flatMap g) = if base ≤ u ∧ u < base + k then l (u - base) else [] := by
  induction k with
  | zero => rw [if_neg (by omega), List.range_zero, List.flatMap_nil, edges_nil]
  | succ k ih =>
    rw [List.range_succ, List.flatMap_append, List.flatMap_singleton, edges_append, ih, hg]
    by_cases hu : base + k = u
    · have hk : u - base = k := by omega
      rw [if_neg (by omega), if_pos hu, if_pos (by omega), List.nil_append, hk]
    · rw [if_neg hu, List.append_nil]
      by_cases hin : base ≤ u ∧ u < base + k
      · rw [if_pos hin, if_pos (by omega)]
      · rw [if_neg hin, if_neg (by omega)]

theorem mem_iff_edges {d : Bool} : (x, d) ∈ trace ↔ d ∈ edges x trace := by
  simp [edges]

/-- Events are different, if every key has at most one of each kind. -/
theorem nodup_iff_edges : trace.Nodup ↔ ∀ x down, (edges x trace).count down ≤ 1 := by
  have hcount : ∀ x down, (edges x trace).count down = trace.count (x, down) := by
    intro x down
    induction trace with
    | nil => rfl
    | cons e es ih =>
      obtain ⟨y, d⟩ := e
      rw [← List.singleton_append, edges_append, List.count_append, List.count_append, ih,
        edges_singleton]
      congr 1
      by_cases hy : y = x
      · subst hy
        simp [List.count_singleton]
      · simp [hy]
  rw [List.nodup_iff_count_le_one]
  constructor
  · intro h x down
    rw [hcount]
    exact h (x, down)
  · rintro h ⟨x, down⟩
    rw [← hcount]
    exact h x down

end Presses
