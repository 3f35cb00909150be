import Mathlib.Algebra.Order.Group.Nat
import Mathlib.Data.List.Basic

/-!
# Patterns with stars

A pattern is a list of symbols; a star stands for any sequence, every other symbol for one item that
passes its test. A matcher that goes from left to right need only remember the last star.

* `Matches` — the meaning of a pattern.
* `drop_of_matches` — what a part without stars takes is as long as the part.
* `later_succ`, `later_star`, `later_end` — what is left to try behind the last star: after a
  failure, at the next star, and at the end.
-/

namespace ZealBringup.Glob

/-- A symbol of a pattern. -/
inductive Sym (α : Type*) where
  | star
  | one (test : α → Bool)

variable {α : Type*} {P R F D : List (Sym α)} {s : List α} {test : α → Bool}

/-- The items that a pattern describes. -/
def Matches : List (Sym α) → List α → Prop
  | [], s => s = []
  | .one test :: P, s => ∃ a t, s = a :: t ∧ test a ∧ Matches P t
  | .star :: P, s => ∃ k, Matches P (s.drop k)

/-- No symbol is a star. -/
def StarFree (F : List (Sym α)) : Prop := ∀ x ∈ F, ∃ test, x = .one test

@[simp] theorem matches_nil : Matches [] s ↔ s = [] := Iff.rfl

@[simp] theorem matches_one_nil : ¬ Matches (.one test :: P) [] := by
  rintro ⟨a, t, h, -⟩
  exact List.cons_ne_nil a t h.symm

@[simp] theorem matches_one_cons {a : α} :
    Matches (.one test :: P) (a :: s) ↔ test a ∧ Matches P s := by
  constructor
  · rintro ⟨b, t, h, hb, ht⟩
    rw [List.cons.injEq] at h
    obtain ⟨rfl, rfl⟩ := h
    exact ⟨hb, ht⟩
  · rintro ⟨ha, hs⟩
    exact ⟨a, s, rfl, ha, hs⟩

theorem matches_star : Matches (.star :: P) s ↔ ∃ k, Matches P (s.drop k) := Iff.rfl

/-- At the end a star stands for nothing. -/
@[simp] theorem matches_star_nil : Matches (.star :: P) ([] : List α) ↔ Matches P [] := by
  simp [matches_star]

theorem matches_star_drop (r : ℕ) :
    Matches (.star :: P) (s.drop r) ↔ ∃ k ≥ r, Matches P (s.drop k) := by
  rw [matches_star]
  constructor
  · rintro ⟨k, hk⟩
    rw [List.drop_drop] at hk
    exact ⟨r + k, Nat.le_add_right r k, hk⟩
  · rintro ⟨k, hle, hk⟩
    refine ⟨k - r, ?_⟩
    rwa [List.drop_drop, Nat.add_sub_cancel' hle]

/-- **A part without stars takes as many items as it has symbols.** -/
theorem drop_of_matches (hF : StarFree F) (h : Matches (F ++ D) s) :
    F.length ≤ s.length ∧ Matches D (s.drop F.length) := by
  induction F generalizing s with
  | nil => simpa using h
  | cons x F ih =>
    obtain ⟨test, rfl⟩ := hF x List.mem_cons_self
    obtain ⟨a, t, rfl, -, ht⟩ := h
    have hrest := ih (fun y hy => hF y (List.mem_cons_of_mem _ hy)) ht
    simpa using hrest

/-! ## Behind the last star -/

variable {r : ℕ}

/-- A place that fails is behind. -/
theorem later_succ (hnot : ¬ Matches R (s.drop r)) :
    (∃ k ≥ r, Matches R (s.drop k)) ↔ ∃ k ≥ r + 1, Matches R (s.drop k) := by
  constructor
  · rintro ⟨k, hle, hk⟩
    refine ⟨k, Nat.lt_of_le_of_ne hle ?_, hk⟩
    rintro rfl
    exact hnot hk
  · rintro ⟨k, hle, hk⟩
    exact ⟨k, Nat.le_of_succ_le hle, hk⟩

/-- **The next star replaces the last.** The part between them is put as far left as it goes, and
what another place of it leaves for the rest, this place leaves too. -/
theorem later_star (hR : R = F ++ .star :: P) (hF : StarFree F)
    (hhere : Matches R (s.drop r) ↔ Matches (.star :: P) (s.drop (r + F.length))) :
    (∃ k ≥ r, Matches R (s.drop k)) ↔ ∃ k ≥ r + F.length, Matches P (s.drop k) := by
  rw [← matches_star_drop (r + F.length)]
  constructor
  · rintro ⟨k, hle, hk⟩
    rw [hR] at hk
    obtain ⟨-, hrest⟩ := drop_of_matches hF hk
    rw [List.drop_drop, matches_star_drop] at hrest
    obtain ⟨m, hm, hmatch⟩ := hrest
    rw [matches_star_drop]
    exact ⟨m, by omega, hmatch⟩
  · intro h
    exact ⟨r, le_refl r, hhere.mpr h⟩

/-- At the end the rest of the pattern has nothing left to take. -/
theorem later_end (hR : R = F ++ D) (hF : StarFree F) (hend : s.length ≤ r + F.length)
    (hhere : Matches R (s.drop r) ↔ Matches D []) :
    (∃ k ≥ r, Matches R (s.drop k)) ↔ Matches D [] := by
  constructor
  · rintro ⟨k, hle, hk⟩
    rw [hR] at hk
    obtain ⟨-, hrest⟩ := drop_of_matches hF hk
    rwa [List.drop_drop, List.drop_eq_nil_of_le (by omega)] at hrest
  · intro h
    exact ⟨r, le_refl r, hhere.mpr h⟩

end ZealBringup.Glob
