import Mathlib

/-!
# Computations that check

A computation that checks what it is about to touch succeeds under a condition.  `Exactly`
says which condition that is and what it returns then; its rules put the condition of a
program together from those of its parts.

* `Exactly.bind`, `Exactly.bindOption`, `Exactly.bindExcept`, `Exactly.ite` — sequencing and
  branching.
* `Exactly.isOk_iff` — success is the condition.
* `Returns` — success alone.
* `Ends` — success with a property, or one of some errors.
* `Decides` — success with a property exactly under a condition, else one known error.
* `Upto` — the condition of a loop that may stop early.
-/

namespace Checked

universe u v

variable {ε : Type u} {α β : Type v} {x y : Except ε α} {P Q : Prop} {v w : α}

/-- `x` returns `v` if `P` holds, and fails otherwise. -/
structure Exactly (x : Except ε α) (P : Prop) (v : α) : Prop where
  ok : P → x = .ok v
  error : ¬P → ∃ e, x = .error e

theorem Exactly.pure (v : α) : Exactly (.ok v : Except ε α) True v :=
  ⟨fun _ => rfl, fun h => absurd trivial h⟩

theorem Exactly.fail (e : ε) (v : α) : Exactly (.error e) False v :=
  ⟨False.elim, fun _ => ⟨e, rfl⟩⟩

variable {f : α → Except ε β} {b : β}

/-- The second part only has to be looked at when the first one succeeds. -/
theorem Exactly.bind (hx : Exactly x P v) (hf : P → Exactly (f v) Q b) :
    Exactly (x >>= f) (P ∧ Q) b where
  ok := by
    rintro ⟨hP, hQ⟩
    rw [hx.ok hP]
    exact (hf hP).ok hQ
  error hno := by
    by_cases hP : P
    · rw [hx.ok hP]
      exact (hf hP).error fun hQ => hno ⟨hP, hQ⟩
    · obtain ⟨e, he⟩ := hx.error hP
      exact ⟨e, by rw [he]; rfl⟩

/-- A part whose condition is known to hold. -/
theorem Exactly.step (hx : Exactly x P v) (hP : P) (hf : Exactly (f v) Q b) :
    Exactly (x >>= f) Q b where
  ok hQ := by
    rw [hx.ok hP]
    exact hf.ok hQ
  error hno := by
    rw [hx.ok hP]
    exact hf.error hno

/-- A part that is known to fail. -/
theorem Exactly.stop (hx : Exactly x P v) (hP : ¬P) (b : β) :
    Exactly (x >>= f) False b where
  ok := False.elim
  error _ := by
    obtain ⟨e, he⟩ := hx.error hP
    exact ⟨e, by rw [he]; rfl⟩

theorem Exactly.ite {c : Prop} [Decidable c] (hx : c → Exactly x P v) (hy : ¬c → Exactly y P v) :
    Exactly (if c then x else y) P v := by
  by_cases hc : c
  · rw [if_pos hc]
    exact hx hc
  · rw [if_neg hc]
    exact hy hc

/-- The condition and the value may be replaced by others that are the same. -/
theorem Exactly.congr (h : Exactly x P v) (hPQ : P ↔ Q) (hvw : Q → v = w) : Exactly x Q w where
  ok hQ := by rw [h.ok (hPQ.2 hQ), hvw hQ]
  error hno := h.error fun hP => hno (hPQ.1 hP)

/-- A part that may have nothing to return. -/
theorem Exactly.bindOption {x : Except ε (Option α)} {v : Option α} {f : Option α → Except ε β}
    {Q : α → Prop} (hx : Exactly x P v) (hnone : v = none → Exactly (f none) True b)
    (hsome : P → ∀ a, v = some a → Exactly (f (some a)) (Q a) b) :
    Exactly (x >>= f) (P ∧ ∀ a, v = some a → Q a) b := by
  refine hx.bind fun hP => ?_
  cases hv : v with
  | none => exact (hnone hv).congr (by simp) fun _ => rfl
  | some a => exact (hsome hP a hv).congr (by simp) fun _ => rfl

/-- A part that may return an error of its own. -/
theorem Exactly.bindExcept {δ : Type v} {x : Except ε (Except δ α)} {v : Except δ α}
    {f : Except δ α → Except ε β} {Q : α → Prop} (hx : Exactly x P v)
    (herror : ∀ e, v = .error e → Exactly (f (.error e)) True b)
    (hok : P → ∀ a, v = .ok a → Exactly (f (.ok a)) (Q a) b) :
    Exactly (x >>= f) (P ∧ ∀ a, v = .ok a → Q a) b := by
  refine hx.bind fun hP => ?_
  cases hv : v with
  | error e => exact (herror e hv).congr (by simp) fun _ => rfl
  | ok a => exact (hok hP a hv).congr (by simp) fun _ => rfl

theorem Exactly.isOk_iff (h : Exactly x P v) : (∃ a, x = .ok a) ↔ P := by
  constructor
  · rintro ⟨a, ha⟩
    by_contra hno
    obtain ⟨e, he⟩ := h.error hno
    rw [he] at ha
    cases ha
  · exact fun hP => ⟨v, h.ok hP⟩

/-! ## Computations that return -/

/-- `x` returns something with the property. -/
def Returns (x : Except ε α) (R : α → Prop) : Prop := ∃ a, x = .ok a ∧ R a

variable {R : α → Prop}

theorem Returns.pure (h : R v) : Returns (.ok v : Except ε α) R := ⟨v, rfl, h⟩

theorem Returns.bind {S : β → Prop} (hx : Returns x R) (hf : ∀ a, R a → Returns (f a) S) :
    Returns (x >>= f) S := by
  obtain ⟨a, rfl, ha⟩ := hx
  exact hf a ha

theorem Returns.ite {c : Prop} [Decidable c] (hx : c → Returns x R) (hy : ¬c → Returns y R) :
    Returns (if c then x else y) R := by
  by_cases hc : c
  · rw [if_pos hc]
    exact hx hc
  · rw [if_neg hc]
    exact hy hc

theorem Exactly.returns (h : Exactly x P v) (hP : P) : Returns x (· = v) := ⟨v, h.ok hP, rfl⟩

/-! ## Computations that may fail -/

/-- `x` returns something with the property, or stops in one of the errors. -/
def Ends (E : ε → Prop) (x : Except ε α) (R : α → Prop) : Prop :=
  match x with
  | .ok a => R a
  | .error e => E e

section Ends

variable {E : ε → Prop} {R R' : α → Prop} {S : β → Prop} {f : α → Except ε β}

theorem Ends.ok (h : R v) : Ends E (.ok v) R := h

theorem Ends.error {e : ε} (h : E e) : Ends E (.error e : Except ε α) R := h

theorem Ends.imp (hx : Ends E x R) (h : ∀ a, R a → R' a) : Ends E x R' := by
  cases x with
  | ok a => exact h a hx
  | error e => exact hx

theorem Ends.bind (hx : Ends E x R) (hf : ∀ a, R a → Ends E (f a) S) : Ends E (x >>= f) S := by
  cases x with
  | ok a => exact hf a hx
  | error e => exact hx

theorem Ends.ite {c : Prop} [Decidable c] (hx : c → Ends E x R) (hy : ¬c → Ends E y R) :
    Ends E (if c then x else y) R := by
  by_cases hc : c
  · rw [if_pos hc]
    exact hx hc
  · rw [if_neg hc]
    exact hy hc

end Ends

/-! ## Computations that refuse -/

theorem ok_bind (a : α) (f : α → Except ε β) : (Except.ok a >>= f) = f a := rfl

/-- `x` returns something with the property if `P` holds, and stops with `e` otherwise. -/
def Decides (e : ε) (x : Except ε α) (P : Prop) (R : α → Prop) : Prop :=
  (P ∧ ∃ a, x = .ok a ∧ R a) ∨ (¬P ∧ x = .error e)

section Decides

variable {e : ε} {R R' : α → Prop} {S : β → Prop} {f : α → Except ε β}

theorem Decides.pure (h : R v) : Decides e (.ok v) True R := .inl ⟨trivial, v, rfl, h⟩

theorem Decides.refuse (R : α → Prop) : Decides e (.error e) False R := .inr ⟨not_false, rfl⟩

theorem Decides.congr (h : Decides e x P R) (hPQ : P ↔ Q) : Decides e x Q R := by
  rcases h with ⟨hP, h⟩ | ⟨hP, h⟩
  · exact .inl ⟨hPQ.mp hP, h⟩
  · exact .inr ⟨fun hQ => hP (hPQ.mpr hQ), h⟩

theorem Decides.imp (h : Decides e x P R) (hR : P → ∀ a, R a → R' a) : Decides e x P R' := by
  rcases h with ⟨hP, a, hx, ha⟩ | h
  · exact .inl ⟨hP, a, hx, hR hP a ha⟩
  · exact .inr h

/-- The condition of a sequence is that of the first part, and that of the second one at what the
first one returns. -/
theorem Decides.bind (hx : Decides e x P R) (hf : P → ∀ a, R a → Decides e (f a) Q S) :
    Decides e (x >>= f) (P ∧ Q) S := by
  rcases hx with ⟨hP, a, rfl, ha⟩ | ⟨hP, rfl⟩
  · exact (hf hP a ha).congr (and_iff_right hP).symm
  · exact .inr ⟨fun h => hP h.1, rfl⟩

theorem Decides.ite {c : Prop} [Decidable c] (hx : c → Decides e x P R)
    (hy : ¬c → Decides e y P R) : Decides e (if c then x else y) P R := by
  by_cases hc : c
  · rw [if_pos hc]
    exact hx hc
  · rw [if_neg hc]
    exact hy hc

/-- A test that refuses. -/
theorem Decides.guard {c : Prop} [Decidable c] (hx : ¬c → Decides e x P R) :
    Decides e (if c then .error e else x) (¬c ∧ P) R := by
  by_cases hc : c
  · rw [if_pos hc]
    exact (Decides.refuse R).congr (iff_of_false not_false fun h => h.1 hc)
  · rw [if_neg hc]
    exact (hx hc).congr (and_iff_right hc).symm

/-- There is only one computation with a given condition and a given value. -/
theorem Decides.unique (hx : Decides e x P (· = v)) (hy : Decides e y P (· = v)) : x = y := by
  rcases hx with ⟨hP, a, rfl, rfl⟩ | ⟨hP, rfl⟩
  · rcases hy with ⟨-, b, rfl, rfl⟩ | ⟨hno, -⟩
    · rfl
    · exact absurd hP hno
  · rcases hy with ⟨hyes, -⟩ | ⟨-, rfl⟩
    · exact absurd hyes hP
    · rfl

/-- A run of steps each of which decides.  What a step needs may depend on the steps before it. -/
theorem Decides.foldlM {σ : Type v} {ι : Type*} {g : σ → ι → Except ε σ} {after : List ι → σ → Prop}
    {needs : List ι → ι → Prop} {pre l : List ι} {s : σ}
    (hstep : ∀ i ∈ l, ∀ u s, after u s → Decides e (g s i) (needs u i) (after (u ++ [i])))
    (hs : after pre s) :
    Decides e (l.foldlM g s) (∀ u i w, l = u ++ i :: w → needs (pre ++ u) i) (after (pre ++ l)) := by
  induction l generalizing pre s with
  | nil =>
    rw [List.foldlM_nil, List.append_nil]
    exact (Decides.pure hs).congr (iff_of_true trivial fun u i w h => by cases u <;> cases h)
  | cons i l ih =>
    rw [List.foldlM_cons, List.append_cons]
    refine ((hstep i List.mem_cons_self pre s hs).bind fun _ t ht =>
      ih (fun j hj => hstep j (List.mem_cons_of_mem _ hj)) ht).congr ⟨?_, fun h => ⟨?_, ?_⟩⟩
    · rintro ⟨hi, hrest⟩ u j w heq
      cases u with
      | nil =>
        cases heq
        rwa [List.append_nil]
      | cons k u =>
        cases heq
        have hnext := hrest u j w rfl
        rwa [List.append_assoc] at hnext
    · have hfirst := h [] i l rfl
      rwa [List.append_nil] at hfirst
    · rintro u j w rfl
      have hnext := h (i :: u) j w rfl
      rwa [List.append_assoc]

end Decides

/-! ## Loops that stop early -/

section Upto

variable {ι : Type*} {stop P Q : ι → Prop}

/-- `P` holds of the indices of the list up to the first one that stops the loop. -/
def Upto (stop P : ι → Prop) : List ι → Prop
  | [] => True
  | a :: l => P a ∧ (¬stop a → Upto stop P l)

theorem Upto.of_forall {l : List ι} (h : ∀ a ∈ l, P a) : Upto stop P l := by
  induction l with
  | nil => trivial
  | cons a l ih =>
    exact ⟨h a List.mem_cons_self, fun _ => ih fun b hb => h b (List.mem_cons_of_mem _ hb)⟩

/-- For consecutive numbers: `P` holds of each one that no stop comes before. -/
theorem upto_range' {stop P : ℕ → Prop} {i n : ℕ} :
    Upto stop P (List.range' i n) ↔
      ∀ j, i ≤ j → j < i + n → (∀ k, i ≤ k → k < j → ¬stop k) → P j := by
  induction n generalizing i with
  | zero =>
    refine iff_of_true trivial fun j h1 h2 => ?_
    omega
  | succ n ih =>
    rw [List.range'_succ, Upto, ih]
    constructor
    · rintro ⟨hi, hrest⟩ j h1 h2 hno
      rcases Nat.eq_or_lt_of_le h1 with rfl | hlt
      · exact hi
      · exact hrest (hno i (le_refl _) hlt) j hlt (by omega) fun k hk => hno k (by omega)
    · intro h
      refine ⟨h i (le_refl _) (by omega) fun k h1 h2 => ?_, fun hi j h1 h2 hno => ?_⟩
      · omega
      · refine h j (by omega) (by omega) fun k hk hkj => ?_
        rcases Nat.eq_or_lt_of_le hk with rfl | hlt
        · exact hi
        · exact hno k hlt hkj

theorem upto_range {stop P : ℕ → Prop} {n : ℕ} :
    Upto stop P (List.range' 0 n) ↔ ∀ j < n, (∀ k < j, ¬stop k) → P j := by
  rw [upto_range']
  simp

end Upto

end Checked
