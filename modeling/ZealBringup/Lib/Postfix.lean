import Mathlib.Data.Nat.Notation
import Mathlib.Logic.Function.Basic
import Mathlib.Order.Basic

/-!
# Terms in postfix order

Terms over arbitrary operators, their postfix code, and a machine that runs the code on numbered slots:
an operand goes to the first slot that is free, and an operator leaves its result in the slot of its
first operand.

* `Term.depth` — the slots that a term needs.
* `run_code` — the code of a term leaves its value in the first free slot and nothing outside of the
  slots that it needs.
* `run_code_agree` — what it leaves in these does not depend on what was there.
* `Ops.Hom.value` — a homomorphism of operators carries values along.
-/

namespace Postfix

variable {L U B V W : Type*}

/-- Terms with leaves `L` and operators `U`, `B`. -/
inductive Term (L U B : Type*) where
  | leaf (l : L)
  | unary (u : U) (s : Term L U B)
  | binary (b : B) (s t : Term L U B)
  deriving DecidableEq

/-- An item of postfix code. -/
inductive Item (L U B : Type*) where
  | leaf (l : L)
  | unary (u : U)
  | binary (b : B)

/-- The postfix code of a term. -/
def Term.code : Term L U B → List (Item L U B)
  | .leaf l => [.leaf l]
  | .unary u s => s.code ++ [.unary u]
  | .binary b s t => s.code ++ (t.code ++ [.binary b])

/-- The slots that a term needs. -/
def Term.depth : Term L U B → ℕ
  | .leaf _ => 1
  | .unary _ s => s.depth
  | .binary _ s t => max s.depth (t.depth + 1)

/-- A meaning of the operators. -/
structure Ops (L U B V : Type*) where
  leaf : L → V
  unary : U → V → V
  binary : B → V → V → V

def Term.value (ops : Ops L U B V) : Term L U B → V
  | .leaf l => ops.leaf l
  | .unary u s => ops.unary u (s.value ops)
  | .binary b s t => ops.binary b (s.value ops) (t.value ops)

theorem Term.depth_pos (t : Term L U B) : 0 < t.depth := by
  induction t with
  | leaf l => exact Nat.zero_lt_one
  | unary u s ih => exact ih
  | binary b s t ihs iht =>
    rw [Term.depth]
    omega

/-! ## The machine -/

/-- The slots, and how many of them are in use. -/
structure Slots (V : Type*) where
  slot : ℕ → V
  height : ℕ

/-- What an item does. -/
def Item.step (ops : Ops L U B V) (s : Slots V) : Item L U B → Slots V
  | .leaf l => ⟨Function.update s.slot s.height (ops.leaf l), s.height + 1⟩
  | .unary u =>
    ⟨Function.update s.slot (s.height - 1) (ops.unary u (s.slot (s.height - 1))), s.height⟩
  | .binary b =>
    ⟨Function.update s.slot (s.height - 2)
      (ops.binary b (s.slot (s.height - 2)) (s.slot (s.height - 1))), s.height - 1⟩

/-- What some code does. -/
def run (ops : Ops L U B V) (s : Slots V) (code : List (Item L U B)) : Slots V :=
  code.foldl (Item.step ops) s

variable {ops : Ops L U B V}

theorem run_append (s : Slots V) (xs ys : List (Item L U B)) :
    run ops s (xs ++ ys) = run ops (run ops s xs) ys := List.foldl_append

/-- What the code of a term leaves of the slots. -/
structure Ran (ops : Ops L U B V) (t : Term L U B) (s s' : Slots V) : Prop where
  height : s'.height = s.height + 1
  value : s'.slot s.height = t.value ops
  below : ∀ k < s.height, s'.slot k = s.slot k
  above : ∀ k, s.height + t.depth ≤ k → s'.slot k = s.slot k

/-- **The code of a term** leaves its value in the first free slot, and needs as many as the term
says. -/
theorem run_code (t : Term L U B) (s : Slots V) : Ran ops t s (run ops s t.code) := by
  induction t generalizing s with
  | leaf l =>
    refine ⟨rfl, Function.update_self .., ?_, ?_⟩
    · intro k hk
      exact Function.update_of_ne (by omega) _ _
    · intro k hk
      rw [Term.depth] at hk
      exact Function.update_of_ne (by omega) _ _
  | unary u t ih =>
    have h := ih s
    rw [Term.code, run_append]
    generalize run ops s t.code = s₁ at h
    have hfirst : s₁.height - 1 = s.height := by
      rw [h.height]
      rfl
    show Ran ops (.unary u t) s (Item.step ops s₁ (.unary u))
    unfold Item.step
    dsimp only
    rw [hfirst, h.value]
    refine ⟨h.height, Function.update_self .., ?_, ?_⟩
    · intro k hk
      dsimp only
      rw [Function.update_of_ne (by omega)]
      exact h.below k hk
    · intro k hk
      rw [Term.depth] at hk
      have hpos := t.depth_pos
      dsimp only
      rw [Function.update_of_ne (by omega)]
      exact h.above k hk
  | binary b t u iht ihu =>
    have h₁ := iht s
    rw [Term.code, run_append, run_append]
    generalize run ops s t.code = s₁ at h₁
    have h₂ := ihu s₁
    generalize run ops s₁ u.code = s₂ at h₂
    have hheight : s₂.height = s.height + 2 := by
      rw [h₂.height, h₁.height]
    have hleft : s₂.slot s.height = t.value ops := by
      rw [h₂.below s.height (by rw [h₁.height]; omega), h₁.value]
    have hright : s₂.slot (s.height + 1) = u.value ops := by
      rw [← h₁.height]
      exact h₂.value
    show Ran ops (.binary b t u) s (Item.step ops s₂ (.binary b))
    unfold Item.step
    dsimp only
    rw [hheight, Nat.add_sub_cancel, Nat.add_sub_assoc (by omega), hleft, hright]
    refine ⟨rfl, Function.update_self .., ?_, ?_⟩
    · intro k hk
      dsimp only
      rw [Function.update_of_ne (by omega), h₂.below k (by rw [h₁.height]; omega)]
      exact h₁.below k hk
    · intro k hk
      rw [Term.depth] at hk
      have hpos := t.depth_pos
      have hk₂ : s₁.height + u.depth ≤ k := by
        rw [h₁.height]
        omega
      dsimp only
      rw [Function.update_of_ne (by omega), h₂.above k hk₂]
      exact h₁.above k (by omega)

/-- **What the code leaves in the slots that it needs** does not depend on what was there. -/
theorem run_code_agree (t : Term L U B) {s r : Slots V} (hheight : s.height = r.height) {k : ℕ}
    (hk : s.height ≤ k) (hlt : k < s.height + t.depth) :
    (run ops s t.code).slot k = (run ops r t.code).slot k := by
  induction t generalizing s r k with
  | leaf l =>
    rw [Term.depth] at hlt
    have hk : k = s.height := by omega
    have hs := (@run_code _ _ _ _ ops (.leaf l) s).value
    have hr := (@run_code _ _ _ _ ops (.leaf l) r).value
    rw [← hheight] at hr
    rw [hk, hs, hr]
  | unary u t ih =>
    by_cases hfirst : k = s.height
    · have hs := (@run_code _ _ _ _ ops (.unary u t) s).value
      have hr := (@run_code _ _ _ _ ops (.unary u t) r).value
      rw [← hheight] at hr
      rw [hfirst, hs, hr]
    · have hs := (@run_code _ _ _ _ ops t s).height
      have hr := (@run_code _ _ _ _ ops t r).height
      have hagree := ih hheight hk hlt
      rw [Term.code, run_append, run_append]
      show (Item.step ops _ (.unary u)).slot k = (Item.step ops _ (.unary u)).slot k
      unfold Item.step
      dsimp only
      rw [Function.update_of_ne (by omega), Function.update_of_ne (by omega)]
      exact hagree
  | binary b t u iht ihu =>
    by_cases hfirst : k = s.height
    · have hs := (@run_code _ _ _ _ ops (.binary b t u) s).value
      have hr := (@run_code _ _ _ _ ops (.binary b t u) r).value
      rw [← hheight] at hr
      rw [hfirst, hs, hr]
    · have hs₁ := @run_code _ _ _ _ ops t s
      have hr₁ := @run_code _ _ _ _ ops t r
      have hagree : k < s.height + t.depth →
          (run ops s t.code).slot k = (run ops r t.code).slot k := iht hheight hk
      rw [Term.code, run_append, run_append, run_append, run_append]
      generalize run ops s t.code = s₁ at hs₁ hagree
      generalize run ops r t.code = r₁ at hr₁ hagree
      have hs₂ := @run_code _ _ _ _ ops u s₁
      have hr₂ := @run_code _ _ _ _ ops u r₁
      have hheight₁ : s₁.height = r₁.height := by
        rw [hs₁.height, hr₁.height, hheight]
      have hboth : (run ops s₁ u.code).slot k = (run ops r₁ u.code).slot k := by
        by_cases hin : k < s₁.height + u.depth
        · exact ihu hheight₁ (by rw [hs₁.height]; omega) hin
        · have hout : s₁.height + u.depth ≤ k := by omega
          rw [hs₂.above k hout, hr₂.above k (by rw [← hheight₁]; exact hout)]
          apply hagree
          rw [hs₁.height] at hin
          rw [Term.depth] at hlt
          omega
      have hs := hs₂.height
      have hr := hr₂.height
      rw [hs₁.height] at hs
      rw [hr₁.height, ← hheight] at hr
      show (Item.step ops _ (.binary b)).slot k = (Item.step ops _ (.binary b)).slot k
      unfold Item.step
      dsimp only
      rw [Function.update_of_ne (by omega), Function.update_of_ne (by omega)]
      exact hboth

/-! ## Other meanings -/

/-- A map that carries the operators along. -/
structure Ops.Hom (ops : Ops L U B V) (ops' : Ops L U B W) (f : V → W) : Prop where
  leaf : ∀ l, f (ops.leaf l) = ops'.leaf l
  unary : ∀ u v, f (ops.unary u v) = ops'.unary u (f v)
  binary : ∀ b v w, f (ops.binary b v w) = ops'.binary b (f v) (f w)

theorem Ops.Hom.value {ops' : Ops L U B W} {f : V → W} (h : ops.Hom ops' f) (t : Term L U B) :
    f (t.value ops) = t.value ops' := by
  induction t with
  | leaf l => exact h.leaf l
  | unary u s ih =>
    rw [Term.value, h.unary, ih]
    rfl
  | binary b s t ihs iht =>
    rw [Term.value, h.binary, ihs, iht]
    rfl

end Postfix
