import Mathlib.Algebra.Order.Group.Unbundled.Basic
import Mathlib.Data.List.Induction
import Mathlib.Tactic.Common

/-!
# Single and double presses

Presses of one button, by their times.  A press that comes no later than a given time after a press
that stands alone makes a double press of the two.

* `gestures` — the presses, grouped.
* `gestures_times` — each press belongs to one gesture.
* `push_late`, `push_soon` — what one more press does.
* `Paired` — reports of a gesture come in pairs, the last of which may be open.
-/

namespace Gestures

inductive Gesture (T : Type*) where
  | single (t : T)
  | double (t u : T)

variable {T : Type*}

namespace Gesture

def times : Gesture T → List T
  | single t => [t]
  | double t u => [t, u]

def isDouble : Gesture T → Bool
  | single _ => false
  | double _ _ => true

/-- The time after which no press changes the gesture. -/
def due [Add T] (d : T) : Gesture T → T
  | single t => t + d
  | double _ u => u

end Gesture

section Grouping

variable [LinearOrder T] [Add T]

/-- One more press, at a time `t`. -/
def push (d : T) (gs : List (Gesture T)) (t : T) : List (Gesture T) :=
  match gs.getLast? with
  | some (.single u) => if t ≤ u + d then gs.dropLast ++ [.double u t] else gs ++ [.single t]
  | _ => gs ++ [.single t]

/-- The presses, grouped. -/
def gestures (d : T) (presses : List T) : List (Gesture T) := presses.foldl (push d) []

variable {d t u : T} {gs : List (Gesture T)}

theorem push_soon (h : t ≤ u + d) : push d (gs ++ [.single u]) t = gs ++ [.double u t] := by
  simp [push, h]

theorem push_late (h : ∀ g ∈ gs.getLast?, g.due d < t) : push d gs t = gs ++ [.single t] := by
  unfold push
  cases hlast : gs.getLast? with
  | none => rfl
  | some g =>
    cases g with
    | double u v => rfl
    | single u =>
      rw [hlast] at h
      exact if_neg (not_le.mpr (h (.single u) rfl))

theorem gestures_concat (presses : List T) :
    gestures d (presses ++ [t]) = push d (gestures d presses) t := by
  simp [gestures]

theorem push_times : (push d gs t).flatMap Gesture.times = gs.flatMap Gesture.times ++ [t] := by
  unfold push
  split
  next u hlast =>
    split
    · obtain ⟨gs', rfl⟩ := List.getLast?_eq_some_iff.mp hlast
      simp [Gesture.times]
    · simp [Gesture.times]
  · simp [Gesture.times]

/-- **Each press belongs to one gesture**, in the order of the presses. -/
theorem gestures_times (presses : List T) :
    (gestures d presses).flatMap Gesture.times = presses := by
  induction presses using List.reverseRecOn with
  | nil => rfl
  | append_singleton presses t ih => rw [gestures_concat, push_times, ih]

end Grouping

/-! ## Reports -/

/-- A report of a press or a release, of a double press or not. -/
structure Report where
  double : Bool
  down : Bool
  deriving DecidableEq

/-- The reports come in pairs, the last of which may be open. -/
def Paired : List Report → Bool
  | [] => true
  | [r] => r.down
  | r :: r' :: rs => r.down && !r'.down && r.double = r'.double && Paired rs

/-- The reports of a whole gesture. -/
def Gesture.pair (g : Gesture T) : List Report := [⟨g.isDouble, true⟩, ⟨g.isDouble, false⟩]

theorem paired_pairs (gs : List (Gesture T)) (rs : List Report) :
    Paired (gs.flatMap Gesture.pair ++ rs) = Paired rs := by
  induction gs with
  | nil => rfl
  | cons g gs ih => simp [Gesture.pair, Paired, ih]

end Gestures
