import Mathlib.Data.List.TakeWhile
import Mathlib.Data.List.DropRight

/-!
# Runs at the beginning of a list

A scanner takes the longest run of elements with a property off the front of a list.  The run
is known where the list is cut into elements that have the property and a rest that stops it.

* `Stops` — the rest does.
* `takeWhile_run`, `dropWhile_run`, `rdropWhile_run` — the run, and what is behind it.
* `takeWhile_before`, `dropWhile_before` — a rest that stops the run plays no part in it.
-/

namespace Runs

variable {α : Type*} {f : α → Bool} {l r t : List α} {c : α}

/-- The list does not go on with the property. -/
def Stops (f : α → Bool) (t : List α) : Prop := ∀ c ∈ t.head?, f c = false

@[simp] theorem stops_nil : Stops f [] := fun _ h => by cases h

@[simp] theorem stops_cons : Stops f (c :: t) ↔ f c = false := by
  simp [Stops]

theorem Stops.front (h : Stops f l) (hr : r <+: l) : Stops f r := by
  obtain ⟨t, rfl⟩ := hr
  cases r with
  | nil => exact stops_nil
  | cons c r => exact stops_cons.mpr (stops_cons.mp h)

theorem Stops.append (h : Stops f r) (hne : r ≠ []) (t : List α) : Stops f (r ++ t) := by
  obtain ⟨c, r, rfl⟩ := List.exists_cons_of_ne_nil hne
  exact stops_cons.mpr (stops_cons.mp h)

theorem stops_dropWhile (f : α → Bool) (l : List α) : Stops f (l.dropWhile f) := by
  intro c hc
  have hnot := List.head?_dropWhile_not f l
  rw [Option.mem_def.mp hc] at hnot
  simpa using hnot

theorem dropWhile_of_stops (h : Stops f t) : t.dropWhile f = t := by
  cases t with
  | nil => rfl
  | cons c t => rw [List.dropWhile_cons, if_neg (by rw [stops_cons.mp h]; exact Bool.false_ne_true)]

theorem takeWhile_of_stops (h : Stops f t) : t.takeWhile f = [] := by
  cases t with
  | nil => rfl
  | cons c t => rw [List.takeWhile_cons, if_neg (by rw [stops_cons.mp h]; exact Bool.false_ne_true)]

theorem dropWhile_run (hr : ∀ x ∈ r, f x) (ht : Stops f t) : (r ++ t).dropWhile f = t := by
  rw [List.dropWhile_append_of_pos hr, dropWhile_of_stops ht]

theorem takeWhile_run (hr : ∀ x ∈ r, f x) (ht : Stops f t) : (r ++ t).takeWhile f = r := by
  rw [List.takeWhile_append_of_pos hr, takeWhile_of_stops ht, List.append_nil]

theorem dropWhile_before (ht : Stops f t) (l : List α) :
    (l ++ t).dropWhile f = l.dropWhile f ++ t := by
  induction l with
  | nil => exact dropWhile_of_stops ht
  | cons c l ih =>
    rw [List.cons_append, List.dropWhile_cons, List.dropWhile_cons, ih]
    split <;> rfl

theorem takeWhile_before (ht : Stops f t) (l : List α) : (l ++ t).takeWhile f = l.takeWhile f := by
  induction l with
  | nil => exact takeWhile_of_stops ht
  | cons c l ih =>
    rw [List.cons_append, List.takeWhile_cons, List.takeWhile_cons, ih]

theorem all_of_takeWhile (f : α → Bool) (l : List α) : ∀ x ∈ l.takeWhile f, f x :=
  fun _ => List.mem_takeWhile_imp

/-- The run at the end. -/
theorem rdropWhile_run (hr : ∀ x ∈ r, f x) (ht : ∀ c ∈ t.getLast?, f c = false) :
    (t ++ r).rdropWhile f = t := by
  rw [List.rdropWhile, List.reverse_append, dropWhile_run, List.reverse_reverse]
  · exact fun x hx => hr x (List.mem_reverse.mp hx)
  · rwa [Stops, List.head?_reverse]

theorem exists_rdropWhile (f : α → Bool) (l : List α) :
    ∃ r, (∀ x ∈ r, f x) ∧ l = l.rdropWhile f ++ r :=
  ⟨l.rtakeWhile f, fun _ => List.mem_rtakeWhile_imp, List.rdropWhile_append_rtakeWhile.symm⟩

theorem getLast_rdropWhile (f : α → Bool) (l : List α) :
    ∀ c ∈ (l.rdropWhile f).getLast?, f c = false := by
  rw [List.rdropWhile, List.getLast?_reverse]
  exact stops_dropWhile f _

end Runs
