import Mathlib.Data.List.Basic
import Mathlib.Logic.Function.Basic

/-!
# Stores that publish

Memories of cells, and rows of stores whose last one publishes what the others have written.

* `Batch` — some stores with a property, and a last one.
* `Batch.cons_cases` — the next store is the last one, or has the property.
* `apply` — the memory after some stores.
-/

namespace Stores

variable {A V : Type*}

/-! ## Batches -/

/-- Some stores with a property, and a last one. -/
def Batch (Quiet : A × V → Prop) (last : A × V) (stores : List (A × V)) : Prop :=
  ∃ quiet, stores = quiet ++ [last] ∧ ∀ s ∈ quiet, Quiet s

variable {Quiet : A × V → Prop} {last s : A × V} {stores : List (A × V)}

theorem batch_append {quiet : List (A × V)} (h : ∀ s ∈ quiet, Quiet s) :
    Batch Quiet last (quiet ++ [last]) := ⟨quiet, rfl, h⟩

/-- The next store is the last one, or it is quiet and more of the batch is to come. -/
theorem Batch.cons_cases (h : Batch Quiet last (s :: stores)) :
    stores = [] ∧ s = last ∨ Quiet s ∧ Batch Quiet last stores := by
  obtain ⟨quiet, hstores, hquiet⟩ := h
  cases quiet with
  | nil =>
    obtain ⟨rfl, rfl⟩ := List.cons.inj hstores
    exact .inl ⟨rfl, rfl⟩
  | cons q quiet =>
    obtain ⟨rfl, rfl⟩ := List.cons.inj hstores
    exact .inr ⟨hquiet s List.mem_cons_self,
      quiet, rfl, fun s' hs' => hquiet s' (List.mem_cons_of_mem s hs')⟩

theorem Batch.ne_nil (h : Batch Quiet last stores) : stores ≠ [] := by
  obtain ⟨quiet, rfl, -⟩ := h
  simp

/-! ## Memories -/

variable [DecidableEq A]

/-- The memory after some stores. -/
def apply (mem : A → V) (stores : List (A × V)) : A → V :=
  stores.foldl (fun m s => Function.update m s.1 s.2) mem

@[simp] theorem apply_nil (mem : A → V) : apply mem [] = mem := rfl

@[simp] theorem apply_cons (mem : A → V) (s : A × V) (stores : List (A × V)) :
    apply mem (s :: stores) = apply (Function.update mem s.1 s.2) stores := rfl

theorem apply_append (mem : A → V) (xs ys : List (A × V)) :
    apply mem (xs ++ ys) = apply (apply mem xs) ys := List.foldl_append

/-- A cell that no store is about. -/
theorem apply_of_notMem {a : A} (h : ∀ s ∈ stores, s.1 ≠ a) (mem : A → V) :
    apply mem stores a = mem a := by
  induction stores generalizing mem with
  | nil => rfl
  | cons s stores ih =>
    rw [apply_cons, ih (fun s' hs' => h s' (List.mem_cons_of_mem s hs')),
      Function.update_of_ne (h s List.mem_cons_self).symm]

end Stores
