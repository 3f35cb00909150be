import Mathlib.Data.List.Basic

/-!
# A line with a cursor

A line under edit is the text before the cursor and the text after it.  A key either changes the
line or is refused.

* `EditLine.apply` — what a key does.
* `EditLine.apply_insert_eq_none` — only at the limit is what goes in refused.
-/

/-- The text before the cursor and the text after it. -/
@[ext]
structure EditLine (α : Type*) where
  before : List α
  after : List α

/-- What a key asks for. -/
inductive EditLine.Key (α : Type*) where
  | left
  | right
  | home
  | fin
  | delete
  | backspace
  | insert (x : α)

namespace EditLine

variable {α : Type*} {limit : ℕ} {e e' : EditLine α}

def text (e : EditLine α) : List α := e.before ++ e.after

/-- The line that a text replaces, with the cursor behind it. -/
def recalled (text : List α) : EditLine α := ⟨text, []⟩

def clear : EditLine α := ⟨[], []⟩

/-- What a key does; `none` where it is refused. -/
def apply (limit : ℕ) (e : EditLine α) : Key α → Option (EditLine α)
  | .left => e.before.getLast?.map fun x => ⟨e.before.dropLast, x :: e.after⟩
  | .right => e.after.head?.map fun x => ⟨e.before ++ [x], e.after.tail⟩
  | .home => if e.before = [] then none else some ⟨[], e.text⟩
  | .fin => if e.after = [] then none else some ⟨e.text, []⟩
  | .delete => if e.after = [] then none else some ⟨e.before, e.after.tail⟩
  | .backspace => if e.before = [] then none else some ⟨e.before.dropLast, e.after⟩
  | .insert x => if limit ≤ e.text.length then none else some ⟨e.before ++ [x], e.after⟩

@[simp] theorem text_recalled (l : List α) : (recalled l).text = l := List.append_nil l

@[simp] theorem text_clear : (clear : EditLine α).text = [] := rfl

theorem length_text (e : EditLine α) : e.text.length = e.before.length + e.after.length :=
  List.length_append

/-- A key that is refused only at the limit puts something in. -/
theorem apply_insert_eq_none {x : α} : e.apply limit (.insert x) = none ↔ limit ≤ e.text.length := by
  rw [apply]
  split <;> simp [*]

end EditLine
