import Mathlib.Data.List.Basic
import Mathlib.Data.List.InsertIdx
import Mathlib.Algebra.BigOperators.Group.List.Basic
import Mathlib.Tactic.Ring

/-!
# A text as the list of its lines

A text over any alphabet with a separator `nl`.

* `splitLines` — the lines of a text.
* `Line` — a line where it stands in the text: what is before it, its body, its end, what follows.
* `Line.insert`, `Line.replace`, `Line.erase`, `splitLines_append_line` — edits of the text that are
  edits of the list.
-/

namespace ZealBringup.Lines

variable {α : Type*} [DecidableEq α] {nl : α}

/-- The lines of a text; a separator at its end begins no further line. -/
def splitLines (nl : α) : List α → List (List α)
  | [] => []
  | c :: cs =>
      if c = nl then [] :: splitLines nl cs
      else
        match splitLines nl cs with
        | [] => [[c]]
        | l :: ls => (c :: l) :: ls

/-- A text that a line can begin after: empty, or with a separator at its end. -/
def Closed (nl : α) (text : List α) : Prop := text = [] ∨ ∃ front, text = front ++ [nl]

omit [DecidableEq α] in
@[simp] theorem closed_nil : Closed nl ([] : List α) := .inl rfl

omit [DecidableEq α] in
@[simp] theorem closed_append_sep (text : List α) : Closed nl (text ++ [nl]) := .inr ⟨text, rfl⟩

@[simp] theorem splitLines_nil : splitLines nl ([] : List α) = [] := rfl

theorem splitLines_sep (text : List α) : splitLines nl (nl :: text) = [] :: splitLines nl text := by
  rw [splitLines, if_pos rfl]

variable {text : List α}

theorem splitLines_eq_nil : splitLines nl text = [] ↔ text = [] := by
  cases text with
  | nil => simp
  | cons c cs =>
    rw [splitLines]
    split_ifs
    · simp
    · split <;> simp

variable {line : List α}

/-- The text is cut after its first line. -/
theorem splitLines_line (h : nl ∉ line) (text : List α) :
    splitLines nl (line ++ nl :: text) = line :: splitLines nl text := by
  induction line with
  | nil => exact splitLines_sep text
  | cons c line ih =>
    obtain ⟨hc, hline⟩ := not_or.1 (mt List.mem_cons.2 h)
    rw [List.cons_append, splitLines, if_neg (Ne.symm hc), ih hline]

/-- The last line needs no separator. -/
theorem splitLines_last (h : nl ∉ line) (hne : line ≠ []) :
    splitLines nl line = [line] := by
  induction line with
  | nil => exact absurd rfl hne
  | cons c line ih =>
    obtain ⟨hc, hline⟩ := not_or.1 (mt List.mem_cons.2 h)
    rw [splitLines, if_neg (Ne.symm hc)]
    by_cases hnil : line = []
    · rw [hnil, splitLines]
    · rw [ih hline hnil]

theorem splitLines_append_sep (front text : List α) :
    splitLines nl (front ++ nl :: text) = splitLines nl (front ++ [nl]) ++ splitLines nl text := by
  induction front with
  | nil => rw [List.nil_append, List.nil_append, splitLines_sep, splitLines_sep]; rfl
  | cons c front ih =>
    rw [List.cons_append, List.cons_append, splitLines, splitLines, ih]
    split_ifs
    · rfl
    · have hne : splitLines nl (front ++ [nl]) ≠ [] := by simp [splitLines_eq_nil]
      obtain ⟨l, ls, hls⟩ := List.exists_cons_of_ne_nil hne
      rw [hls]
      rfl

/-- Lines of the two parts, where the first is closed. -/
theorem Closed.splitLines_append {front : List α} (h : Closed nl front) (text : List α) :
    splitLines nl (front ++ text) = splitLines nl front ++ splitLines nl text := by
  rcases h with rfl | ⟨front, rfl⟩
  · rfl
  · rw [List.append_assoc]
    exact splitLines_append_sep front text

/-- A separator after an open last line adds no line. -/
theorem splitLines_close (h : ¬Closed nl text) :
    splitLines nl (text ++ [nl]) = splitLines nl text := by
  induction text with
  | nil => exact absurd closed_nil h
  | cons c text ih =>
    rw [List.cons_append, splitLines, splitLines]
    by_cases hclosed : Closed nl text
    · rcases hclosed with rfl | ⟨front, rfl⟩
      · have hc : c ≠ nl := fun hc => h (.inr ⟨[], by rw [hc]; rfl⟩)
        rw [if_neg hc, if_neg hc, List.nil_append, splitLines_sep]
        rfl
      · exact absurd (.inr ⟨c :: front, rfl⟩) h
    · rw [ih hclosed]

omit [DecidableEq α] in
theorem insertIdx_append (front ls : List (List α)) (line : List α) :
    (front ++ ls).insertIdx front.length line = front ++ line :: ls := by
  induction front with
  | nil => rfl
  | cons l front ih => rw [List.cons_append, List.length_cons, List.insertIdx_succ_cons, ih]; rfl

/-! ## A line in its place -/

/-- The line of index `n` of `text`, with the text before it, its separator and the text behind. -/
structure Line (nl : α) (text : List α) (n : ℕ) (front body stop rest : List α) : Prop where
  text_eq : text = front ++ (body ++ stop) ++ rest
  closed : Closed nl front
  count : (splitLines nl front).length = n
  body_sep : nl ∉ body
  stop_eq : stop = [nl] ∨ stop = [] ∧ rest = [] ∧ body ≠ []

namespace Line

variable {text front body stop rest : List α} {n : ℕ}

theorem splitLines_body (h : Line nl text n front body stop rest) :
    splitLines nl (body ++ stop ++ rest) = body :: splitLines nl rest := by
  rcases h.stop_eq with hstop | ⟨hstop, hrest, hne⟩
  · rw [hstop, List.append_assoc]
    exact splitLines_line h.body_sep rest
  · rw [hstop, hrest, List.append_nil, List.append_nil, splitLines_last h.body_sep hne]
    rfl

theorem splitLines_eq (h : Line nl text n front body stop rest) :
    splitLines nl text = splitLines nl front ++ body :: splitLines nl rest := by
  rw [h.text_eq, List.append_assoc, h.closed.splitLines_append, h.splitLines_body]

theorem getElem? (h : Line nl text n front body stop rest) : (splitLines nl text)[n]? = some body := by
  rw [h.splitLines_eq, List.getElem?_append_right (le_of_eq h.count), h.count, Nat.sub_self]
  rfl

theorem lt_length (h : Line nl text n front body stop rest) : n < (splitLines nl text).length := by
  rw [h.splitLines_eq, List.length_append, List.length_cons, h.count]
  omega

/-- The text up to the end of the line. -/
theorem upTo (h : Line nl text n front body stop rest) :
    Line nl (front ++ (body ++ stop)) n front body stop [] where
  text_eq := (List.append_nil _).symm
  closed := h.closed
  count := h.count
  body_sep := h.body_sep
  stop_eq := h.stop_eq.imp_right fun hlast => ⟨hlast.1, rfl, hlast.2.2⟩

/-- One line in front of this one. -/
theorem insert (h : Line nl text n front body stop rest) {line : List α} (hline : nl ∉ line) :
    splitLines nl (front ++ (line ++ [nl]) ++ (body ++ stop ++ rest)) =
      (splitLines nl text).insertIdx n line := by
  rw [List.append_assoc, h.closed.splitLines_append, List.append_assoc, List.singleton_append,
    splitLines_line hline, h.splitLines_body, h.splitLines_eq, ← h.count, insertIdx_append]

/-- Another line in the place of this one. -/
theorem replace (h : Line nl text n front body stop rest) {line : List α} (hline : nl ∉ line) :
    splitLines nl (front ++ (line ++ [nl]) ++ rest) = (splitLines nl text).set n line := by
  rw [List.append_assoc, h.closed.splitLines_append, List.append_assoc, List.singleton_append,
    splitLines_line hline, h.splitLines_eq, List.set_append_right _ _ (le_of_eq h.count), h.count,
    Nat.sub_self, List.set_cons_zero]

/-- The text without this line. -/
theorem erase (h : Line nl text n front body stop rest) :
    splitLines nl (front ++ rest) = (splitLines nl text).eraseIdx n := by
  rw [h.closed.splitLines_append, h.splitLines_eq, List.eraseIdx_append_of_length_le
    (le_of_eq h.count), h.count, Nat.sub_self, List.eraseIdx_cons_zero]

end Line

/-- One line behind all others, where a separator closes an open last line. -/
theorem splitLines_append_line (hline : nl ∉ line) {sep : List α}
    (hsep : sep = [] ∧ Closed nl text ∨ sep = [nl] ∧ ¬Closed nl text) :
    splitLines nl (text ++ (sep ++ line ++ [nl])) = splitLines nl text ++ [line] := by
  have hlast : splitLines nl (line ++ [nl]) = [line] := by
    rw [splitLines_line hline, splitLines_nil]
  rcases hsep with ⟨rfl, hclosed⟩ | ⟨rfl, hopen⟩
  · rw [List.nil_append, hclosed.splitLines_append, hlast]
  · rw [List.append_assoc, ← List.append_assoc, (closed_append_sep text).splitLines_append, hlast,
      splitLines_close hopen]

/-! ## Counting and finding lines -/

/-- As many lines as separators, and one more for an open last line. -/
theorem length_splitLines_closed (h : Closed nl text) :
    (splitLines nl text).length = text.count nl := by
  rcases h with rfl | ⟨front, rfl⟩
  · rfl
  · induction front with
    | nil => simp [splitLines_sep]
    | cons c front ih =>
      rw [List.cons_append, splitLines, List.count_cons]
      split_ifs with hc hbeq hbeq
      · rw [List.length_cons, ih]
      · simp [hc] at hbeq
      · simp at hbeq
        exact absurd hbeq hc
      · have hne : splitLines nl (front ++ [nl]) ≠ [] := by simp [splitLines_eq_nil]
        obtain ⟨l, ls, hls⟩ := List.exists_cons_of_ne_nil hne
        rw [hls] at ih ⊢
        simpa using ih

theorem length_splitLines_open (h : ¬Closed nl text) :
    (splitLines nl text).length = text.count nl + 1 := by
  rw [← splitLines_close h, length_splitLines_closed (closed_append_sep text), List.count_append]
  simp

theorem length_splitLines_le (text : List α) : (splitLines nl text).length ≤ text.length := by
  induction text with
  | nil => exact le_rfl
  | cons c text ih =>
    rw [splitLines, List.length_cons]
    split_ifs
    · exact Nat.succ_le_succ ih
    · split
      · simp
      · rename_i l ls hls
        rw [hls] at ih
        exact Nat.le_succ_of_le ih

/-- Where the line of index `n` begins, in a text with these lines. -/
def lineStart (ls : List (List α)) (n : ℕ) : ℕ := ((ls.take n).map fun l => l.length + 1).sum

theorem Closed.length_eq (h : Closed nl text) :
    ((splitLines nl text).map fun l => l.length + 1).sum = text.length := by
  rcases h with rfl | ⟨front, rfl⟩
  · rfl
  · induction front with
    | nil => simp [splitLines_sep]
    | cons c front ih =>
      rw [List.cons_append, splitLines]
      split_ifs with hc
      · rw [List.map_cons, List.sum_cons, ih]
        simp
        ring
      · have hne : splitLines nl (front ++ [nl]) ≠ [] := by simp [splitLines_eq_nil]
        obtain ⟨l, ls, hls⟩ := List.exists_cons_of_ne_nil hne
        rw [hls] at ih ⊢
        simp at ih ⊢
        omega

/-- The extent of a line, from the lengths of the lines alone. -/
theorem Line.extent {front body stop rest : List α} {n : ℕ}
    (h : Line nl text n front body stop rest) :
    front.length = lineStart (splitLines nl text) n ∧
      front.length + (body ++ stop).length =
        min (lineStart (splitLines nl text) (n + 1)) text.length := by
  have hstart : lineStart (splitLines nl text) n = front.length := by
    rw [lineStart, h.splitLines_eq, ← h.count, List.take_left, h.closed.length_eq]
  have hnext : lineStart (splitLines nl text) (n + 1) = front.length + (body.length + 1) := by
    rw [lineStart, h.splitLines_eq, ← h.count, List.take_append, List.take_of_length_le (by omega),
      Nat.add_sub_cancel_left, List.take_succ_cons, List.take_zero, List.map_append,
      List.sum_append, h.closed.length_eq]
    simp
  have hlen : text.length = front.length + (body ++ stop).length + rest.length := by
    rw [h.text_eq, List.length_append, List.length_append]
  refine ⟨hstart.symm, ?_⟩
  rw [hnext, hlen]
  rcases h.stop_eq with hstop | ⟨hstop, hrest, -⟩
  · rw [hstop]
    simp
  · rw [hstop, hrest]
    simp

end ZealBringup.Lines
