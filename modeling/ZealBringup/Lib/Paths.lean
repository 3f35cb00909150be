import Mathlib.Data.List.TakeWhile
import Mathlib.Data.List.Infix
import Mathlib.Tactic.Common

/-!
# Paths as lists of their components

A path over any alphabet with a separator `sep` stands for the list of its components, of which the
empty ones do not count.

* `parts`, `join` — the components of a path, and the path of some components.
* `parts_cut` — the first component of a path, as a scanner finds it.
* `resolve` — components that stand for this place and for the place above it are carried out.
* `lastRest` — what is behind the last component of a kind.
-/

namespace Paths

variable {α : Type*} [DecidableEq α] {sep : α} {p c : List α} {ps st : List (List α)}

/-! ## Components -/

def parts (sep : α) (p : List α) : List (List α) := (p.splitOn sep).filter (· ≠ [])

/-- What a component can be. -/
def IsPart (sep : α) (c : List α) : Prop := c ≠ [] ∧ sep ∉ c

omit [DecidableEq α] in
def join (sep : α) (ps : List (List α)) : List α := [sep].intercalate ps

@[simp] theorem parts_nil : parts sep ([] : List α) = [] := by
  rw [parts, List.splitOn_nil]
  rfl

theorem parts_append_sep (p q : List α) : parts sep (p ++ sep :: q) = parts sep p ++ parts sep q := by
  rw [parts, List.splitOn_append_cons_self, List.filter_append]
  rfl

@[simp] theorem parts_sep (p : List α) : parts sep (sep :: p) = parts sep p := by
  have h := @parts_append_sep _ _ sep [] p
  rwa [parts_nil, List.nil_append, List.nil_append] at h

theorem parts_part (h : IsPart sep c) : parts sep c = [c] := by
  rw [parts, List.splitOn_eq_singleton h.2]
  exact List.filter_cons_of_pos (decide_eq_true h.1)

theorem splitOn_mem (h : c ∈ p.splitOn sep) : sep ∉ c ∧ ∀ x ∈ c, x ∈ p := by
  induction p generalizing c with
  | nil =>
    rw [List.splitOn_nil, List.mem_singleton] at h
    subst h
    exact ⟨List.not_mem_nil, fun _ hx => hx⟩
  | cons a p ih =>
    rw [List.splitOn_cons_eq_if_modifyHead] at h
    split at h
    case isTrue ha =>
      rcases List.mem_cons.mp h with rfl | h
      · exact ⟨List.not_mem_nil, fun _ hx => absurd hx List.not_mem_nil⟩
      · exact ⟨(ih h).1, fun x hx => List.mem_cons_of_mem _ ((ih h).2 x hx)⟩
    case isFalse ha =>
      cases hsplit : p.splitOn sep with
      | nil => exact absurd hsplit (List.splitOn_ne_nil _ _)
      | cons l ls =>
        rw [hsplit, List.modifyHead_cons] at h
        rcases List.mem_cons.mp h with rfl | h
        · obtain ⟨h1, h2⟩ := ih (hsplit ▸ List.mem_cons_self)
          refine ⟨fun hs => ?_, fun x hx => ?_⟩
          · rcases List.mem_cons.mp hs with rfl | hs
            · exact ha (beq_self_eq_true _)
            · exact h1 hs
          · rcases List.mem_cons.mp hx with rfl | hx
            · exact List.mem_cons_self
            · exact List.mem_cons_of_mem _ (h2 x hx)
        · obtain ⟨h1, h2⟩ := ih (hsplit ▸ List.mem_cons_of_mem _ h)
          exact ⟨h1, fun x hx => List.mem_cons_of_mem _ (h2 x hx)⟩

theorem isPart_of_mem (h : c ∈ parts sep p) : IsPart sep c := by
  obtain ⟨hmem, hne⟩ := List.mem_filter.mp h
  exact ⟨of_decide_eq_true hne, (splitOn_mem hmem).1⟩

theorem mem_of_mem_parts (h : c ∈ parts sep p) {x : α} (hx : x ∈ c) : x ∈ p :=
  (splitOn_mem (List.mem_filter.mp h).1).2 x hx

/-- **The components of joined components.** -/
theorem parts_join (h : ∀ c ∈ ps, IsPart sep c) : parts sep (join sep ps) = ps := by
  cases ps with
  | nil => exact parts_nil
  | cons a ps =>
    rw [parts, join, List.splitOn_intercalate sep (fun c hc => (h c hc).2) (List.cons_ne_nil _ _)]
    exact List.filter_eq_self.mpr fun c hc => decide_eq_true (h c hc).1

omit [DecidableEq α] in
theorem join_concat (ps : List (List α)) (c : List α) :
    join sep (ps ++ [c]) = if ps = [] then c else join sep ps ++ sep :: c := by
  induction ps with
  | nil => exact List.intercalate_singleton
  | cons a ps ih =>
    rw [if_neg (List.cons_ne_nil _ _), List.cons_append, join,
      List.intercalate_cons_of_ne_nil (List.concat_ne_nil c ps), ← join, ih]
    split
    case isTrue h =>
      subst h
      rw [join, List.intercalate_singleton, List.append_assoc]
      rfl
    case isFalse h =>
      rw [join, join, List.intercalate_cons_of_ne_nil h, List.append_assoc, List.append_assoc,
        List.append_assoc]

omit [DecidableEq α] in
theorem join_eq_nil_iff (h : ∀ c ∈ ps, c ≠ []) : join sep ps = [] ↔ ps = [] := by
  constructor
  · intro hj
    induction ps using List.reverseRecOn with
    | nil => rfl
    | append_singleton ps c ih =>
      rw [join_concat] at hj
      split at hj
      · exact absurd hj (h c (List.mem_append_right _ List.mem_cons_self))
      · exact absurd hj (List.append_ne_nil_of_right_ne_nil _ (List.cons_ne_nil _ _))
  · rintro rfl
    rfl

omit [DecidableEq α] in
theorem mem_join {x : α} (h : x ∈ join sep ps) : x = sep ∨ ∃ c ∈ ps, x ∈ c := by
  induction ps using List.reverseRecOn with
  | nil => exact absurd h List.not_mem_nil
  | append_singleton ps c ih =>
    have hc : c ∈ ps ++ [c] := List.mem_append_right _ List.mem_cons_self
    rw [join_concat] at h
    split at h
    · exact Or.inr ⟨c, hc, h⟩
    · rcases List.mem_append.mp h with h | h
      · exact (ih h).imp id fun ⟨d, hd, hx⟩ => ⟨d, List.mem_append_left _ hd, hx⟩
      · exact (List.mem_cons.mp h).imp id fun hx => ⟨c, hc, hx⟩

omit [DecidableEq α] in
/-- More components make a longer path. -/
theorem join_length_le (ps qs : List (List α)) :
    (join sep ps).length ≤ (join sep (ps ++ qs)).length := by
  induction qs using List.reverseRecOn with
  | nil => rw [List.append_nil]
  | append_singleton qs c ih =>
    rw [← List.append_assoc, join_concat]
    split
    case isTrue h =>
      rw [(List.append_eq_nil_iff.mp h).1]
      exact Nat.zero_le _
    case isFalse h =>
      rw [List.length_append]
      exact ih.trans (Nat.le_add_right _ _)

/-! ## Scanning -/

theorem parts_dropWhile (p : List α) : parts sep (p.dropWhile (· = sep)) = parts sep p := by
  induction p with
  | nil => rfl
  | cons a p ih =>
    rw [List.dropWhile_cons]
    split
    case isTrue h => rw [ih, of_decide_eq_true h, parts_sep]
    case isFalse h => rfl

/-- What is behind a component is empty or begins with a separator. -/
def Behind (sep : α) (p : List α) : Prop := p = [] ∨ p.head? = some sep

theorem behind_dropWhile (p : List α) : Behind sep (p.dropWhile (· ≠ sep)) := by
  cases h : p.dropWhile (· ≠ sep) with
  | nil => exact Or.inl rfl
  | cons a q =>
    have hne : p.dropWhile (· ≠ sep) ≠ [] := h ▸ List.cons_ne_nil _ _
    have hhead := List.head_dropWhile_not (fun x => decide (x ≠ sep)) hne
    simp only [h, List.head_cons, decide_eq_false_iff_not, not_not] at hhead
    exact Or.inr (congrArg some hhead)

theorem parts_append_behind (hc : IsPart sep c) (hp : Behind sep p) :
    parts sep (c ++ p) = c :: parts sep p := by
  rcases hp with rfl | hp
  · rw [List.append_nil, parts_part hc, parts_nil]
  · obtain ⟨q, rfl⟩ := List.head?_eq_some_iff.mp hp
    rw [parts_append_sep, parts_part hc, parts_sep, List.singleton_append]

/-- Nothing but separators is left. -/
theorem cut_eq_nil (h : (p.dropWhile (· = sep)).takeWhile (· ≠ sep) = []) :
    p.dropWhile (· = sep) = [] := by
  cases hcase : p.dropWhile (· = sep) with
  | nil => rfl
  | cons a r =>
    have hne : p.dropWhile (· = sep) ≠ [] := hcase ▸ List.cons_ne_nil _ _
    have hhead := List.head_dropWhile_not (fun x => decide (x = sep)) hne
    simp only [hcase, List.head_cons, decide_eq_false_iff_not] at hhead
    rw [hcase, List.takeWhile_cons, if_pos (decide_eq_true hhead)] at h
    cases h

/-- **The first component**, as a scanner finds it: separators, then everything up to the next one. -/
theorem parts_cut (p : List α) : parts sep p =
    if (p.dropWhile (· = sep)).takeWhile (· ≠ sep) = [] then []
    else (p.dropWhile (· = sep)).takeWhile (· ≠ sep) ::
      parts sep ((p.dropWhile (· = sep)).dropWhile (· ≠ sep)) := by
  split
  case isTrue h => rw [← parts_dropWhile p, cut_eq_nil h, parts_nil]
  case isFalse h =>
    have hpart : IsPart sep ((p.dropWhile (· = sep)).takeWhile (· ≠ sep)) :=
      ⟨h, fun hmem => by simpa using List.mem_takeWhile_imp hmem⟩
    rw [← parts_append_behind hpart (behind_dropWhile _), List.takeWhile_append_dropWhile,
      parts_dropWhile]

theorem length_cut_lt (h : (p.dropWhile (· = sep)).takeWhile (· ≠ sep) ≠ []) :
    ((p.dropWhile (· = sep)).dropWhile (· ≠ sep)).length < p.length := by
  have hsum := congrArg List.length (List.takeWhile_append_dropWhile (p := (· ≠ sep))
    (l := p.dropWhile (· = sep)))
  rw [List.length_append] at hsum
  have hle := (List.dropWhile_sublist (· = sep) (l := p)).length_le
  have hpos := List.length_pos_of_ne_nil h
  omega

/-! ## Resolution -/

section Resolve

variable {here up : List α}

def step (here up : List α) (st : List (List α)) (c : List α) : List (List α) :=
  if c = here then st else if c = up then st.dropLast else st ++ [c]

/-- The last component goes with the separator before it. -/
theorem join_dropLast (h : ∀ c ∈ ps, sep ∉ c) :
    ((join sep ps).reverse.dropWhile (· ≠ sep)).tail.reverse = join sep ps.dropLast := by
  induction ps using List.reverseRecOn with
  | nil => rfl
  | append_singleton ps c _ =>
    have hc : ∀ x ∈ c.reverse, decide (x ≠ sep) = true := fun x hx =>
      decide_eq_true fun hxs => h c (List.mem_append_right _ List.mem_cons_self)
        (hxs ▸ List.mem_reverse.mp hx)
    rw [join_concat, List.dropLast_concat]
    split
    case isTrue hnil =>
      rw [List.dropWhile_eq_nil_iff.mpr hc, hnil]
      rfl
    case isFalse hne =>
      rw [List.reverse_append, List.reverse_cons, List.append_assoc, List.singleton_append,
        List.dropWhile_append_of_pos hc, List.dropWhile_cons_of_neg (by simp), List.tail_cons,
        List.reverse_reverse]

/-- The place that components lead to. -/
def resolve (here up : List α) (ps : List (List α)) : List (List α) := ps.foldl (step here up) []

theorem mem_step {d : List α} (h : d ∈ step here up st c) : d ∈ st ∨ d = c ∧ c ≠ here ∧ c ≠ up := by
  rw [step] at h
  split_ifs at h with h1 h2
  · exact Or.inl h
  · exact Or.inl (List.mem_of_mem_dropLast h)
  · rcases List.mem_append.mp h with h | h
    · exact Or.inl h
    · exact Or.inr ⟨List.mem_singleton.mp h, h1, h2⟩

theorem mem_foldl_step (h : c ∈ ps.foldl (step here up) st) :
    c ∈ st ∨ c ∈ ps ∧ c ≠ here ∧ c ≠ up := by
  induction ps generalizing st with
  | nil => exact Or.inl h
  | cons d ps ih =>
    rcases ih h with h | h
    · rcases mem_step h with h | ⟨rfl, h⟩
      · exact Or.inl h
      · exact Or.inr ⟨List.mem_cons_self, h⟩
    · exact Or.inr ⟨List.mem_cons_of_mem _ h.1, h.2⟩

/-- No component of the result stands for a place of its own. -/
theorem mem_resolve (h : c ∈ resolve here up ps) : c ∈ ps ∧ c ≠ here ∧ c ≠ up :=
  (mem_foldl_step h).resolve_left List.not_mem_nil

/-- **Resolved components stay as they are.** -/
theorem foldl_step_of_plain (h : ∀ c ∈ ps, c ≠ here ∧ c ≠ up) :
    ps.foldl (step here up) st = st ++ ps := by
  induction ps generalizing st with
  | nil => exact (List.append_nil _).symm
  | cons d ps ih =>
    obtain ⟨h1, h2⟩ := h d List.mem_cons_self
    rw [List.foldl_cons, step, if_neg h1, if_neg h2, ih fun c hc => h c (List.mem_cons_of_mem _ hc),
      List.append_assoc, List.singleton_append]

theorem resolve_of_plain (h : ∀ c ∈ ps, c ≠ here ∧ c ≠ up) : resolve here up ps = ps :=
  foldl_step_of_plain h

end Resolve

/-! ## The last component of a kind -/

/-- What is behind the last `t`, if there is one. -/
def lastRest (t : List α) : List (List α) → Option (List (List α))
  | [] => none
  | c :: ps =>
    match lastRest t ps with
    | some r => some r
    | none => if c = t then some ps else none

theorem lastRest_eq_none {t : List α} : lastRest t ps = none ↔ t ∉ ps := by
  induction ps with
  | nil => exact iff_of_true rfl List.not_mem_nil
  | cons c ps ih =>
    rw [lastRest, List.mem_cons, not_or]
    cases h : lastRest t ps with
    | none =>
      have hps := ih.mp h
      dsimp only
      split
      case isTrue hc => exact iff_of_false nofun fun hno => hno.1 hc.symm
      case isFalse hc => exact iff_of_true rfl ⟨fun hct => hc hct.symm, hps⟩
    | some r =>
      have hps := ih.not.mp (by rw [h]; exact nofun)
      exact iff_of_false nofun fun hno => hps hno.2

theorem mem_lastRest {t : List α} {r : List (List α)} (h : lastRest t ps = some r) :
    t ∉ r ∧ ∀ c ∈ r, c ∈ ps := by
  induction ps with
  | nil => cases h
  | cons c ps ih =>
    rw [lastRest] at h
    cases hl : lastRest t ps with
    | none =>
      rw [hl] at h
      dsimp only at h
      split at h
      · cases h
        exact ⟨lastRest_eq_none.mp hl, fun c hc => List.mem_cons_of_mem _ hc⟩
      · cases h
    | some r' =>
      rw [hl] at h
      cases h
      exact ⟨(ih hl).1, fun c hc => List.mem_cons_of_mem _ ((ih hl).2 c hc)⟩

/-- Components that begin again at `home` behind the last `t`. -/
def restart (t : List α) (home ps : List (List α)) : List (List α) :=
  match lastRest t ps with
  | none => ps
  | some r => home ++ r

end Paths
