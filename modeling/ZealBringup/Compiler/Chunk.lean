import Mathlib.Algebra.Group.Nat.Defs
import Mathlib.Data.List.Basic
import Mathlib.Data.Nat.Notation
import Mathlib.Tactic.Common

/-!
# Chunks of input and their grammar

`user_input_complete` of `zc/user_compiler.h`: the check of delimiters, comments and quotes that
decides whether the prompt asks for one more line.

The lexical structure of source text: brackets, nested comments, line comments and quoted strings
with escapes. `Items s t` reads closed items off the front of `s` and leaves `t`.

* `InputState` — the locals of the loop.
* `userInputLoop` — the loop, for any size of the stack and of the comment counter.
* `userInputComplete` — the function.
* `Closed` — a chunk that is closed.
* `Unclosed` — a chunk that ends inside a bracket, a comment or a quote.
* `Mismatched` — a chunk with a closing bracket that goes with nothing.
* `closed_or_unclosed_or_mismatched` — every chunk is one of them.
-/

namespace ZealBringup.Compiler

abbrev newline : UInt8 := 10
abbrev star : UInt8 := 42
abbrev slash : UInt8 := 47
abbrev backslash : UInt8 := 92

/-- `'('`, `'['` and opening brace. -/
def IsOpen (c : UInt8) : Prop := c = 40 ∨ c = 91 ∨ c = 123

/-- `')'`, `']'` and closing brace. -/
def IsClose (c : UInt8) : Prop := c = 41 ∨ c = 93 ∨ c = 125

/-- The double and the single quote. -/
def IsQuote (c : UInt8) : Prop := c = 34 ∨ c = 39

/-- A closing bracket that goes with an opening one. -/
def Pair (o c : UInt8) : Prop := o = 40 ∧ c = 41 ∨ o = 91 ∧ c = 93 ∨ o = 123 ∧ c = 125

instance (c : UInt8) : Decidable (IsOpen c) := inferInstanceAs (Decidable (_ ∨ _))
instance (c : UInt8) : Decidable (IsClose c) := inferInstanceAs (Decidable (_ ∨ _))
instance (c : UInt8) : Decidable (IsQuote c) := inferInstanceAs (Decidable (_ ∨ _))
instance (o c : UInt8) : Decidable (Pair o c) := inferInstanceAs (Decidable (_ ∨ _))

/-- The locals of `user_input_complete`: the open brackets with the innermost first, the comment
counter, the quote and whether it is escaped. -/
structure InputState where
  stack : List UInt8 := []
  comment : ℕ := 0
  quote : UInt8 := 0
  escaped : Bool := false

/-- The size of the stack, and how many values the comment counter has. -/
structure InputLimits where
  depth : ℕ
  counter : ℕ

/-- What the function returns at the end of the string. -/
def userInputEnd (st : InputState) : Bool :=
  decide (st.stack = []) && decide (st.quote = 0) && decide (st.comment = 0)

/-- The loop on the rest of a string. -/
def userInputLoop (lim : InputLimits) (st : InputState) : List UInt8 → Bool
  | [] => userInputEnd st
  | ch :: s =>
      let next := s.headD 0
      if st.comment ≠ 0 then
        if ch = slash ∧ next = star then
          userInputLoop lim { st with comment := (st.comment + 1) % lim.counter } (s.drop 1)
        else if ch = star ∧ next = slash then
          userInputLoop lim { st with comment := st.comment - 1 } (s.drop 1)
        else userInputLoop lim st s
      else if st.quote ≠ 0 then
        if st.escaped = true then userInputLoop lim { st with escaped := false } s
        else if ch = backslash then userInputLoop lim { st with escaped := true } s
        else if ch = st.quote then userInputLoop lim { st with quote := 0 } s
        else userInputLoop lim st s
      else if ch = slash ∧ next = slash then
        -- up to the newline; without one this is the end of the string
        userInputLoop lim st ((s.dropWhile fun c => c ≠ newline).drop 1)
      else if ch = slash ∧ next = star then
        userInputLoop lim { st with comment := 1 } (s.drop 1)
      else if IsQuote ch then userInputLoop lim { st with quote := ch } s
      else if IsOpen ch then
        if st.stack.length = lim.depth then true
        else userInputLoop lim { st with stack := ch :: st.stack } s
      else if IsClose ch then
        match st.stack with
        | [] => true
        | o :: stack =>
            if ¬Pair o ch then true else userInputLoop lim { st with stack := stack } s
      else userInputLoop lim st s
termination_by s => s.length
decreasing_by
  all_goals simp only [List.length_cons, List.length_drop]
  all_goals first
    | omega
    | exact Nat.lt_succ_of_le (Nat.le_trans (Nat.sub_le ..) (List.dropWhile_suffix _).length_le)

/-- `sizeof(stack)`, and `unsigned`. -/
def codeLimits : InputLimits := ⟨256, 2 ^ 32⟩

/-- `user_input_complete`, for the bytes of a string before its NUL. -/
def userInputComplete (s : List UInt8) : Bool := userInputLoop codeLimits {} s

/-! ## Grammar -/

/-- The inside of a comment up to `t`, with the comments in it closed. -/
inductive CommentItems : List UInt8 → List UInt8 → Prop where
  | done (s : List UInt8) : CommentItems s s
  | char {c : UInt8} {s t : List UInt8} (hopen : ¬(c = slash ∧ s.head? = some star))
      (hclose : ¬(c = star ∧ s.head? = some slash)) (h : CommentItems s t) :
      CommentItems (c :: s) t
  | nested {s s' t : List UInt8} (hin : CommentItems s (star :: slash :: s'))
      (h : CommentItems s' t) : CommentItems (slash :: star :: s) t

/-- The inside of a quoted string and its closing quote. -/
inductive Quoted (q : UInt8) : List UInt8 → List UInt8 → Prop where
  | close (s : List UInt8) : Quoted q (q :: s) s
  | escape (c : UInt8) {s t : List UInt8} (h : Quoted q s t) : Quoted q (backslash :: c :: s) t
  | char {c : UInt8} {s t : List UInt8} (hquote : c ≠ q) (hescape : c ≠ backslash)
      (h : Quoted q s t) : Quoted q (c :: s) t

/-- A character in front of `s` that opens and closes nothing. -/
def Plain (c : UInt8) (s : List UInt8) : Prop :=
  ¬IsOpen c ∧ ¬IsClose c ∧ ¬IsQuote c ∧
    ¬(c = slash ∧ (s.head? = some slash ∨ s.head? = some star))

/-- Closed items up to `t`. -/
inductive Items : List UInt8 → List UInt8 → Prop where
  | done (s : List UInt8) : Items s s
  | plain {c : UInt8} {s t : List UInt8} (hc : Plain c s) (h : Items s t) : Items (c :: s) t
  | line {body s t : List UInt8} (hbody : newline ∉ body) (h : Items s t) :
      Items (slash :: slash :: (body ++ newline :: s)) t
  | comment {s s' t : List UInt8} (hin : CommentItems s (star :: slash :: s')) (h : Items s' t) :
      Items (slash :: star :: s) t
  | quoted {q : UInt8} {s s' t : List UInt8} (hq : IsQuote q) (hin : Quoted q s s')
      (h : Items s' t) : Items (q :: s) t
  | bracket {o c : UInt8} {s s' t : List UInt8} (hpair : Pair o c) (hin : Items s (c :: s'))
      (h : Items s' t) : Items (o :: s) t

/-- Items up to `t` with some brackets still open there, the innermost first. -/
inductive Reach : List UInt8 → List UInt8 → List UInt8 → Prop where
  | items {s t : List UInt8} (h : Items s t) : Reach [] s t
  | bracket {o : UInt8} {stack s s' t : List UInt8} (h : Items s (o :: s')) (ho : IsOpen o)
      (hin : Reach stack s' t) : Reach (stack ++ [o]) s t

/-- The inside of a comment up to `t`, with so many comments in it still open there. -/
inductive CommentReach : ℕ → List UInt8 → List UInt8 → Prop where
  | items {s t : List UInt8} (h : CommentItems s t) : CommentReach 0 s t
  | nested {n : ℕ} {s s' t : List UInt8} (h : CommentItems s (slash :: star :: s'))
      (hin : CommentReach n s' t) : CommentReach (n + 1) s t

/-- The inside of a quoted string that does not end, maybe with an escape at the end. -/
inductive OpenQuote (q : UInt8) : List UInt8 → Prop where
  | nil : OpenQuote q []
  | pending : OpenQuote q [backslash]
  | escape (c : UInt8) {s : List UInt8} (h : OpenQuote q s) : OpenQuote q (backslash :: c :: s)
  | char {c : UInt8} {s : List UInt8} (hquote : c ≠ q) (hescape : c ≠ backslash)
      (h : OpenQuote q s) : OpenQuote q (c :: s)

/-- The end of the text, after a line comment without a newline or without one. -/
def LineEnd (t : List UInt8) : Prop :=
  t = [] ∨ ∃ body, newline ∉ body ∧ t = slash :: slash :: body

/-- A closed chunk. -/
def Closed (s : List UInt8) : Prop := ∃ t, Items s t ∧ LineEnd t

/-- A chunk that ends inside a bracket, a comment or a quote. -/
inductive Unclosed : List UInt8 → Prop where
  | bracket {stack s t : List UInt8} (h : Reach stack s t) (hstack : stack ≠ []) (ht : LineEnd t) :
      Unclosed s
  | comment {stack s s' : List UInt8} {n : ℕ} (h : Reach stack s (slash :: star :: s'))
      (hin : CommentReach n s' []) : Unclosed s
  | quote {stack s s' : List UInt8} {q : UInt8} (h : Reach stack s (q :: s')) (hq : IsQuote q)
      (hin : OpenQuote q s') : Unclosed s

/-- A chunk with a closing bracket that does not go with the innermost open one. -/
def Mismatched (s : List UInt8) : Prop :=
  ∃ stack c t, Reach stack s (c :: t) ∧ IsClose c ∧ ∀ o ∈ stack.head?, ¬Pair o c

/-! ## Composition -/

variable {s t u stack : List UInt8} {c o q : UInt8} {n : ℕ}

theorem Pair.isOpen (h : Pair o c) : IsOpen o := by
  rcases h with ⟨h, -⟩ | ⟨h, -⟩ | ⟨h, -⟩
  · exact .inl h
  · exact .inr (.inl h)
  · exact .inr (.inr h)

theorem Pair.isClose (h : Pair o c) : IsClose c := by
  rcases h with ⟨-, h⟩ | ⟨-, h⟩ | ⟨-, h⟩
  · exact .inl h
  · exact .inr (.inl h)
  · exact .inr (.inr h)

theorem Items.trans (h : Items s t) (h' : Items t u) : Items s u := by
  induction h with
  | done => exact h'
  | plain hc _ ih => exact .plain hc (ih h')
  | line hbody _ ih => exact .line hbody (ih h')
  | comment hin _ ih => exact .comment hin (ih h')
  | quoted hq hin _ ih => exact .quoted hq hin (ih h')
  | bracket hpair hin _ _ ih => exact .bracket hpair hin (ih h')

theorem CommentItems.trans (h : CommentItems s t) (h' : CommentItems t u) : CommentItems s u := by
  induction h with
  | done => exact h'
  | char hopen hclose _ ih => exact .char hopen hclose (ih h')
  | nested hin _ _ ih => exact .nested hin (ih h')

/-- More items behind. -/
theorem Reach.items_trans (h : Reach stack s t) (h' : Items t u) : Reach stack s u := by
  induction h with
  | items h => exact .items (h.trans h')
  | bracket h ho _ ih => exact .bracket h ho (ih h')

/-- Without an open bracket there are only items. -/
theorem Reach.items_of_nil (h : Reach [] s t) : Items s t := by
  generalize hstack : ([] : List UInt8) = stack at h
  cases h with
  | items h => exact h
  | @bracket o stack => exact absurd hstack.symm (List.append_ne_nil_of_right_ne_nil _ (by simp))

/-- Items in front. -/
theorem Reach.prepend (h : Items s t) (h' : Reach stack t u) : Reach stack s u := by
  cases h' with
  | items h' => exact .items (h.trans h')
  | bracket h' ho hin => exact .bracket (h.trans h') ho hin

theorem CommentReach.items_trans (h : CommentReach n s t) (h' : CommentItems t u) :
    CommentReach n s u := by
  induction h with
  | items h => exact .items (h.trans h')
  | nested h _ ih => exact .nested h (ih h')

theorem CommentReach.prepend (h : CommentItems s t) (h' : CommentReach n t u) :
    CommentReach n s u := by
  cases h' with
  | items h' => exact .items (h.trans h')
  | nested h' hin => exact .nested (h.trans h') hin

/-- One more open bracket. -/
theorem Reach.push (h : Reach stack s (o :: t)) (ho : IsOpen o) : Reach (o :: stack) s t := by
  generalize hu : o :: t = u at h
  induction h with
  | items h =>
    subst hu
    exact Reach.bracket h ho (.items (.done t))
  | bracket h ho' _ ih => exact .bracket h ho' (ih hu)

/-- The innermost bracket is closed. -/
theorem Reach.pop (h : Reach (o :: stack) s (c :: t)) (hpair : Pair o c) : Reach stack s t := by
  generalize hstack : o :: stack = stack' at h
  generalize hu : c :: t = u at h
  induction h generalizing stack with
  | items h => cases hstack
  | @bracket o' inner s s' u h ho hin ih =>
    subst hu
    cases inner with
    | nil =>
      obtain ⟨rfl, rfl⟩ := List.cons.inj hstack
      exact .items (h.trans (.bracket hpair hin.items_of_nil (.done t)))
    | cons o₁ inner =>
      obtain ⟨rfl, rfl⟩ := List.cons.inj hstack
      exact .bracket h ho (ih rfl rfl)

/-! ## Lengths -/

theorem CommentItems.length_le (h : CommentItems s t) : t.length ≤ s.length := by
  induction h with
  | done => exact Nat.le_refl _
  | char _ _ _ ih => rw [List.length_cons]; omega
  | nested _ _ ihin ih => simp only [List.length_cons] at ihin ⊢; omega

theorem Quoted.length_lt (h : Quoted q s t) : t.length < s.length := by
  induction h with
  | close => rw [List.length_cons]; omega
  | escape _ _ ih => simp only [List.length_cons]; omega
  | char _ _ _ ih => rw [List.length_cons]; omega

theorem Items.length_le (h : Items s t) : t.length ≤ s.length := by
  induction h with
  | done => exact Nat.le_refl _
  | plain _ _ ih => rw [List.length_cons]; omega
  | line _ _ ih => simp only [List.length_cons, List.length_append]; omega
  | comment hin _ ih =>
    have hle := hin.length_le
    simp only [List.length_cons] at hle ⊢
    omega
  | quoted _ hin _ ih =>
    have hlt := hin.length_lt
    rw [List.length_cons]
    omega
  | bracket _ _ _ ihin ih => simp only [List.length_cons] at ihin ⊢; omega

theorem Reach.length_le (h : Reach stack s t) : stack.length + t.length ≤ s.length := by
  induction h with
  | items h => rw [List.length_nil, Nat.zero_add]; exact h.length_le
  | bracket h _ _ ih =>
    have hle := h.length_le
    simp only [List.length_append, List.length_cons, List.length_nil] at hle ⊢
    omega

theorem CommentReach.length_le (h : CommentReach n s t) : n + t.length ≤ s.length := by
  induction h with
  | items h => rw [Nat.zero_add]; exact h.length_le
  | nested h _ ih =>
    have hle := h.length_le
    simp only [List.length_cons] at hle
    omega

/-! ## Every chunk -/

theorem comment_classify (s : List UInt8) :
    (∃ s', CommentItems s (star :: slash :: s')) ∨ ∃ n, CommentReach n s [] := by
  induction hn : s.length using Nat.strongRecOn generalizing s with
  | ind k ih =>
    cases s with
    | nil => exact .inr ⟨0, .items (.done [])⟩
    | cons c s =>
      rw [List.length_cons] at hn
      by_cases hopen : c = slash ∧ s.head? = some star
      · obtain ⟨rfl, hhead⟩ := hopen
        obtain ⟨s, rfl⟩ := List.head?_eq_some_iff.1 hhead
        rw [List.length_cons] at hn
        rcases ih s.length (by omega) s rfl with ⟨s', hin⟩ | ⟨n, hin⟩
        · have hle := hin.length_le
          simp only [List.length_cons] at hle
          have hnested : CommentItems (slash :: star :: s) s' := .nested hin (.done s')
          rcases ih s'.length (by omega) s' rfl with ⟨s'', h⟩ | ⟨n, h⟩
          · exact .inl ⟨s'', hnested.trans h⟩
          · exact .inr ⟨n, h.prepend hnested⟩
        · exact .inr ⟨n + 1, .nested (.done _) hin⟩
      by_cases hclose : c = star ∧ s.head? = some slash
      · obtain ⟨rfl, hhead⟩ := hclose
        obtain ⟨s, rfl⟩ := List.head?_eq_some_iff.1 hhead
        exact .inl ⟨s, .done _⟩
      · have hchar : CommentItems (c :: s) s := .char hopen hclose (.done s)
        rcases ih s.length (by omega) s rfl with ⟨s', h⟩ | ⟨n, h⟩
        · exact .inl ⟨s', hchar.trans h⟩
        · exact .inr ⟨n, h.prepend hchar⟩

theorem quote_classify (q : UInt8) (hq : q ≠ backslash) (s : List UInt8) :
    (∃ s', Quoted q s s') ∨ OpenQuote q s := by
  induction hn : s.length using Nat.strongRecOn generalizing s with
  | ind k ih =>
    cases s with
    | nil => exact .inr .nil
    | cons c s =>
      rw [List.length_cons] at hn
      by_cases hquote : c = q
      · subst hquote
        exact .inl ⟨s, .close s⟩
      by_cases hescape : c = backslash
      · subst hescape
        cases s with
        | nil => exact .inr .pending
        | cons c s =>
          rw [List.length_cons] at hn
          rcases ih s.length (by omega) s rfl with ⟨s', h⟩ | h
          · exact .inl ⟨s', .escape c h⟩
          · exact .inr (.escape c h)
      · rcases ih s.length (by omega) s rfl with ⟨s', h⟩ | h
        · exact .inl ⟨s', .char hquote hescape h⟩
        · exact .inr (.char hquote hescape h)

theorem IsQuote.ne_backslash (h : IsQuote q) : q ≠ backslash := by
  rcases h with rfl | rfl <;> decide

/-- From any point of a chunk. -/
theorem classify_from (h : Reach stack s t) : Closed s ∨ Unclosed s ∨ Mismatched s := by
  induction hn : t.length using Nat.strongRecOn generalizing t stack with
  | ind k ih =>
    have hnext : ∀ {stack' t'}, Reach stack' s t' → t'.length < k → Closed s ∨ Unclosed s ∨ Mismatched s :=
      fun h' hlt => ih _ hlt h' rfl
    have hend : LineEnd t → Closed s ∨ Unclosed s ∨ Mismatched s := fun hline => by
      cases stack with
      | nil => exact .inl ⟨t, h.items_of_nil, hline⟩
      | cons o stack => exact .inr (.inl (.bracket h (List.cons_ne_nil o stack) hline))
    cases t with
    | nil => exact hend (.inl rfl)
    | cons c t =>
      rw [List.length_cons] at hn
      by_cases hopen : IsOpen c
      · exact hnext (h.push hopen) (by omega)
      by_cases hclose : IsClose c
      · cases stack with
        | nil => exact .inr (.inr ⟨[], c, t, h, hclose, fun o ho => nomatch ho⟩)
        | cons o stack =>
          by_cases hpair : Pair o c
          · exact hnext (h.pop hpair) (by omega)
          · refine .inr (.inr ⟨o :: stack, c, t, h, hclose, fun o' ho' => ?_⟩)
            obtain rfl := Option.some.inj ho'
            exact hpair
      by_cases hquote : IsQuote c
      · rcases quote_classify c hquote.ne_backslash t with ⟨t', hin⟩ | hin
        · have hlt := hin.length_lt
          exact hnext (h.items_trans (.quoted hquote hin (.done t'))) (by omega)
        · exact .inr (.inl (.quote h hquote hin))
      by_cases hslash : c = slash ∧ (t.head? = some slash ∨ t.head? = some star)
      · obtain ⟨rfl, hhead | hhead⟩ := hslash
        · obtain ⟨t, rfl⟩ := List.head?_eq_some_iff.1 hhead
          rw [List.length_cons] at hn
          by_cases hline : newline ∈ t
          · obtain ⟨body, t', rfl, hbody⟩ := List.eq_append_cons_of_mem hline
            rw [List.length_append, List.length_cons] at hn
            exact hnext (h.items_trans (.line hbody (.done t'))) (by omega)
          · exact hend (.inr ⟨t, hline, rfl⟩)
        · obtain ⟨t, rfl⟩ := List.head?_eq_some_iff.1 hhead
          rw [List.length_cons] at hn
          rcases comment_classify t with ⟨t', hin⟩ | ⟨n, hin⟩
          · have hle := hin.length_le
            simp only [List.length_cons] at hle
            exact hnext (h.items_trans (.comment hin (.done t'))) (by omega)
          · exact .inr (.inl (.comment h hin))
      · exact hnext (h.items_trans (.plain ⟨hopen, hclose, hquote, hslash⟩ (.done t))) (by omega)

/-- Every chunk is closed, ends inside something or has a mismatched bracket. -/
theorem closed_or_unclosed_or_mismatched (s : List UInt8) :
    Closed s ∨ Unclosed s ∨ Mismatched s := classify_from (.items (.done s))

/-! ## More text behind -/

/-- Text that makes no comment together with what stands in front of it. -/
def Neutral (e : List UInt8) : Prop := e.head? ≠ some slash ∧ e.head? ≠ some star

variable {e : List UInt8}

theorem neutral_newline (u : List UInt8) : Neutral (newline :: u) :=
  ⟨fun h => absurd (Option.some.inj h) (by decide), fun h => absurd (Option.some.inj h) (by decide)⟩

theorem neutral_nil : Neutral [] := ⟨fun h => (nomatch h), fun h => (nomatch h)⟩

/-- What is behind does not change the next character, unless there was none. -/
theorem head?_extend (hle : t.length ≤ s.length) (he : t ≠ [] ∨ Neutral e) :
    (∀ x, x = slash ∨ x = star → (s ++ e).head? = some x → s.head? = some x) := by
  intro x hx hhead
  cases s with
  | cons c s => exact hhead
  | nil =>
    have ht : t = [] := List.length_eq_zero_iff.1 (Nat.le_zero.1 hle)
    obtain ⟨hslash, hstar⟩ := he.resolve_left fun h => h ht
    rcases hx with rfl | rfl
    · exact absurd hhead hslash
    · exact absurd hhead hstar

theorem Plain.extend (h : Plain c s) (hle : t.length ≤ s.length) (he : t ≠ [] ∨ Neutral e) :
    Plain c (s ++ e) := by
  obtain ⟨hopen, hclose, hquote, hslash⟩ := h
  have hhead := head?_extend hle he
  refine ⟨hopen, hclose, hquote, fun ⟨hc, hnext⟩ => hslash ⟨hc, ?_⟩⟩
  rcases hnext with hnext | hnext
  · exact .inl (hhead slash (.inl rfl) hnext)
  · exact .inr (hhead star (.inr rfl) hnext)

theorem CommentItems.extend (h : CommentItems s t) (he : t ≠ [] ∨ Neutral e) :
    CommentItems (s ++ e) (t ++ e) := by
  induction h with
  | done => exact .done _
  | char hopen hclose h ih =>
    have hhead := head?_extend h.length_le he
    exact .char (fun ⟨hc, hnext⟩ => hopen ⟨hc, hhead star (.inr rfl) hnext⟩)
      (fun ⟨hc, hnext⟩ => hclose ⟨hc, hhead slash (.inl rfl) hnext⟩) (ih he)
  | nested _ _ ihin ih => exact .nested (ihin (.inl (List.cons_ne_nil _ _))) (ih he)

theorem Quoted.extend (h : Quoted q s t) (e : List UInt8) : Quoted q (s ++ e) (t ++ e) := by
  induction h with
  | close => exact .close _
  | escape c _ ih => exact .escape c ih
  | char hquote hescape _ ih => exact .char hquote hescape ih

theorem Items.extend (h : Items s t) (he : t ≠ [] ∨ Neutral e) : Items (s ++ e) (t ++ e) := by
  induction h with
  | done => exact .done _
  | plain hc h ih => exact .plain (hc.extend h.length_le he) (ih he)
  | line hbody _ ih =>
    have hline := Items.line hbody (ih he)
    simpa only [List.cons_append, List.append_assoc] using hline
  | comment hin _ ih => exact .comment (hin.extend (.inl (List.cons_ne_nil _ _))) (ih he)
  | quoted hq hin _ ih => exact .quoted hq (hin.extend e) (ih he)
  | bracket hpair _ _ ihin ih => exact .bracket hpair (ihin (.inl (List.cons_ne_nil _ _))) (ih he)

theorem Reach.extend (h : Reach stack s t) (he : t ≠ [] ∨ Neutral e) :
    Reach stack (s ++ e) (t ++ e) := by
  induction h with
  | items h => exact .items (h.extend he)
  | bracket h ho _ ih => exact .bracket (h.extend (.inl (List.cons_ne_nil _ _))) ho (ih he)

theorem CommentReach.extend (h : CommentReach n s t) (he : t ≠ [] ∨ Neutral e) :
    CommentReach n (s ++ e) (t ++ e) := by
  induction h with
  | items h => exact .items (h.extend he)
  | nested h _ ih => exact .nested (h.extend (.inl (List.cons_ne_nil _ _))) (ih he)

theorem Mismatched.extend (h : Mismatched s) (e : List UInt8) : Mismatched (s ++ e) := by
  obtain ⟨stack, c, t, hreach, hclose, hpair⟩ := h
  exact ⟨stack, c, t ++ e, hreach.extend (.inl (List.cons_ne_nil _ _)), hclose, hpair⟩

/-! ## What closes a chunk -/

/-- The closing bracket for an open one. -/
def closer (o : UInt8) : UInt8 := if o = 40 then 41 else if o = 91 then 93 else 125

theorem pair_closer (h : IsOpen o) : Pair o (closer o) := by
  rcases h with rfl | rfl | rfl
  · exact .inl ⟨rfl, rfl⟩
  · exact .inr (.inl ⟨rfl, rfl⟩)
  · exact .inr (.inr ⟨rfl, rfl⟩)

theorem Reach.isOpen (h : Reach stack s t) : ∀ o ∈ stack, IsOpen o := by
  induction h with
  | items => exact fun o ho => absurd ho List.not_mem_nil
  | bracket _ ho _ ih =>
    intro o' ho'
    rcases List.mem_append.1 ho' with ho' | ho'
    · exact ih o' ho'
    · rw [List.mem_singleton.1 ho']
      exact ho

/-- All brackets are closed by their closers. -/
theorem Reach.close (h : Reach stack s (stack.map closer)) : Closed s := by
  have hopen := h.isOpen
  induction stack with
  | nil => exact ⟨[], h.items_of_nil, .inl rfl⟩
  | cons o stack ih =>
    exact ih (h.pop (pair_closer (hopen o (List.mem_cons_self ..))))
      fun o' ho' => hopen o' (List.mem_cons_of_mem _ ho')

theorem plain_newline (u : List UInt8) : Plain newline u :=
  ⟨by decide, by decide, by decide, fun h => absurd h.1 (by decide)⟩

/-- A newline ends a line comment, if there is one. -/
theorem LineEnd.items (h : LineEnd t) (u : List UInt8) : Items (t ++ newline :: u) u := by
  rcases h with rfl | ⟨body, hbody, rfl⟩
  · exact .plain (plain_newline u) (.done u)
  · exact .line hbody (.done u)

theorem Closed.items (h : Closed s) (u : List UInt8) : Items (s ++ newline :: u) u := by
  obtain ⟨t, hitems, hend⟩ := h
  exact (hitems.extend (.inr (neutral_newline u))).trans (hend.items u)

/-- So many ends of comments. -/
def commentEnds : ℕ → List UInt8 → List UInt8
  | 0, u => u
  | n + 1, u => star :: slash :: commentEnds n u

theorem commentEnds_cons (n : ℕ) (u : List UInt8) :
    commentEnds n (star :: slash :: u) = star :: slash :: commentEnds n u := by
  induction n with
  | zero => rfl
  | succ n ih => rw [commentEnds, ih, commentEnds]

theorem CommentReach.close (h : CommentReach n s (commentEnds (n + 1) u)) :
    CommentItems s (star :: slash :: u) := by
  generalize ht : commentEnds (n + 1) u = t at h
  induction h generalizing u with
  | items h => rwa [← ht] at h
  | @nested n s s' t h hin ih =>
    rw [commentEnds, ← commentEnds_cons] at ht
    exact h.trans (.nested (ih ht) (.done _))

theorem OpenQuote.close (h : OpenQuote q s) (hq : IsQuote q) (u : List UInt8) :
    Quoted q (s ++ newline :: q :: u) u := by
  have hnewline : newline ≠ q := by rcases hq with rfl | rfl <;> decide
  induction h with
  | nil => exact .char hnewline (by decide) (.close u)
  | pending => exact .escape newline (.close u)
  | escape c _ ih => exact .escape c ih
  | char hquote hescape _ ih => exact .char hquote hescape ih

/-- **What is unclosed can be closed.** -/
theorem Unclosed.exists_closed (h : Unclosed s) : ∃ e, Closed (s ++ e) := by
  cases h with
  | @bracket stack s t h hstack ht =>
    exact ⟨newline :: stack.map closer,
      ((h.extend (.inr (neutral_newline _))).items_trans (ht.items _)).close⟩
  | @comment stack s s' n h hin =>
    have hend : CommentItems (newline :: commentEnds (n + 1) (stack.map closer))
        (commentEnds (n + 1) (stack.map closer)) :=
      .char (fun h => absurd h.1 (by decide)) (fun h => absurd h.1 (by decide)) (.done _)
    have hreach := (hin.extend (.inr (neutral_newline (commentEnds (n + 1) (stack.map closer)))))
    have hclosed : CommentReach n (s' ++ newline :: commentEnds (n + 1) (stack.map closer))
        (commentEnds (n + 1) (stack.map closer)) := hreach.items_trans hend
    exact ⟨newline :: commentEnds (n + 1) (stack.map closer),
      ((h.extend (.inl (List.cons_ne_nil _ _))).items_trans
        (.comment hclosed.close (.done _))).close⟩
  | @quote stack s s' q h hq hin =>
    exact ⟨newline :: q :: stack.map closer,
      ((h.extend (.inl (List.cons_ne_nil _ _))).items_trans
        (.quoted hq (hin.close hq _) (.done _))).close⟩

end ZealBringup.Compiler
