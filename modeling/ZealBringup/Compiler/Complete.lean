import ZealBringup.Compiler.Chunk

/-!
# The check of a chunk is right

`user_input_complete` against the grammar of chunks.

* `Within` — a chunk stays within the sizes of the stack and of the comment counter.
* `userInputLoop_reach` — the loop is where the grammar says it is.
* `user_input_complete_correct` — the function says 0 exactly for unclosed chunks.
-/

namespace ZealBringup.Compiler

variable {lim : InputLimits} {s t u e stack stack' : List UInt8} {c o q : UInt8} {m n : ℕ}

/-! ## Limits -/

/-- The brackets and comments of a chunk stay within the limits, below some open brackets. -/
structure Within (lim : InputLimits) (stack s : List UInt8) : Prop where
  brackets : ∀ stack' t, Reach stack' s t → stack.length + stack'.length ≤ lim.depth
  comments : ∀ stack' s' n t, Reach stack' s (slash :: star :: s') → CommentReach n s' t →
    n + 1 < lim.counter

theorem Within.after (h : Within lim stack s) (hitems : Items s t) : Within lim stack t where
  brackets := fun stack' u hu => h.brackets stack' u (hu.prepend hitems)
  comments := fun stack' s' n u hu hin => h.comments stack' s' n u (hu.prepend hitems) hin

theorem Within.inside (h : Within lim stack (o :: s)) (ho : IsOpen o) :
    Within lim (o :: stack) s where
  brackets := fun stack' t ht => by
    have hle := h.brackets _ t (.bracket (.done _) ho ht)
    simp only [List.length_append, List.length_cons, List.length_nil] at hle ⊢
    omega
  comments := fun stack' s' n t ht hin => h.comments _ s' n t (.bracket (.done _) ho ht) hin

/-- A counter that no comment of a text overflows, with `m` open comments around it. -/
def CommentsWithin (lim : InputLimits) (m : ℕ) (s : List UInt8) : Prop :=
  ∀ n t, CommentReach n s t → m + n < lim.counter

theorem CommentsWithin.after (h : CommentsWithin lim m s) (hitems : CommentItems s t) :
    CommentsWithin lim m t := fun n u hu => h n u (hu.prepend hitems)

theorem CommentsWithin.inside (h : CommentsWithin lim m (slash :: star :: s)) :
    CommentsWithin lim (m + 1) s := fun n t ht => by
  have hlt := h (n + 1) t (.nested (.done _) ht)
  omega

theorem Within.comment (h : Within lim stack (slash :: star :: s)) : CommentsWithin lim 1 s :=
  fun n t ht => by
    have hlt := h.comments [] s n t (.items (.done _)) ht
    omega

/-! ## The loop on items -/

theorem IsQuote.ne_zero (h : IsQuote q) : q ≠ 0 := by
  rcases h with rfl | rfl <;> decide

theorem headD_eq_iff {x : UInt8} (hx : x ≠ 0) : s.headD 0 = x ↔ s.head? = some x := by
  cases s with
  | nil => exact ⟨fun h => absurd h.symm hx, fun h => nomatch h⟩
  | cons c s => simp

/-- The state outside of comments and quotes. -/
def outside (stack : List UInt8) : InputState := { stack := stack }

/-- The state in a comment. -/
def inComment (stack : List UInt8) (m : ℕ) : InputState := { stack := stack, comment := m }

/-- The state in a quoted string. -/
def inQuote (stack : List UInt8) (q : UInt8) : InputState := { stack := stack, quote := q }

/-- One character outside of comments and quotes. -/
theorem loop_outside (lim : InputLimits) (stack : List UInt8) (c : UInt8) (s : List UInt8) :
    userInputLoop lim (outside stack) (c :: s) =
      if c = slash ∧ s.headD 0 = slash then
        userInputLoop lim (outside stack) ((s.dropWhile fun c => c ≠ newline).drop 1)
      else if c = slash ∧ s.headD 0 = star then
        userInputLoop lim (inComment stack 1) (s.drop 1)
      else if IsQuote c then userInputLoop lim (inQuote stack c) s
      else if IsOpen c then
        if stack.length = lim.depth then true else userInputLoop lim (outside (c :: stack)) s
      else if IsClose c then
        match stack with
        | [] => true
        | o :: stack => if ¬Pair o c then true else userInputLoop lim (outside stack) s
      else userInputLoop lim (outside stack) s := by
  have hcomment : ¬(outside stack).comment ≠ 0 := not_not.2 rfl
  have hquote : ¬(outside stack).quote ≠ 0 := not_not.2 rfl
  rw [userInputLoop, if_neg hcomment, if_neg hquote]
  rfl

/-- One character in a comment. -/
theorem loop_inComment (hm : m ≠ 0) (c : UInt8) (s : List UInt8) :
    userInputLoop lim (inComment stack m) (c :: s) =
      if c = slash ∧ s.headD 0 = star then
        userInputLoop lim (inComment stack ((m + 1) % lim.counter)) (s.drop 1)
      else if c = star ∧ s.headD 0 = slash then
        userInputLoop lim (inComment stack (m - 1)) (s.drop 1)
      else userInputLoop lim (inComment stack m) s := by
  have hcomment : (inComment stack m).comment ≠ 0 := hm
  rw [userInputLoop, if_pos hcomment]
  rfl

/-- One character in a quoted string. -/
theorem loop_inQuote (hq : IsQuote q) (c : UInt8) (s : List UInt8) :
    userInputLoop lim (inQuote stack q) (c :: s) =
      if c = backslash then userInputLoop lim { inQuote stack q with escaped := true } s
      else if c = q then userInputLoop lim (outside stack) s
      else userInputLoop lim (inQuote stack q) s := by
  have hcomment : ¬(inQuote stack q).comment ≠ 0 := not_not.2 rfl
  have hquote : (inQuote stack q).quote ≠ 0 := hq.ne_zero
  have hescaped : ¬(inQuote stack q).escaped = true := Bool.false_ne_true
  rw [userInputLoop, if_neg hcomment, if_pos hquote, if_neg hescaped]
  rfl

/-- The character behind a backslash. -/
theorem loop_escaped (hq : IsQuote q) (c : UInt8) (s : List UInt8) :
    userInputLoop lim { inQuote stack q with escaped := true } (c :: s) =
      userInputLoop lim (inQuote stack q) s := by
  have hcomment : ¬({ inQuote stack q with escaped := true } : InputState).comment ≠ 0 :=
    not_not.2 rfl
  have hquote : ({ inQuote stack q with escaped := true } : InputState).quote ≠ 0 := hq.ne_zero
  rw [userInputLoop, if_neg hcomment, if_pos hquote, if_pos rfl]
  rfl

theorem loop_plain (h : Plain c s) :
    userInputLoop lim (outside stack) (c :: s) = userInputLoop lim (outside stack) s := by
  obtain ⟨hopen, hclose, hquote, hslash⟩ := h
  have hslash' : ¬(c = slash ∧ s.headD 0 = slash) := fun ⟨hc, hnext⟩ =>
    hslash ⟨hc, .inl ((headD_eq_iff (by decide)).1 hnext)⟩
  have hstar' : ¬(c = slash ∧ s.headD 0 = star) := fun ⟨hc, hnext⟩ =>
    hslash ⟨hc, .inr ((headD_eq_iff (by decide)).1 hnext)⟩
  rw [loop_outside, if_neg hslash', if_neg hstar', if_neg hquote, if_neg hopen, if_neg hclose]

theorem loop_line {body : List UInt8} (hbody : newline ∉ body) (s : List UInt8) :
    userInputLoop lim (outside stack) (slash :: slash :: (body ++ newline :: s)) =
      userInputLoop lim (outside stack) s := by
  have hdrop : ((slash :: (body ++ newline :: s)).dropWhile fun c => decide (c ≠ newline)) =
      newline :: s := by
    rw [← List.cons_append, List.dropWhile_append_of_pos]
    · rfl
    · intro c hc
      rcases List.mem_cons.1 hc with rfl | hc
      · rfl
      · exact decide_eq_true fun h => hbody (h ▸ hc)
  rw [loop_outside, if_pos ⟨rfl, rfl⟩, hdrop]
  rfl

/-- The line comment at the end. -/
theorem loop_lineEnd (h : LineEnd t) :
    userInputLoop lim (outside stack) t = userInputEnd (outside stack) := by
  rcases h with rfl | ⟨body, hbody, rfl⟩
  · rw [userInputLoop]
  · have hdrop : ((slash :: body).dropWhile fun c => decide (c ≠ newline)) = [] := by
      rw [← List.append_nil (slash :: body), List.dropWhile_append_of_pos]
      · rfl
      · intro c hc
        rcases List.mem_cons.1 hc with rfl | hc
        · rfl
        · exact decide_eq_true fun h => hbody (h ▸ hc)
    rw [loop_outside, if_pos ⟨rfl, rfl⟩, hdrop, List.drop_nil, userInputLoop]

theorem loop_comment (s : List UInt8) :
    userInputLoop lim (outside stack) (slash :: star :: s) =
      userInputLoop lim (inComment stack 1) s := by
  have hstar : star ≠ slash := by decide
  rw [loop_outside, if_neg (fun h => hstar h.2), if_pos ⟨rfl, rfl⟩]
  rfl

theorem loop_nested (hm : m ≠ 0) (hlt : m + 1 < lim.counter) (s : List UInt8) :
    userInputLoop lim (inComment stack m) (slash :: star :: s) =
      userInputLoop lim (inComment stack (m + 1)) s := by
  rw [loop_inComment hm, if_pos ⟨rfl, rfl⟩, Nat.mod_eq_of_lt hlt]
  rfl

theorem loop_commentEnd (hm : m ≠ 0) (s : List UInt8) :
    userInputLoop lim (inComment stack m) (star :: slash :: s) =
      userInputLoop lim (inComment stack (m - 1)) s := by
  rw [loop_inComment hm, if_neg (fun h => absurd h.1 (by decide)), if_pos ⟨rfl, rfl⟩]
  rfl

theorem loop_commentItems (h : CommentItems s t) (hm : m ≠ 0) (hwithin : CommentsWithin lim m s)
    (he : t ≠ [] ∨ Neutral e) :
    userInputLoop lim (inComment stack m) (s ++ e) =
      userInputLoop lim (inComment stack m) (t ++ e) := by
  induction h generalizing m with
  | done => rfl
  | @char c s t hopen hclose h ih =>
    have hhead := head?_extend h.length_le he
    rw [List.cons_append, loop_inComment hm,
      if_neg (fun ⟨hc, hnext⟩ =>
        hopen ⟨hc, hhead star (.inr rfl) ((headD_eq_iff (by decide)).1 hnext)⟩),
      if_neg (fun ⟨hc, hnext⟩ =>
        hclose ⟨hc, hhead slash (.inl rfl) ((headD_eq_iff (by decide)).1 hnext)⟩)]
    exact ih hm (hwithin.after (.char hopen hclose (.done s))) he
  | @nested s s' t hin h ihin ih =>
    have hlt := hwithin 1 s (.nested (.done _) (.items (.done _)))
    rw [List.cons_append, List.cons_append, loop_nested hm hlt,
      ihin (Nat.succ_ne_zero m) hwithin.inside (.inl (List.cons_ne_nil _ _)), List.cons_append,
      List.cons_append, loop_commentEnd (Nat.succ_ne_zero m), Nat.succ_sub_one]
    exact ih hm (hwithin.after (.nested hin (.done s'))) he

theorem loop_quoteOpen (hq : IsQuote q) (s : List UInt8) :
    userInputLoop lim (outside stack) (q :: s) = userInputLoop lim (inQuote stack q) s := by
  have hslash : q ≠ slash := by rcases hq with rfl | rfl <;> decide
  rw [loop_outside, if_neg (fun h => hslash h.1), if_neg (fun h => hslash h.1), if_pos hq]

theorem loop_quoted (h : Quoted q s t) (hq : IsQuote q) (e : List UInt8) :
    userInputLoop lim (inQuote stack q) (s ++ e) = userInputLoop lim (outside stack) (t ++ e) := by
  induction h with
  | close s => rw [List.cons_append, loop_inQuote hq, if_neg hq.ne_backslash, if_pos rfl]
  | escape c h ih =>
    rw [List.cons_append, List.cons_append, loop_inQuote hq, if_pos rfl, loop_escaped hq, ih]
  | char hquote hescape h ih =>
    rw [List.cons_append, loop_inQuote hq, if_neg hescape, if_neg hquote, ih]

/-- The end of the string in a quoted string. -/
theorem loop_openQuote (h : OpenQuote q s) (hq : IsQuote q) :
    userInputLoop lim (inQuote stack q) s = false := by
  have hend : ∀ b, userInputEnd { inQuote stack q with escaped := b } = false := fun b => by
    have hquote : ¬({ inQuote stack q with escaped := b } : InputState).quote = 0 := hq.ne_zero
    rw [userInputEnd, decide_eq_false hquote, Bool.and_false, Bool.false_and]
  induction h with
  | nil =>
    rw [userInputLoop]
    exact hend false
  | pending =>
    rw [loop_inQuote hq, if_pos rfl, userInputLoop]
    exact hend true
  | escape c h ih => rw [loop_inQuote hq, if_pos rfl, loop_escaped hq, ih]
  | char hquote hescape h ih => rw [loop_inQuote hq, if_neg hescape, if_neg hquote, ih]

theorem not_special_of_bracket (h : IsOpen c ∨ IsClose c) : c ≠ slash ∧ ¬IsQuote c := by
  rcases h with (rfl | rfl | rfl) | (rfl | rfl | rfl) <;> exact ⟨by decide, by decide⟩

theorem loop_open (ho : IsOpen o) (hroom : stack.length < lim.depth) (s : List UInt8) :
    userInputLoop lim (outside stack) (o :: s) = userInputLoop lim (outside (o :: stack)) s := by
  obtain ⟨hslash, hquote⟩ := not_special_of_bracket (.inl ho)
  rw [loop_outside, if_neg (fun h => hslash h.1), if_neg (fun h => hslash h.1), if_neg hquote,
    if_pos ho, if_neg (Nat.ne_of_lt hroom)]

theorem IsClose.not_isOpen (hc : IsClose c) : ¬IsOpen c := by
  rcases hc with rfl | rfl | rfl <;> decide

theorem loop_close (hpair : Pair o c) (s : List UInt8) :
    userInputLoop lim (outside (o :: stack)) (c :: s) = userInputLoop lim (outside stack) s := by
  have hc := hpair.isClose
  obtain ⟨hslash, hquote⟩ := not_special_of_bracket (.inr hc)
  rw [loop_outside, if_neg (fun h => hslash h.1), if_neg (fun h => hslash h.1), if_neg hquote,
    if_neg hc.not_isOpen, if_pos hc]
  exact if_neg (not_not.2 hpair)

theorem loop_mismatch (hc : IsClose c) (hpair : ∀ o ∈ stack.head?, ¬Pair o c) (s : List UInt8) :
    userInputLoop lim (outside stack) (c :: s) = true := by
  obtain ⟨hslash, hquote⟩ := not_special_of_bracket (.inr hc)
  rw [loop_outside, if_neg (fun h => hslash h.1), if_neg (fun h => hslash h.1), if_neg hquote,
    if_neg hc.not_isOpen, if_pos hc]
  cases stack with
  | nil => rfl
  | cons o stack => exact if_pos (hpair o rfl)

/-! ## The loop follows the grammar -/

theorem loop_items (h : Items s t) (hwithin : Within lim stack s) (he : t ≠ [] ∨ Neutral e) :
    userInputLoop lim (outside stack) (s ++ e) = userInputLoop lim (outside stack) (t ++ e) := by
  induction h generalizing stack with
  | done => rfl
  | @plain c s t hc h ih =>
    rw [List.cons_append, loop_plain (hc.extend h.length_le he)]
    exact ih (hwithin.after (.plain hc (.done s))) he
  | @line body s t hbody h ih =>
    rw [List.cons_append, List.cons_append, List.append_assoc, List.cons_append, loop_line hbody]
    exact ih (hwithin.after (.line hbody (.done s))) he
  | @comment s s' t hin h ih =>
    rw [List.cons_append, List.cons_append, loop_comment,
      loop_commentItems hin Nat.one_ne_zero hwithin.comment (.inl (List.cons_ne_nil _ _)),
      List.cons_append, List.cons_append, loop_commentEnd Nat.one_ne_zero]
    exact ih (hwithin.after (.comment hin (.done s'))) he
  | @quoted q s s' t hq hin h ih =>
    rw [List.cons_append, loop_quoteOpen hq, loop_quoted hin hq]
    exact ih (hwithin.after (.quoted hq hin (.done s'))) he
  | @bracket o c s s' t hpair hin h ihin ih =>
    have hroom := hwithin.brackets [o] s (.bracket (.done _) hpair.isOpen (.items (.done s)))
    rw [List.length_singleton] at hroom
    rw [List.cons_append, loop_open hpair.isOpen hroom,
      ihin (hwithin.inside hpair.isOpen) (.inl (List.cons_ne_nil _ _)), List.cons_append,
      loop_close hpair]
    exact ih (hwithin.after (.bracket hpair hin (.done s'))) he

/-- **The loop is where the grammar says it is**: at `t` with the same brackets open. -/
theorem userInputLoop_reach (h : Reach stack' s t) (hwithin : Within lim stack s)
    (he : t ≠ [] ∨ Neutral e) :
    userInputLoop lim (outside stack) (s ++ e) =
      userInputLoop lim (outside (stack' ++ stack)) (t ++ e) := by
  induction h generalizing stack with
  | items h => exact loop_items h hwithin he
  | @bracket o inner s s' t h ho hin ih =>
    have hafter := hwithin.after h
    have hroom := hafter.brackets [o] s' (.bracket (.done _) ho (.items (.done s')))
    rw [List.length_singleton] at hroom
    rw [loop_items h hwithin (.inl (List.cons_ne_nil _ _)), List.cons_append, loop_open ho hroom,
      ih (hafter.inside ho) he, List.append_assoc]
    rfl

/-- In a comment that does not end. -/
theorem loop_commentReach (h : CommentReach n s []) (hm : m ≠ 0)
    (hwithin : CommentsWithin lim m s) :
    userInputLoop lim (inComment stack m) s = false := by
  generalize ht : ([] : List UInt8) = t at h
  induction h generalizing m with
  | @items s t h =>
    subst ht
    have hcomment : ¬(inComment stack m).comment = 0 := hm
    have hloop : userInputLoop lim (inComment stack m) (s ++ []) =
        userInputLoop lim (inComment stack m) ([] ++ []) :=
      loop_commentItems h hm hwithin (.inr neutral_nil)
    rw [List.append_nil] at hloop
    rw [hloop, List.append_nil, userInputLoop, userInputEnd, decide_eq_false hcomment,
      Bool.and_false]
  | @nested n s s' t h hin ih =>
    have hafter := hwithin.after h
    have hlt := hafter 1 s' (.nested (.done _) (.items (.done _)))
    have hloop : userInputLoop lim (inComment stack m) (s ++ []) =
        userInputLoop lim (inComment stack m) (slash :: star :: s' ++ []) :=
      loop_commentItems h hm hwithin (.inl (List.cons_ne_nil _ _))
    rw [List.append_nil, List.append_nil] at hloop
    rw [hloop, loop_nested hm hlt]
    exact ih (Nat.succ_ne_zero m) hafter.inside ht

theorem loop_of_closed (h : Closed s) (hwithin : Within lim [] s) :
    userInputLoop lim (outside []) s = true := by
  obtain ⟨t, hitems, hend⟩ := h
  have hloop := loop_items hitems hwithin (.inr neutral_nil)
  rw [List.append_nil, List.append_nil] at hloop
  rw [hloop, loop_lineEnd hend]
  rfl

theorem loop_of_mismatched (h : Mismatched s) (hwithin : Within lim [] s) (e : List UInt8) :
    userInputLoop lim (outside []) (s ++ e) = true := by
  obtain ⟨stack, c, t, hreach, hclose, hpair⟩ := h
  rw [userInputLoop_reach hreach hwithin (.inl (List.cons_ne_nil _ _)), List.append_nil]
  exact loop_mismatch hclose hpair (t ++ e)

theorem loop_of_unclosed (h : Unclosed s) (hwithin : Within lim [] s) :
    userInputLoop lim (outside []) s = false := by
  cases h with
  | @bracket stack s t h hstack ht =>
    have hloop := userInputLoop_reach h hwithin (.inr neutral_nil)
    rw [List.append_nil, List.append_nil, List.append_nil] at hloop
    rw [hloop, loop_lineEnd ht, userInputEnd]
    have hopen : ¬(outside stack).stack = [] := hstack
    rw [decide_eq_false hopen, Bool.false_and, Bool.false_and]
  | @comment stack s s' n h hin =>
    have hloop := userInputLoop_reach h hwithin (e := []) (.inl (List.cons_ne_nil _ _))
    rw [List.append_nil, List.append_nil, List.append_nil] at hloop
    rw [hloop, loop_comment]
    exact loop_commentReach hin Nat.one_ne_zero fun k t ht => by
      have hlt := hwithin.comments stack s' k t h ht
      omega
  | @quote stack s s' q h hq hin =>
    have hloop := userInputLoop_reach h hwithin (e := []) (.inl (List.cons_ne_nil _ _))
    rw [List.append_nil, List.append_nil, List.append_nil] at hloop
    rw [hloop, loop_quoteOpen hq]
    exact loop_openQuote hin hq

/-! ## One of the three -/

/-- A text is within limits of its own length. -/
theorem within_length (s : List UInt8) : Within ⟨s.length, s.length + 1⟩ [] s where
  brackets := fun stack t h => by
    have hle := h.length_le
    simp only [List.length_nil]
    omega
  comments := fun stack s' n t h hin => by
    have hle := h.length_le
    have hin_le := hin.length_le
    simp only [List.length_cons] at hle ⊢
    omega

theorem Closed.not_unclosed (h : Closed s) : ¬Unclosed s := fun hun => by
  have htrue := loop_of_closed h (within_length s)
  rw [loop_of_unclosed hun (within_length s)] at htrue
  exact absurd htrue Bool.false_ne_true

theorem Mismatched.not_unclosed (h : Mismatched s) : ¬Unclosed s := fun hun => by
  have htrue := loop_of_mismatched h (within_length s) []
  rw [List.append_nil, loop_of_unclosed hun (within_length s)] at htrue
  exact absurd htrue Bool.false_ne_true

/-- A bracket behind a closed chunk. -/
theorem Closed.unclosed_bracket (h : Closed s) : Unclosed (s ++ newline :: [40]) :=
  .bracket (.bracket (h.items [40]) (.inl rfl) (.items (.done []))) (List.cons_ne_nil _ _) (.inl rfl)

theorem Closed.not_mismatched (h : Closed s) : ¬Mismatched s := fun hmis =>
  (hmis.extend _).not_unclosed h.unclosed_bracket

/-- **What can still be closed** is what is unclosed. -/
theorem unclosed_iff (s : List UInt8) : Unclosed s ↔ ¬Closed s ∧ ∃ e, Closed (s ++ e) := by
  constructor
  · exact fun h => ⟨fun hclosed => hclosed.not_unclosed h, h.exists_closed⟩
  · rintro ⟨hclosed, e, he⟩
    rcases closed_or_unclosed_or_mismatched s with h | h | h
    · exact absurd h hclosed
    · exact h
    · exact absurd (h.extend e) he.not_mismatched

/-! ## The function -/

/-- At most so many brackets are open at any point of a chunk. -/
def BracketsAtMost (k : ℕ) (s : List UInt8) : Prop :=
  ∀ stack t, Reach stack s t → stack.length ≤ k

/-- Fewer than so many comments are open at any point of a chunk. -/
def CommentsBelow (k : ℕ) (s : List UInt8) : Prop :=
  ∀ stack s' n t, Reach stack s (slash :: star :: s') → CommentReach n s' t → n + 1 < k

theorem within_codeLimits (hbrackets : BracketsAtMost 256 s) (hcomments : CommentsBelow (2 ^ 32) s) :
    Within codeLimits [] s where
  brackets := fun stack t h => by
    rw [List.length_nil, Nat.zero_add]
    exact hbrackets stack t h
  comments := hcomments

theorem userInputComplete_false_iff (hwithin : Within codeLimits [] s) :
    userInputComplete s = false ↔ Unclosed s := by
  refine ⟨fun hfalse => ?_, fun h => loop_of_unclosed h hwithin⟩
  rcases closed_or_unclosed_or_mismatched s with h | h | h
  · have htrue : userInputComplete s = true := loop_of_closed h hwithin
    rw [hfalse] at htrue
    exact absurd htrue Bool.false_ne_true
  · exact h
  · have htrue := loop_of_mismatched h hwithin []
    rw [List.append_nil] at htrue
    have hloop : userInputLoop codeLimits (outside []) s = false := hfalse
    rw [hloop] at htrue
    exact absurd htrue Bool.false_ne_true

/-- **The check is right**: it says 0 exactly for a chunk that is not closed and that more text can
close, which is one that ends inside something; and a mismatched bracket is final. -/
theorem user_input_complete_correct (s : List UInt8) (hbrackets : BracketsAtMost 256 s)
    (hcomments : CommentsBelow (2 ^ 32) s) :
    (userInputComplete s = false ↔ ¬Closed s ∧ ∃ e, Closed (s ++ e)) ∧
      (userInputComplete s = false ↔ Unclosed s ∧ ¬Mismatched s) ∧
      (Mismatched s → ∀ e, userInputComplete (s ++ e) = true) := by
  have hwithin := within_codeLimits hbrackets hcomments
  have hfalse := userInputComplete_false_iff hwithin
  refine ⟨hfalse.trans (unclosed_iff s), hfalse.trans ⟨fun h => ⟨h, fun hmis => ?_⟩, And.left⟩, ?_⟩
  · exact hmis.not_unclosed h
  · exact fun h e => loop_of_mismatched h hwithin e

theorem bracketsAtMost_of_length {k : ℕ} (h : s.length ≤ k) : BracketsAtMost k s :=
  fun stack t hreach => by
    have hle := hreach.length_le
    omega

theorem commentsBelow_of_length {k : ℕ} (h : s.length < k) : CommentsBelow k s :=
  fun stack s' n t hreach hin => by
    have hle := hreach.length_le
    have hin_le := hin.length_le
    simp only [List.length_cons] at hle
    omega

/-- An open bracket and an open comment. -/
theorem user_input_complete_correct_nested :
    ¬Closed [40, slash, star] ∧ ∃ e, Closed ([40, slash, star] ++ e) := by
  have hcorrect := user_input_complete_correct [40, slash, star]
    (bracketsAtMost_of_length (by decide)) (commentsBelow_of_length (by decide))
  exact hcorrect.1.1 (by simp [userInputComplete, userInputLoop, userInputEnd, IsOpen, codeLimits,
    slash, star, IsQuote])

/-! ## The comment counter wraps -/

/-- So many comments, one in another. -/
def openers : ℕ → List UInt8
  | 0 => []
  | n + 1 => slash :: star :: openers n

theorem commentReach_openers (n : ℕ) : CommentReach n (openers n) [] := by
  induction n with
  | zero => exact .items (.done [])
  | succ n ih => exact .nested (.done _) ih

theorem unclosed_openers (n : ℕ) : Unclosed (openers (n + 1)) :=
  .comment (.items (.done _)) (commentReach_openers n)

theorem loop_inComment_openers (n : ℕ) (hm : m ≠ 0) (hn : m + (n + 1) = lim.counter) :
    userInputLoop lim (inComment [] m) (openers (n + 1)) = true := by
  induction n generalizing m with
  | zero =>
    have hzero : (m + 1) % lim.counter = 0 := by rw [← hn, Nat.zero_add, Nat.mod_self]
    rw [openers, loop_inComment hm, if_pos ⟨rfl, rfl⟩, hzero, openers, List.drop_succ_cons,
      List.drop_zero, userInputLoop]
    rfl
  | succ n ih =>
    rw [openers, loop_nested hm (by omega)]
    exact ih (Nat.succ_ne_zero m) (by omega)

/-- As many open comments as the counter has values look like none. -/
theorem loop_openers (h : 2 ≤ lim.counter) :
    userInputLoop lim (outside []) (openers lim.counter) = true := by
  obtain ⟨n, hn⟩ := Nat.exists_eq_add_of_le' h
  rw [hn, openers, loop_comment]
  exact loop_inComment_openers n Nat.one_ne_zero (by omega)

theorem CommentItems.subset (h : CommentItems s t) : t ⊆ s := by
  induction h with
  | done => exact List.Subset.refl _
  | char _ _ _ ih => exact List.subset_cons_of_subset _ ih
  | nested _ _ ihin ih =>
    intro x hx
    have hx' := ihin (List.mem_cons_of_mem star (List.mem_cons_of_mem slash (ih hx)))
    exact List.mem_cons_of_mem _ (List.mem_cons_of_mem _ hx')

theorem Quoted.subset (h : Quoted q s t) : t ⊆ s := by
  induction h with
  | close => exact List.subset_cons_self _ _
  | escape _ _ ih => exact List.subset_cons_of_subset _ (List.subset_cons_of_subset _ ih)
  | char _ _ _ ih => exact List.subset_cons_of_subset _ ih

theorem Items.subset (h : Items s t) : t ⊆ s := by
  induction h with
  | done => exact List.Subset.refl _
  | plain _ _ ih => exact List.subset_cons_of_subset _ ih
  | @line body _ _ _ _ ih =>
    intro x hx
    have hx' := List.mem_append_right body (List.mem_cons_of_mem newline (ih hx))
    exact List.mem_cons_of_mem _ (List.mem_cons_of_mem _ hx')
  | comment hin _ ih =>
    intro x hx
    have hx' := hin.subset (List.mem_cons_of_mem star (List.mem_cons_of_mem slash (ih hx)))
    exact List.mem_cons_of_mem _ (List.mem_cons_of_mem _ hx')
  | quoted _ hin _ ih =>
    intro x hx
    exact List.mem_cons_of_mem _ (hin.subset (ih hx))
  | bracket _ _ _ ihin ih =>
    intro x hx
    exact List.mem_cons_of_mem _ (ihin (List.mem_cons_of_mem _ (ih hx)))

theorem bracketsAtMost_of_no_open (h : ∀ c ∈ s, ¬IsOpen c) (k : ℕ) : BracketsAtMost k s := by
  intro stack t hreach
  cases hreach with
  | items => exact Nat.zero_le k
  | bracket hitems ho => exact absurd ho (h _ (hitems.subset (List.mem_cons_self ..)))

theorem openers_no_open (n : ℕ) : ∀ c ∈ openers n, ¬IsOpen c := by
  induction n with
  | zero => exact fun c hc => absurd hc List.not_mem_nil
  | succ n ih =>
    intro c hc
    rw [openers, List.mem_cons, List.mem_cons] at hc
    rcases hc with rfl | rfl | hc
    · decide
    · decide
    · exact ih c hc

/-- **4294967296 nested comments**: the counter is 0 again, and the chunk passes for a closed
one. -/
theorem user_input_complete_wraps :
    ¬∀ s, BracketsAtMost 256 s →
      (userInputComplete s = false ↔ ¬Closed s ∧ ∃ e, Closed (s ++ e)) := by
  intro hall
  have hcounter : codeLimits.counter = 2 ^ 32 - 1 + 1 := by decide
  have hunclosed : Unclosed (openers codeLimits.counter) := by
    rw [hcounter]
    exact unclosed_openers (2 ^ 32 - 1)
  have htrue : userInputComplete (openers codeLimits.counter) = true := loop_openers (by decide)
  have hfalse := (hall (openers codeLimits.counter)
    (bracketsAtMost_of_no_open (openers_no_open _) 256)).2 ((unclosed_iff _).1 hunclosed)
  rw [htrue] at hfalse
  exact Bool.false_ne_true hfalse.symm

end ZealBringup.Compiler
