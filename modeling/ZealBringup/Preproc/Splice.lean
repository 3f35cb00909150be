import ZealBringup.Lib.Checked
import ZealBringup.Preproc.Directive

/-!
# Splicing files

A program's text is copied line by line.  A line that defines a macro is left out, and for a line
that includes a file the text of the file is copied instead, in which files may be included in
turn; there are at most five texts at a time.

* `hcExpandIncludesR` — the copy.
* `Spliced` — what the text is that is copied, and which macros are recorded.
* `includesR_ends` — the copy stays in its buffer, and is that text.
-/

namespace ZealBringup.Preproc

open Runs Checked

/-! ## The copy -/

/-- The files of the volume, by name. -/
abbrev Files := List UInt8 → Option (List UInt8)

/-- A file that is not empty and fits in the buffer with a NUL. -/
def rsLoadFile (files : Files) (name : List UInt8) (cap : ℕ) :
    Except Stop (Option (List UInt8)) :=
  match files name with
  | none => .ok none
  | some bytes =>
    if bytes.length = 0 || cap ≤ bytes.length then .ok none else do
    return some (← copied cap bytes)

/-- What is read of a buffer: the bytes before the first NUL. -/
def cString (bytes : List UInt8) : List UInt8 := bytes.takeWhile (· ≠ 0)

variable {p : List UInt8}

theorem afterWord_lt {word q : List UInt8} (h : afterWord word p = some q) :
    q.length < p.length := by
  rw [afterWord] at h
  simp only at h
  split_ifs at h with h1
  rw [not_not] at h1
  obtain rfl := Option.some.inj h
  have hne : p.dropWhile isBlank ≠ [] := fun hnil => by
    rw [hnil] at h1
    cases h1
  calc _ ≤ ((p.dropWhile isBlank).tail.dropWhile isBlank).length :=
        ((List.dropWhile_sublist _).trans (List.drop_sublist _ _)).length_le
    _ ≤ (p.dropWhile isBlank).tail.length := (List.dropWhile_sublist _).length_le
    _ < (p.dropWhile isBlank).length := by
        rw [List.length_tail]
        exact Nat.sub_lt (List.length_pos_iff.mpr hne) Nat.one_pos
    _ ≤ p.length := (List.dropWhile_sublist _).length_le

variable {n : ℕ} {r : List UInt8} {m : Macro}

/-- What is behind a line that defines is shorter. -/
theorem hcParseDefine_lt (h : hcParseDefine n p = .ok (some (m, r))) : r.length < p.length := by
  rw [hcParseDefine] at h
  cases hq : afterWord defineWord p with
  | none => rw [hq] at h; cases h
  | some q =>
    rw [hq] at h
    simp only at h
    split_ifs at h with h1 h2 h3
    · cases h
    · cases h
    · cases h
    simp only [Bool.or_eq_true, decide_eq_true_eq, not_or, not_le] at h2 h3
    rw [copied_ok h2.2, copied_ok h3.2] at h
    obtain ⟨-, rfl⟩ := Prod.mk.inj (Option.some.inj (Except.ok.inj h))
    refine lt_of_le_of_lt (List.Sublist.length_le ?_) (afterWord_lt hq)
    exact (List.tail_sublist _).trans ((List.dropWhile_sublist _).trans
      ((List.dropWhile_sublist _).trans (List.dropWhile_sublist _)))

variable {ns : List UInt8}

theorem includeName_le {close : UInt8} {q : List UInt8}
    (h : includeName n close q = .ok (some (ns, r))) : r.length ≤ q.length := by
  rw [includeName] at h
  split_ifs at h
  · cases h
  cases hcopied : copied n ((q.takeWhile fun c => c ≠ close && c ≠ newline).take (n - 1)) with
  | error e => rw [hcopied] at h; cases h
  | ok name =>
    rw [hcopied] at h
    obtain ⟨-, rfl⟩ := Prod.mk.inj (Option.some.inj (Except.ok.inj h))
    exact List.Sublist.length_le ((List.tail_sublist _).trans ((List.dropWhile_sublist _).trans
      ((List.tail_sublist _).trans (List.drop_sublist _ _))))

theorem hcParseInclude_lt (h : hcParseInclude n p = .ok (some (ns, r))) : r.length < p.length := by
  rw [hcParseInclude] at h
  cases hq : afterWord includeWord p with
  | none => rw [hq] at h; cases h
  | some q =>
    rw [hq] at h
    simp only at h
    have htail := (List.tail_sublist q).length_le
    have hlt := afterWord_lt hq
    split_ifs at h
    · exact (includeName_le h).trans_lt (htail.trans_lt hlt)
    · exact (includeName_le h).trans_lt (htail.trans_lt hlt)
    · cases h

/-- The loop over a text, at `p`, with `out` copied so far; `sub` copies a text that is included. -/
def includesLoop (files : Files)
    (sub : ℕ → List Macro → List UInt8 → Except Stop (List UInt8 × List Macro)) (cap : ℕ)
    (lineStart : Bool) (p out : List UInt8) (ms : List Macro) :
    Except Stop (List UInt8 × List Macro) :=
  match p with
  | [] => do return (← terminate cap out, ms)
  | c :: p =>
    match _hd : if lineStart then hcParseDefine ms.length (c :: p) else .ok none with
    | .error e => .error e
    | .ok (some (m, rest)) => includesLoop files sub cap true rest out (ms ++ [m])
    | .ok none =>
      match _hi : if lineStart then hcParseInclude 40 (c :: p) else .ok none with
      | .error e => .error e
      | .ok (some (name, rest)) =>
        match rsLoadFile files name 4096 with
        | .error e => .error e
        | .ok none => .error (.refused (-2))
        | .ok (some bytes) =>
          match sub (cap - out.length) ms (cString bytes) with
          | .error .overrun => .error .overrun
          | .error (.refused _) => .error (.refused (-3))
          | .ok (text, ms) =>
            if cap ≤ (out ++ text).length + 1 then .error (.refused (-4))
            else includesLoop files sub cap true rest (out ++ text) ms
      | .ok none =>
        if cap ≤ out.length + 1 then .error (.refused (-4)) else
        match store cap out c with
        | .error e => .error e
        | .ok out => includesLoop files sub cap (c = newline) p out ms
  termination_by p.length
  decreasing_by
    · split at _hd
      · exact hcParseDefine_lt _hd
      · cases _hd
    · split at _hi
      · exact hcParseInclude_lt _hi
      · cases _hi
    · exact Nat.lt_succ_self _

/-- A text at `k` levels below the deepest one that is allowed. -/
def hcExpandIncludesR (files : Files) :
    ℕ → ℕ → List Macro → List UInt8 → Except Stop (List UInt8 × List Macro)
  | 0, _, _, _ => .error (.refused (-1))
  | k + 1, cap, ms, src => includesLoop files (hcExpandIncludesR files k) cap true src [] ms

/-! ## One step -/

section Step

variable {files : Files} {sub : ℕ → List Macro → List UInt8 → Except Stop (List UInt8 × List Macro)}
  {cap : ℕ} {lineStart : Bool} {c : UInt8} {p out rest ns : List UInt8} {ms : List Macro} {m : Macro}

theorem includesLoop_nil : includesLoop files sub cap lineStart [] out ms =
    (terminate cap out).map fun out => (out, ms) := by
  rw [includesLoop]
  cases terminate cap out <;> rfl

theorem includesLoop_define (h : hcParseDefine ms.length (c :: p) = .ok (some (m, rest))) :
    includesLoop files sub cap true (c :: p) out ms =
      includesLoop files sub cap true rest out (ms ++ [m]) := by
  rw [includesLoop]
  split
  case h_1 heq => rw [if_pos rfl, h] at heq; cases heq
  case h_2 heq => rw [if_pos rfl, h] at heq; cases heq; rfl
  case h_3 heq => rw [if_pos rfl, h] at heq; cases heq

/-- What is done with the text of a file. -/
def spliceFile (files : Files)
    (sub : ℕ → List Macro → List UInt8 → Except Stop (List UInt8 × List Macro)) (cap : ℕ)
    (ns out : List UInt8) (ms : List Macro) : Except Stop (List UInt8 × List Macro) :=
  match rsLoadFile files ns 4096 with
  | .error e => .error e
  | .ok none => .error (.refused (-2))
  | .ok (some bytes) =>
    match sub (cap - out.length) ms (cString bytes) with
    | .error .overrun => .error .overrun
    | .error (.refused _) => .error (.refused (-3))
    | .ok (text, ms) =>
      if cap ≤ (out ++ text).length + 1 then .error (.refused (-4)) else .ok (out ++ text, ms)

theorem includesLoop_include (hd : hcParseDefine ms.length (c :: p) = .ok none)
    (hi : hcParseInclude 40 (c :: p) = .ok (some (ns, rest))) :
    includesLoop files sub cap true (c :: p) out ms = spliceFile files sub cap ns out ms >>=
      fun r => includesLoop files sub cap true rest r.1 r.2 := by
  rw [includesLoop]
  split
  case h_1 heq => rw [if_pos rfl, hd] at heq; cases heq
  case h_2 heq => rw [if_pos rfl, hd] at heq; cases heq
  case h_3 heq =>
    split
    case h_1 heq' => rw [if_pos rfl, hi] at heq'; cases heq'
    case h_3 heq' => rw [if_pos rfl, hi] at heq'; cases heq'
    case h_2 heq' =>
      rw [if_pos rfl, hi] at heq'
      cases heq'
      rw [spliceFile]
      split
      · rfl
      · rfl
      split
      · rfl
      · rfl
      split <;> rfl

theorem includesLoop_copy
    (h : lineStart = true → hcParseDefine ms.length (c :: p) = .ok none ∧
      hcParseInclude 40 (c :: p) = .ok none) :
    includesLoop files sub cap lineStart (c :: p) out ms =
      if cap ≤ out.length + 1 then .error (.refused (-4))
      else includesLoop files sub cap (c = newline) p (out ++ [c]) ms := by
  have hd : (if lineStart then hcParseDefine ms.length (c :: p) else .ok none) = .ok none := by
    split
    case isTrue hs => exact (h hs).1
    case isFalse => rfl
  have hi : (if lineStart then hcParseInclude 40 (c :: p) else .ok none) = .ok none := by
    split
    case isTrue hs => exact (h hs).2
    case isFalse => rfl
  rw [includesLoop]
  split
  case h_1 heq => rw [hd] at heq; cases heq
  case h_2 heq => rw [hd] at heq; cases heq
  case h_3 heq =>
    split
    case h_1 heq' => rw [hi] at heq'; cases heq'
    case h_2 heq' => rw [hi] at heq'; cases heq'
    case h_3 heq' =>
      split
      · rfl
      case isFalse hroom => rw [store_ok (by omega)]

/-- A line without a directive is copied. -/
theorem copyLine {l t : List UInt8} {R : List UInt8 × List Macro → Prop} (hl : newline ∉ l)
    (ht : EndsLine t) (hne : l ++ t ≠ [])
    (hnone : lineStart = true → hcParseDefine ms.length (l ++ t) = .ok none ∧
      hcParseInclude 40 (l ++ t) = .ok none)
    (hnext : out.length + (l ++ t.take 1).length < cap → Ends (· ≠ .overrun)
      (includesLoop files sub cap true t.tail (out ++ (l ++ t.take 1)) ms) R) :
    Ends (· ≠ .overrun) (includesLoop files sub cap lineStart (l ++ t) out ms) R := by
  have hfull : Ends (· ≠ Stop.overrun)
      (.error (.refused (-4)) : Except Stop (List UInt8 × List Macro)) R := Ends.error (by decide)
  induction l generalizing out lineStart with
  | nil =>
    obtain ⟨c, t, rfl⟩ := List.exists_cons_of_ne_nil hne
    obtain rfl := ht c rfl
    rw [List.nil_append] at hnone ⊢
    rw [includesLoop_copy hnone, decide_eq_true (rfl : newline = newline)]
    exact Ends.ite (fun _ => hfull) fun hroom => hnext (by simpa using by omega)
  | cons c l ih =>
    obtain ⟨hc, hl⟩ := not_or.mp (mt List.mem_cons.mpr hl)
    rw [List.cons_append] at hnone ⊢
    rw [includesLoop_copy hnone, decide_eq_false (Ne.symm hc)]
    refine Ends.ite (fun _ => hfull) fun hroom => ?_
    have hout : out ++ (c :: l ++ t.take 1) = out ++ [c] ++ (l ++ t.take 1) := by simp
    rw [hout] at hnext
    by_cases hend : l ++ t = []
    · obtain ⟨rfl, rfl⟩ := List.append_eq_nil_iff.mp hend
      rw [List.append_nil, includesLoop_nil]
      have hlast := hnext (by simpa using by omega)
      rwa [List.take_nil, List.append_nil, List.append_nil, List.tail_nil, includesLoop_nil] at hlast
    · refine ih hl hend (fun h => by cases h) fun hlen => hnext ?_
      simp only [List.length_append, List.length_cons, List.length_nil] at hlen ⊢
      omega

end Step

/-! ## What is copied -/

/-- The text with its directives carried out, where `k` texts may be open at a time: macros that are
recorded before and after it. -/
inductive Spliced (files : Files) :
    ℕ → List Macro → List UInt8 → List Macro → List UInt8 → Prop
  | done {k : ℕ} {ms : List Macro} : Spliced files (k + 1) ms [] ms []
  | define {k : ℕ} {ms ms' : List Macro} {m : Macro} {l t s : List UInt8} (hl : newline ∉ l)
      (ht : EndsLine t) (hdefine : DefineLine l m) (hroom : ms.length < 24)
      (hrest : Spliced files (k + 1) (ms ++ [m]) t.tail ms' s) :
      Spliced files (k + 1) ms (l ++ t) ms' s
  | splice {k : ℕ} {ms ms' ms'' : List Macro} {l t ns bytes sub s : List UInt8} (hl : newline ∉ l)
      (ht : EndsLine t) (hdefine : ∀ m, DefineLine l m → 24 ≤ ms.length)
      (hinclude : IncludeLine 40 l ns)
      (hfile : rsLoadFile files ns 4096 = .ok (some bytes))
      (hsub : Spliced files k ms (cString bytes) ms' sub)
      (hrest : Spliced files (k + 1) ms' t.tail ms'' s) :
      Spliced files (k + 1) ms (l ++ t) ms'' (sub ++ s)
  | keep {k : ℕ} {ms ms' : List Macro} {l t s : List UInt8} (hl : newline ∉ l) (ht : EndsLine t)
      (hne : l ++ t ≠ []) (hdefine : ∀ m, DefineLine l m → 24 ≤ ms.length)
      (hinclude : ∀ ns, ¬IncludeLine 40 l ns)
      (hrest : Spliced files (k + 1) ms t.tail ms' s) :
      Spliced files (k + 1) ms (l ++ t) ms' (l ++ t.take 1 ++ s)

variable {l : List UInt8}

theorem line_unique {l' t t' : List UInt8} (hl : newline ∉ l) (ht : EndsLine t)
    (hl' : newline ∉ l') (ht' : EndsLine t') (h : l ++ t = l' ++ t') : l = l' ∧ t = t' := by
  have hrun : ∀ l : List UInt8, newline ∉ l → ∀ x ∈ l, decide (x ≠ newline) := fun l hl x hx =>
    decide_eq_true fun heq => hl (heq ▸ hx)
  have htake := congrArg (List.takeWhile fun x => decide (x ≠ newline)) h
  rw [takeWhile_run (hrun l hl) (ht.stops (by decide)),
    takeWhile_run (hrun l' hl') (ht'.stops (by decide))] at htake
  subst htake
  exact ⟨rfl, List.append_cancel_left h⟩

theorem DefineLine.unique {m' : Macro} (hl : newline ∉ l) (h : DefineLine l m)
    (h' : DefineLine l m') : m = m' := by
  have hm := (hcParseDefine_iff (n := 0) hl).mpr ⟨⟨h, by decide⟩, rfl⟩
  have hm' := (hcParseDefine_iff (n := 0) hl).mpr ⟨⟨h', by decide⟩, rfl⟩
  exact (Prod.mk.inj (Option.some.inj (Except.ok.inj (hm.symm.trans hm')))).1

theorem IncludeLine.unique {ns' : List UInt8} (hl : newline ∉ l) (h : IncludeLine n l ns)
    (h' : IncludeLine n l ns') : ns = ns' := by
  have hns := (hcParseInclude_iff hl).mpr ⟨h, rfl⟩
  have hns' := (hcParseInclude_iff hl).mpr ⟨h', rfl⟩
  exact (Prod.mk.inj (Option.some.inj (Except.ok.inj (hns.symm.trans hns')))).1

theorem DefineLine.ne_nil (h : DefineLine l m) : l ≠ [] := by
  obtain ⟨-, a, b, c, d, e, -, -, -, -, rfl⟩ := h
  simp

theorem IncludeLine.ne_nil (h : IncludeLine n l ns) : l ≠ [] := by
  obtain ⟨-, a, b, c, e, o, close, -, -, -, rfl⟩ := h
  simp

variable {files : Files} {k : ℕ}

/-- There is one such text only. -/
theorem Spliced.unique {ms ms1 ms2 : List Macro} {text s1 s2 : List UInt8}
    (h1 : Spliced files k ms text ms1 s1) (h2 : Spliced files k ms text ms2 s2) :
    ms1 = ms2 ∧ s1 = s2 := by
  induction h1 generalizing ms2 s2 with
  | done =>
    generalize htext : ([] : List UInt8) = text at h2
    cases h2 with
    | done => exact ⟨rfl, rfl⟩
    | define _ _ hdefine => exact absurd (List.append_eq_nil_iff.mp htext.symm).1 hdefine.ne_nil
    | splice _ _ _ hinclude => exact absurd (List.append_eq_nil_iff.mp htext.symm).1 hinclude.ne_nil
    | keep _ _ hne => exact absurd htext.symm hne
  | @define k ms ms' m l t s hl ht hdefine hroom _ ih =>
    generalize htext : l ++ t = text at h2
    cases h2 with
    | done => exact absurd (List.append_eq_nil_iff.mp htext).1 hdefine.ne_nil
    | define hl' ht' hdefine' _ hrest' =>
      obtain ⟨rfl, rfl⟩ := line_unique hl ht hl' ht' htext
      obtain rfl := hdefine.unique hl hdefine'
      exact ih hrest'
    | splice hl' ht' hdefine' =>
      obtain ⟨rfl, rfl⟩ := line_unique hl ht hl' ht' htext
      exact absurd hroom (not_lt.mpr (hdefine' _ hdefine))
    | keep hl' ht' _ hdefine' =>
      obtain ⟨rfl, rfl⟩ := line_unique hl ht hl' ht' htext
      exact absurd hroom (not_lt.mpr (hdefine' _ hdefine))
  | @splice k ms ms' ms'' l t ns bytes sub s hl ht hdefine hinclude hfile _ _ ih ih' =>
    generalize htext : l ++ t = text at h2
    cases h2 with
    | done => exact absurd (List.append_eq_nil_iff.mp htext).1 hinclude.ne_nil
    | define hl' ht' hdefine' hroom' =>
      obtain ⟨rfl, rfl⟩ := line_unique hl ht hl' ht' htext
      exact absurd hroom' (not_lt.mpr (hdefine _ hdefine'))
    | splice hl' ht' _ hinclude' hfile' hsub' hrest' =>
      obtain ⟨rfl, rfl⟩ := line_unique hl ht hl' ht' htext
      obtain rfl := hinclude.unique hl hinclude'
      obtain rfl := Option.some.inj (Except.ok.inj (hfile.symm.trans hfile'))
      obtain ⟨rfl, rfl⟩ := ih hsub'
      obtain ⟨rfl, rfl⟩ := ih' hrest'
      exact ⟨rfl, rfl⟩
    | keep hl' ht' _ _ hinclude' =>
      obtain ⟨rfl, rfl⟩ := line_unique hl ht hl' ht' htext
      exact absurd hinclude (hinclude' _)
  | @keep k ms ms' l t s hl ht hne hdefine hinclude _ ih =>
    generalize htext : l ++ t = text at h2
    cases h2 with
    | done => exact absurd htext hne
    | define hl' ht' hdefine' hroom' =>
      obtain ⟨rfl, rfl⟩ := line_unique hl ht hl' ht' htext
      exact absurd hroom' (not_lt.mpr (hdefine _ hdefine'))
    | splice hl' ht' _ hinclude' =>
      obtain ⟨rfl, rfl⟩ := line_unique hl ht hl' ht' htext
      exact absurd hinclude' (hinclude _)
    | keep hl' ht' _ _ _ hrest' =>
      obtain ⟨rfl, rfl⟩ := line_unique hl ht hl' ht' htext
      obtain ⟨rfl, rfl⟩ := ih hrest'
      exact ⟨rfl, rfl⟩

/-- What a copy behind `out` has to have done. -/
def Copies (files : Files) (k cap : ℕ) (out : List UInt8) (ms : List Macro) (text : List UInt8)
    (r : List UInt8 × List Macro) : Prop :=
  (∃ s, r.1 = out ++ s ∧ Spliced files k ms text r.2 s) ∧ r.1.length < cap

theorem rsLoadFile_ok (files : Files) (ns : List UInt8) (cap : ℕ) :
    ∃ r, rsLoadFile files ns cap = .ok r := by
  rw [rsLoadFile]
  cases files ns with
  | none => exact ⟨_, rfl⟩
  | some bytes =>
    simp only
    split_ifs with h
    · exact ⟨_, rfl⟩
    · simp only [Bool.or_eq_true, decide_eq_true_eq, not_or, not_le] at h
      rw [copied_ok h.2]
      exact ⟨_, rfl⟩

theorem spliceFile_ends {cap : ℕ}
    {sub : ℕ → List Macro → List UInt8 → Except Stop (List UInt8 × List Macro)}
    (hsub : ∀ cap ms text, 0 < cap → Ends (· ≠ .overrun) (sub cap ms text) (Copies files k cap [] ms text))
    {out : List UInt8} {ms : List Macro} (hroom : out.length < cap) :
    Ends (· ≠ Stop.overrun) (spliceFile files sub cap ns out ms) fun r =>
      (∃ bytes s, rsLoadFile files ns 4096 = .ok (some bytes) ∧ r.1 = out ++ s ∧
        Spliced files k ms (cString bytes) r.2 s) ∧ r.1.length < cap := by
  obtain ⟨loaded, hload⟩ := rsLoadFile_ok files ns 4096
  rw [spliceFile, hload]
  cases loaded with
  | none => exact Ends.error (by decide)
  | some bytes =>
    have hends := hsub (cap - out.length) ms (cString bytes) (by omega)
    simp only
    cases hr : sub (cap - out.length) ms (cString bytes) with
    | error e =>
      cases e with
      | overrun => rw [hr] at hends; exact absurd rfl hends
      | refused code => exact Ends.error (by decide)
    | ok r =>
      rw [hr] at hends
      obtain ⟨⟨s, hs, hspliced⟩, hlt⟩ := hends
      refine Ends.ite (fun _ => Ends.error (by decide)) fun hfits => Ends.ok ⟨⟨bytes, r.1, rfl, rfl, ?_⟩,
        (Nat.lt_succ_self _).trans (not_le.mp hfits)⟩
      rw [hs, List.nil_append]
      exact hspliced

theorem includesLoop_ends {cap : ℕ}
    {sub : ℕ → List Macro → List UInt8 → Except Stop (List UInt8 × List Macro)}
    (hsub : ∀ cap ms text, 0 < cap → Ends (· ≠ .overrun) (sub cap ms text) (Copies files k cap [] ms text))
    (text out : List UInt8) (ms : List Macro) (hroom : out.length < cap) :
    Ends (· ≠ .overrun) (includesLoop files sub cap true text out ms)
      (Copies files (k + 1) cap out ms text) := by
  induction hlen : text.length using Nat.strong_induction_on generalizing text out ms with
  | _ len ih =>
    by_cases hne : text = []
    · subst hne
      rw [includesLoop_nil, terminate_ok hroom]
      exact Ends.ok ⟨⟨[], (List.append_nil _).symm, .done⟩, hroom⟩
    -- The first line, and the rest.
    obtain ⟨l, t, rfl, hl, ht⟩ : ∃ l t, text = l ++ t ∧ newline ∉ l ∧ EndsLine t := by
      refine ⟨text.takeWhile (· ≠ newline), text.dropWhile (· ≠ newline),
        List.takeWhile_append_dropWhile.symm, fun h => ?_, fun c hc => ?_⟩
      · have hnot := all_of_takeWhile _ _ _ h
        simp at hnot
      · have hnot := stops_dropWhile _ _ c hc
        simpa using hnot
    have hshort : t.tail.length < len := by
      have hpos := List.length_pos_iff.mpr hne
      rw [List.length_append] at hlen hpos
      rw [List.length_tail]
      omega
    have hd := hcParseDefine_append (n := ms.length) hl ht
    have hi := hcParseInclude_append (n := 40) hl ht
    obtain ⟨c, p, htext⟩ := List.exists_cons_of_ne_nil hne
    obtain ⟨rd, hrd⟩ := hcParseDefine_ok ms.length l
    obtain ⟨ri, hri⟩ := hcParseInclude_ok 40 l
    rw [hrd] at hd
    rw [hri] at hi
    cases rd with
    | some r =>
      obtain ⟨m, r⟩ := r
      obtain ⟨⟨hline, hcount⟩, -⟩ := (hcParseDefine_iff hl).mp hrd
      rw [htext] at hd ⊢
      rw [includesLoop_define hd]
      refine (ih _ hshort t.tail out (ms ++ [m]) hroom rfl).imp ?_
      rintro r ⟨⟨s, hs, hspliced⟩, hlt⟩
      refine ⟨⟨s, hs, ?_⟩, hlt⟩
      rw [← htext]
      exact .define hl ht hline hcount hspliced
    | none =>
      have hdefine : ∀ m, DefineLine l m → 24 ≤ ms.length := fun m hm => by
        by_contra hcount
        have hsome := (hcParseDefine_iff hl).mpr ⟨⟨hm, not_le.mp hcount⟩, rfl⟩
        rw [hrd] at hsome
        cases hsome
      cases ri with
      | some r =>
        obtain ⟨ns, r⟩ := r
        obtain ⟨hline, -⟩ := (hcParseInclude_iff hl).mp hri
        rw [htext] at hd hi ⊢
        rw [includesLoop_include hd hi, ← htext]
        have hfile : Ends (· ≠ Stop.overrun) (spliceFile files sub cap ns out ms) fun r =>
            (∃ bytes s, rsLoadFile files ns 4096 = .ok (some bytes) ∧ r.1 = out ++ s ∧
              Spliced files k ms (cString bytes) r.2 s) ∧ r.1.length < cap :=
          spliceFile_ends hsub hroom
        refine hfile.bind ?_
        rintro r ⟨⟨bytes, s, hbytes, hs, hspliced⟩, hlt⟩
        refine (ih _ hshort t.tail r.1 r.2 hlt rfl).imp ?_
        rintro r' ⟨⟨s', hs', hspliced'⟩, hlt'⟩
        refine ⟨⟨s ++ s', ?_, .splice hl ht hdefine hline hbytes hspliced hspliced'⟩, hlt'⟩
        rw [hs', hs, List.append_assoc]
      | none =>
        have hinclude : ∀ ns, ¬IncludeLine 40 l ns := fun ns hns => by
          have hsome := (hcParseInclude_iff hl).mpr ⟨hns, rfl⟩
          rw [hri] at hsome
          cases hsome
        refine copyLine hl ht hne (fun _ => ⟨hd, hi⟩) fun hfits => ?_
        refine (ih _ hshort t.tail (out ++ (l ++ t.take 1)) ms (by simpa using hfits) rfl).imp ?_
        rintro r ⟨⟨s, hs, hspliced⟩, hlt⟩
        refine ⟨⟨l ++ t.take 1 ++ s, ?_, .keep hl ht hne hdefine hinclude hspliced⟩, hlt⟩
        rw [hs, List.append_assoc]

/-- **The copy** stores nothing outside its buffers, and copies the text with its directives carried
out. -/
theorem includesR_ends (files : Files) (k cap : ℕ) (ms : List Macro) (text : List UInt8)
    (hcap : 0 < cap) :
    Ends (· ≠ .overrun) (hcExpandIncludesR files k cap ms text) (Copies files k cap [] ms text) := by
  induction k generalizing cap ms text with
  | zero => exact Ends.error (by decide)
  | succ k ih => exact includesLoop_ends (fun cap ms text h => ih cap ms text h) text [] ms hcap

end ZealBringup.Preproc
