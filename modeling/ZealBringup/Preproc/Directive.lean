import Mathlib
import ZealBringup.Lib.Runs

/-!
# Directives

A line of a program that begins with `#define` records a macro, and one that begins with
`#include` names a file.  Both are looked for at the beginnings of lines only, and what a line is
does not depend on the lines around it.

* `hcParseDefine`, `hcParseInclude` — the two lines, where a pointer stands.
* `hcParseDefine_line`, `hcParseInclude_line` — their effect, line by line.
* `defineLine_iff`, `includeLine_iff` — the form of the lines.
-/

namespace ZealBringup.Preproc

open Runs

/-- What a computation stops with: a store behind the end of a buffer, or a negative result. -/
inductive Stop
  | overrun
  | refused (code : ℤ)
  deriving DecidableEq, Repr

/-! ## Buffers -/

/-- A store at `out[n++]`, where `n` is how much a buffer of `size` bytes holds. -/
def store (size : ℕ) (out : List UInt8) (c : UInt8) : Except Stop (List UInt8) :=
  if out.length < size then .ok (out ++ [c]) else .error .overrun

def storeAll (size : ℕ) : List UInt8 → List UInt8 → Except Stop (List UInt8)
  | out, [] => .ok out
  | out, c :: cs => do storeAll size (← store size out c) cs

/-- The NUL is stored, and what is before it is the text. -/
def terminate (size : ℕ) (out : List UInt8) : Except Stop (List UInt8) := do
  let _ ← store size out 0
  return out

/-- A text is copied into a buffer of its own. -/
def copied (size : ℕ) (cs : List UInt8) : Except Stop (List UInt8) := do
  terminate size (← storeAll size [] cs)

variable {size : ℕ} {out cs : List UInt8}

theorem store_ok (h : out.length < size) (c : UInt8) : store size out c = .ok (out ++ [c]) :=
  if_pos h

theorem storeAll_ok (h : out.length + cs.length ≤ size) : storeAll size out cs = .ok (out ++ cs) := by
  induction cs generalizing out with
  | nil => rw [List.append_nil]; rfl
  | cons c cs ih =>
    rw [List.length_cons] at h
    rw [storeAll, store_ok (by omega)]
    refine (ih (by rw [List.length_append, List.length_singleton]; omega)).trans ?_
    rw [List.append_assoc]
    rfl

theorem terminate_ok (h : out.length < size) : terminate size out = .ok out := by
  rw [terminate, store_ok h]
  rfl

theorem copied_ok (h : cs.length < size) : copied size cs = .ok cs := by
  rw [copied, storeAll_ok (by rw [List.length_nil]; omega)]
  exact terminate_ok h

/-! ## Characters -/

def newline : UInt8 := 10
def hash : UInt8 := 35
def quote : UInt8 := 34

def isBlank (c : UInt8) : Bool := c = 32 || c = 9

/-- What is taken off the end of a macro's body. -/
def isTrail (c : UInt8) : Bool := c = 32 || c = 9 || c = 13

def hcMacIdentStart (c : UInt8) : Bool := (97 ≤ c && c ≤ 122) || (65 ≤ c && c ≤ 90) || c = 95

def hcMacIdentChar (c : UInt8) : Bool :=
  (97 ≤ c && c ≤ 122) || (65 ≤ c && c ≤ 90) || (48 ≤ c && c ≤ 57) || c = 95

/-- `define` -/
def defineWord : List UInt8 := [100, 101, 102, 105, 110, 101]

/-- `include` -/
def includeWord : List UInt8 := [105, 110, 99, 108, 117, 100, 101]

/-! ## The lines -/

structure Macro where
  name : List UInt8
  body : List UInt8
  deriving DecidableEq, Repr

/-- Behind `#`, a word and the blanks around them. -/
def afterWord (word p : List UInt8) : Option (List UInt8) :=
  let q := p.dropWhile isBlank
  if q.head? ≠ some hash then none else
  let q := q.tail.dropWhile isBlank
  if word.isPrefixOf q then some ((q.drop word.length).dropWhile isBlank) else none

/-- A macro that is recorded, and what is behind its line; `nmacros` have been before. -/
def hcParseDefine (nmacros : ℕ) (p : List UInt8) : Except Stop (Option (Macro × List UInt8)) :=
  match afterWord defineWord p with
  | none => .ok none
  | some q =>
    if !q.head?.any hcMacIdentStart || 24 ≤ nmacros then .ok none else
    let ns := q.takeWhile hcMacIdentChar
    let q := q.dropWhile hcMacIdentChar
    if ns.length = 0 || 32 ≤ ns.length then .ok none else
    let q := q.dropWhile isBlank
    let bs := (q.takeWhile (· ≠ newline)).rdropWhile isTrail
    let q := q.dropWhile (· ≠ newline)
    if bs.length = 0 || 96 ≤ bs.length then .ok none else do
    let name ← copied 32 ns
    let body ← copied 96 bs
    -- `q` is at the newline or at the end.
    return some (⟨name, body⟩, q.tail)

/-- The name up to `close`, and what is behind the line; the name has `nmax` bytes. -/
def includeName (nmax : ℕ) (close : UInt8) (q : List UInt8) :
    Except Stop (Option (List UInt8 × List UInt8)) :=
  let ns := (q.takeWhile fun c => c ≠ close && c ≠ newline).take (nmax - 1)
  let q := q.drop ns.length
  if q.head? != some close || ns.length == 0 then .ok none else do
  let name ← copied nmax ns
  return some (name, (q.tail.dropWhile (· ≠ newline)).tail)

/-- The file a line includes, and what is behind the line. -/
def hcParseInclude (nmax : ℕ) (p : List UInt8) :
    Except Stop (Option (List UInt8 × List UInt8)) :=
  match afterWord includeWord p with
  | none => .ok none
  | some q =>
    if q.head? = some quote then includeName nmax quote q.tail
    else if q.head? = some 60 then includeName nmax 62 q.tail
    else .ok none

/-! ## What follows a line -/

/-- The text behind a line without its newline. -/
def EndsLine (t : List UInt8) : Prop := ∀ c ∈ t.head?, c = newline

variable {word p q l t : List UInt8} {n : ℕ}

theorem EndsLine.stops (ht : EndsLine t) {f : UInt8 → Bool} (hf : f newline = false) : Stops f t :=
  fun c hc => by rw [ht c hc, hf]

theorem EndsLine.head?_append (ht : EndsLine t) {c : UInt8} (hc : c ≠ newline) (l : List UInt8) :
    (l ++ t).head? = some c ↔ l.head? = some c := by
  cases l with
  | nil =>
    refine iff_of_false (fun h => hc (ht c h)) ?_
    rintro ⟨⟩
  | cons d l => rfl

theorem EndsLine.any_append (ht : EndsLine t) {f : UInt8 → Bool} (hf : f newline = false)
    (l : List UInt8) : (l ++ t).head?.any f = l.head?.any f := by
  cases l with
  | nil =>
    cases t with
    | nil => rfl
    | cons c t =>
      have hc := ht c rfl
      subst hc
      exact hf
  | cons d l => rfl

theorem EndsLine.isPrefixOf_append (ht : EndsLine t) (hw : newline ∉ word) (l : List UInt8) :
    word.isPrefixOf (l ++ t) = word.isPrefixOf l := by
  induction word generalizing l with
  | nil => simp
  | cons c word ih =>
    rw [List.mem_cons, not_or] at hw
    cases l with
    | nil =>
      cases t with
      | nil => rfl
      | cons d t =>
        have hd := ht d rfl
        subst hd
        simp [List.isPrefixOf, hw.1, Ne.symm hw.1]
    | cons d l => rw [List.cons_append, List.isPrefixOf, List.isPrefixOf, ih hw.2]

theorem isBlank_newline : isBlank newline = false := by decide

theorem afterWord_append (ht : EndsLine t) (hw : newline ∉ word) (l : List UInt8) :
    afterWord word (l ++ t) = (afterWord word l).map (· ++ t) := by
  have hblank := ht.stops isBlank_newline
  rw [afterWord, afterWord, dropWhile_before hblank]
  set q := l.dropWhile isBlank
  by_cases hq : q.head? = some hash
  · obtain ⟨q', hq'⟩ : ∃ q', q = hash :: q' := by
      cases hcase : q with
      | nil => rw [hcase] at hq; cases hq
      | cons c q' => rw [hcase] at hq; exact ⟨q', by rw [Option.some.inj hq]⟩
    rw [hq', List.cons_append]
    simp only [List.head?_cons, ne_eq, not_true, if_false, List.tail_cons,
      dropWhile_before hblank, ht.isPrefixOf_append hw]
    by_cases hpre : word.isPrefixOf (q'.dropWhile isBlank)
    · have hlen := (List.isPrefixOf_iff_prefix.mp hpre).length_le
      simp only [hpre, if_true, List.drop_append_of_le_length hlen, dropWhile_before hblank,
        Option.map_some]
    · simp only [hpre, Bool.false_eq_true, if_false, Option.map_none]
  · rw [if_pos hq, if_pos fun h => hq ((ht.head?_append (by decide) q).mp h)]
    rfl

/-- The form of what is before. -/
theorem afterWord_eq_some_iff (hw : Stops isBlank word) (hne : word ≠ []) :
    afterWord word p = some q ↔ Stops isBlank q ∧ ∃ a b c, (∀ x ∈ a ++ b ++ c, isBlank x) ∧
      p = a ++ hash :: (b ++ (word ++ (c ++ q))) := by
  constructor
  · intro h
    rw [afterWord] at h
    simp only at h
    split_ifs at h with h1 h2
    rw [not_not] at h1
    obtain ⟨s, hs⟩ := List.isPrefixOf_iff_prefix.mp h2
    obtain rfl := Option.some.inj h
    refine ⟨stops_dropWhile _ _, p.takeWhile isBlank, (p.dropWhile isBlank).tail.takeWhile isBlank,
      s.takeWhile isBlank, ?_, ?_⟩
    · simp only [List.mem_append]
      rintro x ((hx | hx) | hx) <;> exact all_of_takeWhile _ _ x hx
    · have hhead : p.dropWhile isBlank = hash :: (p.dropWhile isBlank).tail := by
        cases hcase : p.dropWhile isBlank with
        | nil => rw [hcase] at h1; cases h1
        | cons c q => rw [hcase] at h1; rw [Option.some.inj h1]; rfl
      rw [← hs, List.drop_left, List.takeWhile_append_dropWhile, hs, List.takeWhile_append_dropWhile,
        ← hhead, List.takeWhile_append_dropWhile]
  · rintro ⟨hq, a, b, c, hblank, rfl⟩
    have ha : ∀ x ∈ a, isBlank x := fun x hx => hblank x (by simp [hx])
    have hb : ∀ x ∈ b, isBlank x := fun x hx => hblank x (by simp [hx])
    have hc : ∀ x ∈ c, isBlank x := fun x hx => hblank x (by simp [hx])
    have hword : Stops isBlank (word ++ (c ++ q)) := by
      obtain ⟨d, word, rfl⟩ := List.exists_cons_of_ne_nil hne
      exact stops_cons.mpr (stops_cons.mp hw)
    rw [afterWord, dropWhile_run ha (stops_cons.mpr (by decide))]
    simp only [List.head?_cons, ne_eq, not_true, if_false, List.tail_cons, dropWhile_run hb hword,
      List.drop_left, dropWhile_run hc hq]
    exact if_pos (List.isPrefixOf_iff_prefix.mpr (List.prefix_append _ _))

theorem afterWord_subset (h : afterWord word p = some q) : q ⊆ p := by
  rw [afterWord] at h
  simp only at h
  split_ifs at h
  obtain rfl := Option.some.inj h
  exact ((List.dropWhile_sublist _).trans ((List.drop_sublist _ _).trans ((List.dropWhile_sublist _).trans
    ((List.tail_sublist _).trans (List.dropWhile_sublist _))))).subset

theorem dropWhile_ne_newline (h : newline ∉ q) : q.dropWhile (fun c => decide (c ≠ newline)) = [] :=
  List.dropWhile_eq_nil_iff.mpr fun x hx => decide_eq_true fun heq => h (heq ▸ hx)

theorem takeWhile_ne_newline (h : newline ∉ q) : q.takeWhile (fun c => decide (c ≠ newline)) = q :=
  List.takeWhile_eq_self_iff.mpr fun x hx => decide_eq_true fun heq => h (heq ▸ hx)

/-! ## Lines that define -/

/-- What can be recorded. -/
structure Macro.Fits (m : Macro) : Prop where
  start : m.name.head?.any hcMacIdentStart
  chars : ∀ x ∈ m.name, hcMacIdentChar x
  name_lt : m.name.length < 32
  body_pos : 0 < m.body.length
  body_lt : m.body.length < 96
  body_start : Stops isBlank m.body
  body_end : ∀ c ∈ m.body.getLast?, isTrail c = false

/-- The form of a line that defines a macro: `#`, `define`, the whole of a name, and the body without
the blanks around it. -/
def DefineLine (l : List UInt8) (m : Macro) : Prop :=
  m.Fits ∧ ∃ a b c d e, (∀ x ∈ a ++ b ++ c, isBlank x) ∧ (∀ x ∈ d, isBlank x) ∧
    (∀ x ∈ e, isTrail x) ∧ Stops hcMacIdentChar (d ++ m.body) ∧
    l = a ++ hash :: (b ++ (defineWord ++ (c ++ (m.name ++ (d ++ (m.body ++ e))))))

theorem stops_defineWord : Stops isBlank defineWord := stops_cons.mpr (by decide)

theorem hcMacIdentChar_of_start {c : UInt8} (h : hcMacIdentStart c) : hcMacIdentChar c := by
  simp only [hcMacIdentStart, hcMacIdentChar, Bool.or_eq_true] at h ⊢
  tauto

theorem not_isBlank_of_start {c : UInt8} (h : hcMacIdentStart c) : isBlank c = false := by
  revert h
  simp only [hcMacIdentStart, isBlank, Bool.or_eq_true, Bool.and_eq_true, decide_eq_true_eq,
    Bool.or_eq_false_iff, decide_eq_false_iff_not, UInt8.le_iff_toNat_le, ← UInt8.toNat_inj]
  simp only [UInt8.reduceToNat]
  omega

/-- A line's directive is recorded whatever follows the line. -/
theorem hcParseDefine_append (hl : newline ∉ l) (ht : EndsLine t) :
    hcParseDefine n (l ++ t) =
      (hcParseDefine n l).map (Option.map fun r => (r.1, t.tail)) := by
  rw [hcParseDefine, hcParseDefine, afterWord_append ht (by decide)]
  cases hq : afterWord defineWord l with
  | none => rfl
  | some q =>
    have hnl : newline ∉ (q.dropWhile hcMacIdentChar).dropWhile isBlank := fun h =>
      hl (afterWord_subset hq ((List.dropWhile_sublist _).subset ((List.dropWhile_sublist _).subset h)))
    have hne : Stops (fun c => decide (c ≠ newline)) t := ht.stops (by decide)
    simp only [Option.map_some, ht.any_append (f := hcMacIdentStart) (by decide),
      takeWhile_before (ht.stops (f := hcMacIdentChar) (by decide)),
      dropWhile_before (ht.stops (f := hcMacIdentChar) (by decide)),
      dropWhile_before (ht.stops isBlank_newline), takeWhile_before hne, dropWhile_before hne,
      dropWhile_ne_newline hnl, List.nil_append]
    split_ifs
    · rfl
    · rfl
    · rfl
    · rename_i hname hbody
      simp only [Bool.or_eq_true, decide_eq_true_eq, not_or, not_le] at hname hbody
      rw [copied_ok hname.2, copied_ok hbody.2]
      rfl

/-- **A line that defines**: what is recorded for it. -/
theorem hcParseDefine_iff (hl : newline ∉ l) {m : Macro} {r : List UInt8} :
    hcParseDefine n l = .ok (some (m, r)) ↔ (DefineLine l m ∧ n < 24) ∧ r = [] := by
  constructor
  · intro h
    rw [hcParseDefine] at h
    cases hq : afterWord defineWord l with
    | none => rw [hq] at h; cases h
    | some q =>
      obtain ⟨-, a, b, c, hblank, hform⟩ := (afterWord_eq_some_iff stops_defineWord (by decide)).mp hq
      have hsub := afterWord_subset hq
      set q' := (q.dropWhile hcMacIdentChar).dropWhile isBlank with hq'
      have hnl : newline ∉ q' := fun h =>
        hl (hsub ((List.dropWhile_sublist _).subset ((List.dropWhile_sublist _).subset h)))
      rw [hq] at h
      simp only [takeWhile_ne_newline hnl, dropWhile_ne_newline hnl, ← hq'] at h
      split_ifs at h with h1 h2 h3
      · cases h
      · cases h
      · cases h
      simp only [Bool.or_eq_true, decide_eq_true_eq, not_or, not_le, Bool.not_eq_true',
        Bool.not_eq_false] at h1 h2 h3
      rw [copied_ok h2.2, copied_ok h3.2] at h
      obtain ⟨rfl, rfl⟩ := Prod.mk.inj (Option.some.inj (Except.ok.inj h))
      obtain ⟨e, he, hbody⟩ := exists_rdropWhile isTrail q'
      have hrest : (q.dropWhile hcMacIdentChar).takeWhile isBlank ++ (q'.rdropWhile isTrail ++ e) =
          q.dropWhile hcMacIdentChar := by
        rw [← hbody]
        exact List.takeWhile_append_dropWhile
      refine ⟨⟨⟨⟨?_, all_of_takeWhile _ _, h2.2, Nat.pos_of_ne_zero h3.1, h3.2,
        (stops_dropWhile _ _).front ( List.rdropWhile_prefix _ _), getLast_rdropWhile _ _⟩, a, b, c,
        (q.dropWhile hcMacIdentChar).takeWhile isBlank, e, hblank, all_of_takeWhile _ _, he, ?_, ?_⟩,
        h1.2⟩, rfl⟩
      · cases q with
        | nil => exact absurd h1.1 (by simp)
        | cons x q =>
          have hx : hcMacIdentStart x := h1.1
          rw [List.takeWhile_cons, if_pos (hcMacIdentChar_of_start hx)]
          exact hx
      · refine (stops_dropWhile hcMacIdentChar q).front ⟨e, ?_⟩
        rw [List.append_assoc, hrest]
      · rw [hrest, List.takeWhile_append_dropWhile]
        exact hform
  · rintro ⟨⟨⟨hfits, a, b, c, d, e, habc, hd, he, hstop, hform⟩, hn⟩, rfl⟩
    have hstart := hfits.start
    have hbody : m.body ≠ [] := List.ne_nil_of_length_pos hfits.body_pos
    obtain ⟨x, ns, hname⟩ : ∃ x ns, m.name = x :: ns := by
      cases hcase : m.name with
      | nil => rw [hcase] at hstart; exact absurd hstart (by simp)
      | cons x ns => exact ⟨x, ns, rfl⟩
    have hx : hcMacIdentStart x := by
      rw [hname] at hstart
      exact hstart
    have hq : afterWord defineWord l = some (m.name ++ (d ++ (m.body ++ e))) := by
      refine (afterWord_eq_some_iff stops_defineWord (by decide)).mpr ⟨?_, a, b, c, habc, hform⟩
      rw [hname]
      exact stops_cons.mpr (not_isBlank_of_start hx)
    have hnl : newline ∉ m.body ++ e := fun h =>
      hl (afterWord_subset hq (List.mem_append_right _ (List.mem_append_right _ h)))
    have hrest : Stops hcMacIdentChar (d ++ (m.body ++ e)) := by
      rw [← List.append_assoc]
      exact hstop.append (by simp [hbody]) e
    have hhead : (m.name ++ (d ++ (m.body ++ e))).head?.any hcMacIdentStart := by
      rw [hname]
      exact hx
    have hname_pos : ¬m.name.length = 0 := by simp [hname]
    have hbody_pos : ¬m.body.length = 0 := Nat.ne_of_gt hfits.body_pos
    have hname_lt := hfits.name_lt
    have hbody_lt := hfits.body_lt
    rw [hcParseDefine, hq]
    simp only [hhead, takeWhile_run hfits.chars hrest, dropWhile_run hfits.chars hrest,
      dropWhile_run hd (hfits.body_start.append hbody e), takeWhile_ne_newline hnl,
      dropWhile_ne_newline hnl, rdropWhile_run he hfits.body_end, hname_pos, hbody_pos,
      not_le.mpr hn, not_le.mpr hname_lt, not_le.mpr hbody_lt, Bool.not_true, Bool.or_self,
      decide_false, Bool.false_eq_true, if_false, copied_ok hname_lt, copied_ok hbody_lt]
    rfl

/-- No store of a line that defines is outside a macro. -/
theorem hcParseDefine_ok (n : ℕ) (p : List UInt8) : ∃ r, hcParseDefine n p = .ok r := by
  rw [hcParseDefine]
  cases afterWord defineWord p with
  | none => exact ⟨_, rfl⟩
  | some q =>
    simp only
    split_ifs with h1 h2 h3
    · exact ⟨_, rfl⟩
    · exact ⟨_, rfl⟩
    · exact ⟨_, rfl⟩
    · simp only [Bool.or_eq_true, decide_eq_true_eq, not_or, not_le] at h2 h3
      rw [copied_ok h2.2, copied_ok h3.2]
      exact ⟨_, rfl⟩

/-! ## Lines that include -/

/-- The form of a line that includes: `#`, `include`, and a name between quotes or angles. -/
def IncludeLine (nmax : ℕ) (l ns : List UInt8) : Prop :=
  (0 < ns.length ∧ ns.length < nmax) ∧ ∃ a b c e, ∃ o close : UInt8,
    (∀ x ∈ a ++ b ++ c, isBlank x) ∧ (o = quote ∧ close = quote ∨ o = 60 ∧ close = 62) ∧
    close ∉ ns ∧ l = a ++ hash :: (b ++ (includeWord ++ (c ++ o :: (ns ++ close :: e))))

theorem stops_includeWord : Stops isBlank includeWord := stops_cons.mpr (by decide)

theorem includeName_append {close : UInt8} (hclose : close ≠ newline) (hq : newline ∉ q)
    (ht : EndsLine t) : includeName n close (q ++ t) =
      (includeName n close q).map (Option.map fun r => (r.1, t.tail)) := by
  rw [includeName, includeName, takeWhile_before (ht.stops (by simp))]
  set ns := (q.takeWhile fun c => decide (c ≠ close) && decide (c ≠ newline)).take (n - 1)
  have hlen : ns.length ≤ q.length :=
    ((List.take_sublist _ _).trans (List.takeWhile_sublist _)).length_le
  rw [List.drop_append_of_le_length hlen]
  cases hrest : q.drop ns.length with
  | nil =>
    have hhead : t.head? ≠ some close := fun h => hclose (ht close h)
    simp [hhead, Except.map]
  | cons d rest =>
    have hnl : newline ∉ rest := fun h => hq ((List.drop_sublist ns.length q).subset (by
      rw [hrest]
      exact List.mem_cons_of_mem _ h))
    simp only [List.cons_append, List.head?_cons, List.tail_cons]
    rw [dropWhile_before (ht.stops (by decide)), dropWhile_ne_newline hnl, List.nil_append]
    by_cases hstop : (some d != some close || ns.length == 0) = true
    · simp only [hstop, if_true]
      rfl
    · simp only [hstop, Bool.false_eq_true, if_false]
      cases copied n ns <;> rfl

/-- A line's file is included whatever follows the line. -/
theorem hcParseInclude_append (hl : newline ∉ l) (ht : EndsLine t) :
    hcParseInclude n (l ++ t) =
      (hcParseInclude n l).map (Option.map fun r => (r.1, t.tail)) := by
  rw [hcParseInclude, hcParseInclude, afterWord_append ht (by decide)]
  cases hq : afterWord includeWord l with
  | none => rfl
  | some q =>
    have hnl : newline ∉ q := fun h => hl (afterWord_subset hq h)
    simp only [Option.map_some, ht.head?_append (c := quote) (by decide),
      ht.head?_append (c := 60) (by decide)]
    cases q with
    | nil => rfl
    | cons o q =>
      have hnl' : newline ∉ q := fun h => hnl (List.mem_cons_of_mem _ h)
      rw [List.cons_append, List.tail_cons, List.tail_cons, includeName_append (by decide) hnl' ht,
        includeName_append (by decide) hnl' ht]
      split_ifs <;> rfl

theorem includeName_iff {close : UInt8} (hq : newline ∉ q) {ns r : List UInt8} :
    includeName n close q = .ok (some (ns, r)) ↔
      ((0 < ns.length ∧ ns.length < n) ∧ close ∉ ns ∧ ∃ e, q = ns ++ close :: e) ∧ r = [] := by
  constructor
  · intro h
    rw [includeName] at h
    split_ifs at h with h1
    · cases h
    simp only [Bool.or_eq_true, bne_iff_ne, beq_iff_eq, ne_eq, not_or, not_not] at h1
    set ms := (q.takeWhile fun c => decide (c ≠ close) && decide (c ≠ newline)).take (n - 1) with hms
    have hlt : ms.length < n := by
      have hle := List.length_take_le (n - 1)
        (q.takeWhile fun c => decide (c ≠ close) && decide (c ≠ newline))
      rw [← hms] at hle
      omega
    have hpre : ms <+: q := ( List.take_prefix _ _).trans ( List.takeWhile_prefix _)
    have hsplit : q = ms ++ q.drop ms.length := by
      rw [← List.prefix_iff_eq_append.mp hpre]
      simp
    obtain ⟨e, he⟩ : ∃ e, q.drop ms.length = close :: e := by
      cases hcase : q.drop ms.length with
      | nil => rw [hcase] at h1; cases h1.1
      | cons d e => rw [hcase] at h1; exact ⟨e, by rw [Option.some.inj h1.1]⟩
    rw [he] at hsplit
    have hnl : newline ∉ e := fun h => hq (by
      rw [hsplit]
      exact List.mem_append_right _ (List.mem_cons_of_mem _ h))
    rw [copied_ok hlt, he, List.tail_cons, dropWhile_ne_newline hnl] at h
    obtain ⟨rfl, rfl⟩ := Prod.mk.inj (Option.some.inj (Except.ok.inj h))
    refine ⟨⟨⟨Nat.pos_of_ne_zero h1.2, hlt⟩, fun hmem => ?_, e, hsplit⟩, rfl⟩
    have hnot := all_of_takeWhile _ _ close ((List.take_sublist _ _).subset hmem)
    simp at hnot
  · rintro ⟨⟨⟨hpos, hlt⟩, hns, e, rfl⟩, rfl⟩
    have hrun : ∀ x ∈ ns, decide (x ≠ close) && decide (x ≠ newline) := fun x hx => by
      have h1 : x ≠ close := fun h => hns (h ▸ hx)
      have h2 : x ≠ newline := fun h => hq (List.mem_append_left _ (h ▸ hx))
      simp [h1, h2]
    have hnl : newline ∉ e := fun h => hq (List.mem_append_right _ (List.mem_cons_of_mem _ h))
    have hne : ¬ns.length = 0 := Nat.ne_of_gt hpos
    rw [includeName, takeWhile_run hrun (stops_cons.mpr (by simp)), List.take_of_length_le (by omega)]
    simp only [List.drop_left, List.head?_cons, bne_self_eq_false, Bool.false_or, beq_iff_eq, hne,
      if_false, copied_ok hlt, List.tail_cons, dropWhile_ne_newline hnl]
    rfl

/-- **A line that includes**: the file it names. -/
theorem hcParseInclude_iff (hl : newline ∉ l) {ns r : List UInt8} :
    hcParseInclude n l = .ok (some (ns, r)) ↔ IncludeLine n l ns ∧ r = [] := by
  constructor
  · intro h
    rw [hcParseInclude] at h
    cases hq : afterWord includeWord l with
    | none => rw [hq] at h; cases h
    | some q =>
      obtain ⟨-, a, b, c, hblank, hform⟩ :=
        (afterWord_eq_some_iff stops_includeWord (by decide)).mp hq
      have hnl : newline ∉ q.tail := fun h =>
        hl (afterWord_subset hq ((List.tail_sublist q).subset h))
      rw [hq] at h
      simp only at h
      have hcons : ∀ o, q.head? = some o → q = o :: q.tail := fun o ho => by
        cases hcase : q with
        | nil => rw [hcase] at ho; cases ho
        | cons x q => rw [hcase] at ho; rw [Option.some.inj ho]; rfl
      split_ifs at h with h1 h2
      · obtain ⟨⟨hlen, hns, e, he⟩, hr⟩ := (includeName_iff hnl).mp h
        refine ⟨⟨hlen, a, b, c, e, quote, quote, hblank, .inl ⟨rfl, rfl⟩, hns, ?_⟩, hr⟩
        rw [← he, ← hcons _ h1]
        exact hform
      · obtain ⟨⟨hlen, hns, e, he⟩, hr⟩ := (includeName_iff hnl).mp h
        refine ⟨⟨hlen, a, b, c, e, 60, 62, hblank, .inr ⟨rfl, rfl⟩, hns, ?_⟩, hr⟩
        rw [← he, ← hcons _ h2]
        exact hform
      · cases h
  · rintro ⟨⟨hlen, a, b, c, e, o, close, habc, ho, hns, hform⟩, rfl⟩
    have hblank : isBlank o = false := by
      obtain ⟨rfl, -⟩ | ⟨rfl, -⟩ := ho <;> decide
    have hq : afterWord includeWord l = some (o :: (ns ++ close :: e)) :=
      (afterWord_eq_some_iff stops_includeWord (by decide)).mpr
        ⟨stops_cons.mpr hblank, a, b, c, habc, hform⟩
    have hnl : newline ∉ ns ++ close :: e := fun h =>
      hl (afterWord_subset hq (List.mem_cons_of_mem _ h))
    have hname := (includeName_iff (n := n) (r := []) hnl).mpr ⟨⟨hlen, hns, e, rfl⟩, rfl⟩
    rw [hcParseInclude, hq]
    obtain ⟨rfl, rfl⟩ | ⟨rfl, rfl⟩ := ho
    · exact hname
    · exact hname

/-- No store of a line that includes is outside the name. -/
theorem hcParseInclude_ok (n : ℕ) (p : List UInt8) : ∃ r, hcParseInclude n p = .ok r := by
  have hname : ∀ close q, ∃ r, includeName n close q = .ok r := by
    intro close q
    rw [includeName]
    have hle := List.length_take_le (n - 1)
      (q.takeWhile fun c => decide (c ≠ close) && decide (c ≠ newline))
    set ms := (q.takeWhile fun c => decide (c ≠ close) && decide (c ≠ newline)).take (n - 1)
    split_ifs with h1
    · exact ⟨_, rfl⟩
    · simp only [Bool.or_eq_true, beq_iff_eq, not_or] at h1
      rw [copied_ok (by omega)]
      exact ⟨_, rfl⟩
  rw [hcParseInclude]
  cases afterWord includeWord p with
  | none => exact ⟨_, rfl⟩
  | some q =>
    simp only
    split_ifs
    exacts [hname _ _, hname _ _, ⟨_, rfl⟩]

end ZealBringup.Preproc
