import ZealBringup.Preproc.Directive
import ZealBringup.Preproc.Splice

/-!
# Expanding macros

Where names stand in a program is a matter of how its text is read: not in string literals,
character literals and numbers.  The expansion of macros reads a text in a simpler way, in which
a quotation mark is the beginning or the end of a string wherever it stands.

The text that has been spliced is expanded in at most eight passes: in each, the names of macros are
replaced by their bodies, and the last one finds none.

* `reading` — a text as the language reads it.
* `codeReading` — a text as the expansion reads it.
* `AgreeOn` — both take the same for names of macros.
* `hcExpandMacros`, `hcExpandIncludes` — the passes, and the whole of the preprocessing.
* `pass_ends` — a pass.
* `preprocess_correct` — the result, where names are read as the language reads them.
-/

namespace ZealBringup.Preproc

open Runs

/-- A part of a text. -/
inductive Piece
  | name (w : List UInt8)
  | literal (s : List UInt8)
  | number (s : List UInt8)
  | other (c : UInt8)
  deriving DecidableEq, Repr

def Piece.text : Piece → List UInt8
  | .name w => w
  | .literal s => s
  | .number s => s
  | .other c => [c]

/-! ## Parts -/

/-- A string up to and with its closing quotation mark, and what is behind it. -/
def scanString : List UInt8 → List UInt8 × List UInt8
  | [] => ([], [])
  | [c] => ([c], [])
  | c :: d :: q =>
    if c = quote then ([c], d :: q)
    else if c = 92 then (c :: d :: (scanString q).1, (scanString q).2)
    else (c :: (scanString (d :: q)).1, (scanString (d :: q)).2)

/-- A character or an escape, and a closing apostrophe. -/
def scanChar : List UInt8 → Option (List UInt8 × List UInt8)
  | c :: d :: q =>
    if c = 92 then if q.head? = some 39 then some ([c, d, 39], q.tail) else none
    else if d = 39 then some ([c, d], q) else none
  | _ => none

def isDigit (c : UInt8) : Bool := 48 ≤ c && c ≤ 57

def isHexDigit (c : UInt8) : Bool := isDigit c || (97 ≤ c && c ≤ 102) || (65 ≤ c && c ≤ 70)

/-- A number behind its first digit `c`: hexadecimal digits, or digits with a fraction. -/
def scanNumber (c : UInt8) (q : List UInt8) : List UInt8 × List UInt8 :=
  match q with
  | [] => ([], [])
  | x :: r =>
    if c = 48 && (x = 120 || x = 88) then (x :: r.takeWhile isHexDigit, r.dropWhile isHexDigit)
    else
      let ds := q.takeWhile isDigit
      match q.dropWhile isDigit with
      | 46 :: r => (ds ++ 46 :: r.takeWhile isDigit, r.dropWhile isDigit)
      | r => (ds, r)

theorem scanString_append (q : List UInt8) : (scanString q).1 ++ (scanString q).2 = q := by
  fun_induction scanString q with
  | case1 => rfl
  | case2 c => rfl
  | case3 d q => rfl
  | case4 d q h ih => simp only [List.cons_append, ih]
  | case5 c d q h1 h2 ih => simp only [List.cons_append, ih]

theorem scanChar_append {q s r : List UInt8} (h : scanChar q = some (s, r)) : s ++ r = q := by
  match q with
  | [] => cases h
  | [c] => cases h
  | c :: d :: q =>
    rw [scanChar] at h
    split_ifs at h with h1 h2 h3
    · obtain ⟨rfl, rfl⟩ := Prod.mk.inj (Option.some.inj h)
      cases q with
      | nil => cases h2
      | cons x q => rw [← Option.some.inj h2]; rfl
    · obtain ⟨rfl, rfl⟩ := Prod.mk.inj (Option.some.inj h)
      rfl

theorem scanNumber_append (c : UInt8) (q : List UInt8) :
    (scanNumber c q).1 ++ (scanNumber c q).2 = q := by
  cases q with
  | nil => rfl
  | cons x r =>
    rw [scanNumber]
    split_ifs
    · simp only [List.cons_append, List.takeWhile_append_dropWhile]
    · have hcut := List.takeWhile_append_dropWhile (p := isDigit) (l := x :: r)
      split
      case h_1 r' heq =>
        rw [heq] at hcut
        simp only [List.append_assoc, List.cons_append, List.takeWhile_append_dropWhile, hcut]
      case h_2 => exact hcut

theorem scanString_le (q : List UInt8) : (scanString q).2.length ≤ q.length := by
  have hlen := congrArg List.length (scanString_append q)
  rw [List.length_append] at hlen
  omega

theorem scanChar_le {q s r : List UInt8} (h : scanChar q = some (s, r)) : r.length ≤ q.length := by
  have hlen := congrArg List.length (scanChar_append h)
  rw [List.length_append] at hlen
  omega

theorem scanNumber_le (c : UInt8) (q : List UInt8) : (scanNumber c q).2.length ≤ q.length := by
  have hlen := congrArg List.length (scanNumber_append c q)
  rw [List.length_append] at hlen
  omega

/-! ## Two readings -/

/-- Where the language is: in code or in a comment. -/
inductive Place
  | code
  | line
  | block
  deriving DecidableEq, Repr

/-- A text as the language reads it.  In a comment, quotation marks and apostrophes are nothing
special. -/
def reading (place : Place) : List UInt8 → List Piece
  | [] => []
  | c :: q =>
    if place = .code ∧ c = quote then
      .literal (c :: (scanString q).1) :: reading .code (scanString q).2
    else if place = .code ∧ c = 39 then
      match _h : scanChar q with
      | some (s, r) => .literal (c :: s) :: reading .code r
      | none => .other c :: reading .code q
    else if place = .code ∧ c = 47 ∧ q.head? = some 47 then .other c :: reading .line q
    else if place = .code ∧ c = 47 ∧ q.head? = some 42 then
      .other c :: .other 42 :: reading .block q.tail
    else if place = .line ∧ c = newline then .other c :: reading .code q
    else if place = .block ∧ c = 42 ∧ q.head? = some 47 then
      .other c :: .other 47 :: reading .code q.tail
    else if isDigit c then .number (c :: (scanNumber c q).1) :: reading place (scanNumber c q).2
    else if hcMacIdentStart c then
      .name (c :: q.takeWhile hcMacIdentChar) :: reading place (q.dropWhile hcMacIdentChar)
    else .other c :: reading place q
  termination_by p => p.length
  decreasing_by
    · exact Nat.lt_succ_of_le (scanString_le q)
    · exact Nat.lt_succ_of_le (scanChar_le _h)
    · exact Nat.lt_succ_self _
    · exact Nat.lt_succ_self _
    · exact Nat.lt_succ_of_le (List.tail_sublist q).length_le
    · exact Nat.lt_succ_self _
    · exact Nat.lt_succ_of_le (List.tail_sublist q).length_le
    · exact Nat.lt_succ_of_le (scanNumber_le c q)
    · exact Nat.lt_succ_of_le (List.dropWhile_sublist _).length_le
    · exact Nat.lt_succ_self _

/-- A text as the expansion reads it. -/
def codeReading (inStr : Bool) : List UInt8 → List Piece
  | [] => []
  | c :: q =>
    if c = quote then .other c :: codeReading (!inStr) q
    else if !inStr && hcMacIdentStart c then
      .name (c :: q.takeWhile hcMacIdentChar) :: codeReading inStr (q.dropWhile hcMacIdentChar)
    else .other c :: codeReading inStr q
  termination_by p => p.length
  decreasing_by
    · exact Nat.lt_succ_self _
    · exact Nat.lt_succ_of_le (List.dropWhile_sublist _).length_le
    · exact Nat.lt_succ_self _

/-- Nothing of the text is lost. -/
theorem text_reading (place : Place) (p : List UInt8) : (reading place p).flatMap Piece.text = p := by
  fun_induction reading place p with
  | case1 => rfl
  | case2 place c q h ih => simp [Piece.text, ih, scanString_append]
  | case3 place c q h1 h2 s r h ih => simp [Piece.text, ih, scanChar_append h]
  | case4 place c q h1 h2 h ih => simp [Piece.text, ih]
  | case5 place c q h1 h2 h ih => simp [Piece.text, ih]
  | case6 place c q h1 h2 h3 h ih =>
    obtain ⟨r, rfl⟩ := List.head?_eq_some_iff.mp h.2.2
    simpa [Piece.text] using ih
  | case7 place c q h1 h2 h3 h4 h ih => simp [Piece.text, ih]
  | case8 place c q h1 h2 h3 h4 h5 h ih =>
    obtain ⟨r, rfl⟩ := List.head?_eq_some_iff.mp h.2.2
    simpa [Piece.text] using ih
  | case9 => simp_all [Piece.text, scanNumber_append]
  | case10 => simp_all [Piece.text]
  | case11 => simp_all [Piece.text]

open Checked

/-! ## The passes -/

/-- The first macro of the name. -/
def hcFindMacro (ms : List Macro) (w : List UInt8) : Option Macro := ms.find? fun m => m.name = w

/-- A pass at `p`, with `out` written so far; whether anything has been replaced is returned, too. -/
def hcExpandPass (ms : List Macro) (inStr : Bool) (p out : List UInt8) (changed : Bool) :
    Except Stop (List UInt8 × Bool) :=
  match p with
  | [] => do return (← terminate 16384 out, changed)
  | c :: q =>
    if c = quote then
      if 16384 ≤ out.length + 1 then .error (.refused (-1)) else do
      let out ← store 16384 out c
      hcExpandPass ms (!inStr) q out changed
    else if !inStr && hcMacIdentStart c then
      let w := c :: q.takeWhile hcMacIdentChar
      match hcFindMacro ms w with
      | some m =>
        if 16384 ≤ out.length + m.body.length + 1 then .error (.refused (-1)) else do
        let out ← storeAll 16384 out m.body
        hcExpandPass ms inStr (q.dropWhile hcMacIdentChar) out true
      | none =>
        if 16384 ≤ out.length + w.length + 1 then .error (.refused (-1)) else do
        let out ← storeAll 16384 out w
        hcExpandPass ms inStr (q.dropWhile hcMacIdentChar) out changed
    else
      if 16384 ≤ out.length + 1 then .error (.refused (-1)) else do
      let out ← store 16384 out c
      hcExpandPass ms inStr q out changed
  termination_by p.length
  decreasing_by
    · exact Nat.lt_succ_self _
    · exact Nat.lt_succ_of_le (List.dropWhile_sublist _).length_le
    · exact Nat.lt_succ_of_le (List.dropWhile_sublist _).length_le
    · exact Nat.lt_succ_self _

/-- The passes that are left. -/
def hcExpandPasses (ms : List Macro) (cap : ℕ) : ℕ → List UInt8 → Except Stop (List UInt8)
  | 0, _ => .error (.refused (-1))
  | n + 1, inbuf => do
    let (outbuf, changed) ← hcExpandPass ms false inbuf [] false
    if changed then hcExpandPasses ms cap n outbuf
    else if cap < outbuf.length + 1 then .error (.refused (-1))
    else copied cap outbuf

def hcExpandMacros (ms : List Macro) (src : List UInt8) (cap : ℕ) : Except Stop (List UInt8) :=
  if src ≠ [] ∧ 16384 ≤ src.length + 1 then .error (.refused (-1)) else do
  let inbuf ← copied 16384 src
  hcExpandPasses ms cap 8 inbuf

/-- UTF-8 for θ and π becomes the one byte that TempleOS has for it. -/
def templeBytes : List UInt8 → List UInt8
  | [] => []
  | [a] => [a]
  | a :: b :: r =>
    if a = 0xce ∧ b = 0xb8 then 0xe9 :: templeBytes r
    else if a = 0xcf ∧ b = 0x80 then 0xe3 :: templeBytes r
    else a :: templeBytes (b :: r)

def hcExpandIncludes (files : Files) (src : List UInt8) (cap : ℕ) : Except Stop (List UInt8) :=
  if cap < 2 then .error (.refused (-1)) else
  match hcExpandIncludesR files 5 16384 [] src with
  | .error .overrun => .error .overrun
  | .error (.refused _) => .error (.refused (-1))
  | .ok (mid, ms) =>
    match hcExpandMacros ms mid cap with
    | .error .overrun => .error .overrun
    | .error (.refused _) => .error (.refused (-1))
    | .ok dst => .ok (templeBytes dst)

/-! ## A pass -/

section Pass

variable (ms : List Macro)

def expandPiece : Piece → List UInt8
  | .name w => match hcFindMacro ms w with
    | some m => m.body
    | none => w
  | p => p.text

/-- Whether a macro is named. -/
def Piece.isMacro : Piece → Bool
  | .name w => (hcFindMacro ms w).isSome
  | _ => false

def expanded (ps : List Piece) : List UInt8 := ps.flatMap (expandPiece ms)

variable {ms} {out p : List UInt8} {inStr changed : Bool}

/-- What a pass over some pieces has to have done. -/
def Passed (ms : List Macro) (out : List UInt8) (changed : Bool) (ps : List Piece)
    (r : List UInt8 × Bool) : Prop :=
  r.1 = out ++ expanded ms ps ∧ r.2 = (changed || ps.any (Piece.isMacro ms)) ∧ r.1.length < 16384

theorem Passed.cons {x : Piece} {ps : List Piece} {r : List UInt8 × Bool}
    (h : Passed ms (out ++ expandPiece ms x) (changed || x.isMacro ms) ps r) :
    Passed ms out changed (x :: ps) r := by
  obtain ⟨h1, h2, h3⟩ := h
  refine ⟨h1.trans ?_, h2.trans ?_, h3⟩
  · rw [expanded, expanded, List.flatMap_cons, List.append_assoc]
  · rw [List.any_cons, Bool.or_assoc]

/-- A pass replaces the names of macros in its own reading of a text. -/
theorem pass_ends (hout : out.length < 16384) :
    Ends (· ≠ .overrun) (hcExpandPass ms inStr p out changed)
      (Passed ms out changed (codeReading inStr p)) := by
  have hfull : ∀ R : List UInt8 × Bool → Prop, Ends (· ≠ Stop.overrun)
      (.error (.refused (-1)) : Except Stop (List UInt8 × Bool)) R := fun R => Ends.error (by decide)
  fun_induction hcExpandPass ms inStr p out changed with
  | case1 inStr out changed =>
    rw [terminate_ok hout, codeReading]
    exact Ends.ok ⟨(List.append_nil _).symm, (Bool.or_false _).symm, hout⟩
  | case2 => exact hfull _
  | case3 inStr out changed q hroom ih =>
    rw [codeReading, if_pos rfl, store_ok (by omega)]
    refine (ih _ (by rw [List.length_append, List.length_singleton]; omega)).imp fun r hr => ?_
    exact Passed.cons (by simpa [expandPiece, Piece.isMacro, Piece.text] using hr)
  | case4 => exact hfull _
  | case5 inStr out changed c q hquote hstart w m hfind hroom ih =>
    rw [codeReading, if_neg hquote, if_pos hstart, storeAll_ok (by omega)]
    refine (ih _ (by rw [List.length_append]; omega)).imp fun r hr => ?_
    exact Passed.cons (by simpa [expandPiece, Piece.isMacro, hfind, w] using hr)
  | case6 => exact hfull _
  | case7 inStr out changed c q hquote hstart w hfind hroom ih =>
    rw [codeReading, if_neg hquote, if_pos hstart, storeAll_ok (by omega)]
    refine (ih _ (by rw [List.length_append]; omega)).imp fun r hr => ?_
    exact Passed.cons (by simpa [expandPiece, Piece.isMacro, hfind, w] using hr)
  | case8 => exact hfull _
  | case9 inStr out changed c q hquote hstart hroom ih =>
    rw [codeReading, if_neg hquote, if_neg hstart, store_ok (by omega)]
    refine (ih _ (by rw [List.length_append, List.length_singleton]; omega)).imp fun r hr => ?_
    exact Passed.cons (by simpa [expandPiece, Piece.isMacro, Piece.text] using hr)

end Pass

/-! ## The language's passes -/

/-- The names of macros as they are, and all else character by character. -/
def named (ms : List Macro) (p : Piece) : List Piece :=
  if p.isMacro ms then [p] else p.text.map .other

/-- Both readings take the same for names of macros. -/
def AgreeOn (ms : List Macro) (t : List UInt8) : Prop :=
  (codeReading false t).flatMap (named ms) = (reading .code t).flatMap (named ms)

instance (ms : List Macro) (t : List UInt8) : Decidable (AgreeOn ms t) :=
  inferInstanceAs (Decidable (_ = _))

/-- The names of macros are replaced, and nothing else. -/
def expandOnce (ms : List Macro) (t : List UInt8) : List UInt8 := expanded ms (reading .code t)

/-- No name of a macro remains. -/
def Stable (ms : List Macro) (t : List UInt8) : Prop :=
  ∀ w, .name w ∈ reading .code t → hcFindMacro ms w = none

variable {ms : List Macro} {t : List UInt8}

theorem expandPiece_of_not {p : Piece} (h : ¬p.isMacro ms) : expandPiece ms p = p.text := by
  cases p with
  | name w =>
    have hnone : hcFindMacro ms w = none := by simpa [Piece.isMacro] using h
    simp [expandPiece, hnone, Piece.text]
  | literal s => rfl
  | number s => rfl
  | other c => rfl

theorem expanded_named (ps : List Piece) : expanded ms (ps.flatMap (named ms)) = expanded ms ps := by
  rw [expanded, expanded, List.flatMap_assoc]
  refine List.flatMap_congr fun p _ => ?_
  rw [named]
  split
  case isTrue => exact List.flatMap_singleton _ _
  case isFalse h =>
    rw [expandPiece_of_not h, List.flatMap_map]
    exact List.flatMap_singleton' _

theorem any_named (ps : List Piece) :
    (ps.flatMap (named ms)).any (Piece.isMacro ms) = ps.any (Piece.isMacro ms) := by
  rw [List.any_flatMap]
  refine congrArg (ps.any ·) (funext fun p => ?_)
  rw [named]
  split
  case isTrue h => simp [h]
  case isFalse h =>
    rw [Bool.not_eq_true] at h
    rw [h, List.any_map]
    exact List.any_eq_false.mpr fun c _ hc => by cases hc

theorem expanded_of_agreeOn (h : AgreeOn ms t) :
    expanded ms (codeReading false t) = expandOnce ms t := by
  rw [expandOnce, ← expanded_named, h, expanded_named]

theorem any_of_agreeOn (h : AgreeOn ms t) : (codeReading false t).any (Piece.isMacro ms) =
    (reading .code t).any (Piece.isMacro ms) := by
  rw [← any_named, h, any_named]

/-- Without names of macros, a pass changes nothing. -/
theorem expandOnce_of_stable (h : (reading .code t).any (Piece.isMacro ms) = false) :
    expandOnce ms t = t := by
  rw [List.any_eq_false] at h
  rw [expandOnce, expanded]
  conv_rhs => rw [← text_reading .code t]
  exact List.flatMap_congr fun p hp => expandPiece_of_not (h p hp)

theorem stable_of_any (h : (reading .code t).any (Piece.isMacro ms) = false) : Stable ms t := by
  intro w hw
  have hnot := List.any_eq_false.mp h _ hw
  simpa [Piece.isMacro] using hnot

/-! ## The result -/

/-- What the expansion of a text has to be, where the readings agree on the texts it goes through. -/
def ExpandsTo (ms : List Macro) (t u : List UInt8) : Prop :=
  (∀ k, AgreeOn ms ((expandOnce ms)^[k] t)) →
    ∃ k, u = (expandOnce ms)^[k] t ∧ Stable ms ((expandOnce ms)^[k] t)

theorem expandPasses_ends (ms : List Macro) (cap n : ℕ) (t : List UInt8) :
    Ends (· ≠ .overrun) (hcExpandPasses ms cap n t) (ExpandsTo ms t) := by
  induction n generalizing t with
  | zero => exact Ends.error (by decide)
  | succ n ih =>
    have hpass : Ends (· ≠ .overrun) (hcExpandPass ms false t [] false)
        (Passed ms [] false (codeReading false t)) := pass_ends (by decide)
    rw [hcExpandPasses]
    refine hpass.bind ?_
    rintro ⟨outbuf, changed⟩ ⟨hout, hchanged, -⟩
    simp only [List.nil_append, Bool.false_or] at hout hchanged
    subst hout hchanged
    refine Ends.ite (fun hany => ?_) fun hany => ?_
    · refine (ih _).imp fun u hu hagree => ?_
      have hfirst : AgreeOn ms t := hagree 0
      rw [expanded_of_agreeOn hfirst] at hu
      obtain ⟨k, hk, hstable⟩ := hu fun k => hagree (k + 1)
      exact ⟨k + 1, hk, hstable⟩
    · refine Ends.ite (fun _ => Ends.error (by decide)) fun hfits => ?_
      rw [copied_ok (by omega)]
      refine Ends.ok fun hagree => ⟨0, ?_, ?_⟩
      all_goals
        have hfirst : AgreeOn ms t := hagree 0
        rw [Bool.not_eq_true, any_of_agreeOn hfirst] at hany
      · rw [expanded_of_agreeOn hfirst]
        exact expandOnce_of_stable hany
      · exact stable_of_any hany

theorem expandMacros_ends (ms : List Macro) (t : List UInt8) (cap : ℕ) :
    Ends (· ≠ .overrun) (hcExpandMacros ms t cap) (ExpandsTo ms t) := by
  rw [hcExpandMacros]
  refine Ends.ite (fun _ => Ends.error (by decide)) fun hfits => ?_
  have hlen : t.length < 16384 := by
    by_contra hge
    refine hfits ⟨fun hnil => hge ?_, by omega⟩
    rw [hnil]
    decide
  rw [copied_ok hlen]
  exact expandPasses_ends ms cap 8 t

/-- **Preprocessing** stores nothing outside its buffers.  A result is made of the text with its
directives carried out: where names are read as the language reads them, those of macros have
been replaced until none remained, and nothing else has been changed but θ and π. -/
theorem preprocess_correct (files : Files) (src : List UInt8) (cap : ℕ) :
    hcExpandIncludes files src cap ≠ .error .overrun ∧
      ∀ dst, hcExpandIncludes files src cap = .ok dst →
        (∃ ms mid, Spliced files 5 [] src ms mid) ∧
        ∀ ms mid, Spliced files 5 [] src ms mid → (∀ k, AgreeOn ms ((expandOnce ms)^[k] mid)) →
          ∃ k, dst = templeBytes ((expandOnce ms)^[k] mid) ∧
            Stable ms ((expandOnce ms)^[k] mid) := by
  have hsplice := includesR_ends files 5 16384 [] src (by decide)
  rw [hcExpandIncludes]
  by_cases hcap : cap < 2
  · rw [if_pos hcap]
    exact ⟨by simp, fun dst h => by cases h⟩
  rw [if_neg hcap]
  cases hr : hcExpandIncludesR files 5 16384 [] src with
  | error e =>
    rw [hr] at hsplice
    cases e with
    | overrun => exact absurd rfl hsplice
    | refused code => exact ⟨by simp, fun dst h => by cases h⟩
  | ok r =>
    obtain ⟨mid, ms⟩ := r
    rw [hr] at hsplice
    obtain ⟨⟨s, hs, hspliced⟩, -⟩ := hsplice
    simp only [List.nil_append] at hs hspliced
    subst hs
    have hexpand := expandMacros_ends ms mid cap
    simp only
    cases hx : hcExpandMacros ms mid cap with
    | error e =>
      rw [hx] at hexpand
      cases e with
      | overrun => exact absurd rfl hexpand
      | refused code => exact ⟨by simp, fun dst h => by cases h⟩
    | ok u =>
      rw [hx] at hexpand
      refine ⟨by simp, fun dst hdst => ⟨⟨ms, mid, hspliced⟩, fun ms' mid' hspliced' hagree => ?_⟩⟩
      obtain ⟨rfl, rfl⟩ := hspliced.unique hspliced'
      obtain ⟨k, hk, hstable⟩ := hexpand hagree
      exact ⟨k, by rw [← hk]; exact (Except.ok.inj hdst).symm, hstable⟩

/-- No files. -/
def noFiles : Files := fun _ => none

/-- A line that defines `A` as `1`, and its name behind it. -/
def oneMacro : List UInt8 := [35, 100, 101, 102, 105, 110, 101, 32, 65, 32, 49, 10, 65, 10]

theorem oneMacro_spliced : Spliced noFiles 5 [] oneMacro [⟨[65], [49]⟩] [65, 10] := by
  have hline : DefineLine [35, 100, 101, 102, 105, 110, 101, 32, 65, 32, 49] ⟨[65], [49]⟩ :=
    ((hcParseDefine_iff (n := 0) (r := []) (by decide)).mp (by decide +kernel)).1.1
  have hdefine : ∀ m, ¬DefineLine [65] m := by
    rintro m ⟨-, a, b, c, d, e, -, -, -, -, hform⟩
    have hlen := congrArg List.length hform
    simp [defineWord] at hlen
    omega
  have hinclude : ∀ ns, ¬IncludeLine 40 [65] ns := by
    rintro ns ⟨-, a, b, c, e, o, close, -, -, -, hform⟩
    have hlen := congrArg List.length hform
    simp [includeWord] at hlen
    omega
  exact .define (t := [10, 65, 10]) (by decide) (fun c h => (Option.some.inj h).symm) hline
    (by decide)
    (.keep (l := [65]) (t := [10]) (by decide) (fun c h => (Option.some.inj h).symm) (by decide)
      (fun m hm => absurd hm (hdefine m)) hinclude .done)

theorem preprocess_small : ∃ k, [49, 10] = templeBytes ((expandOnce [⟨[65], [49]⟩])^[k] [65, 10]) ∧
    Stable [⟨[65], [49]⟩] ((expandOnce [⟨[65], [49]⟩])^[k] [65, 10]) := by
  have hfirst : expandOnce [⟨[65], [49]⟩] [65, 10] = [49, 10] := by decide +kernel
  have hfixed : expandOnce [⟨[65], [49]⟩] [49, 10] = [49, 10] := by decide +kernel
  refine ((preprocess_correct noFiles oneMacro 16384).2 [49, 10] (by decide +kernel)).2 _ _
    oneMacro_spliced fun k => ?_
  cases k with
  | zero => exact (by decide +kernel : AgreeOn [⟨[65], [49]⟩] [65, 10])
  | succ k =>
    rw [Function.iterate_succ_apply, hfirst, Function.iterate_fixed hfixed]
    exact (by decide +kernel : AgreeOn [⟨[65], [49]⟩] [49, 10])

/-- A line that includes a file with a name of forty letters. -/
def longInclude : List UInt8 := hash :: includeWord ++ [32, 34] ++ List.replicate 40 65 ++ [34, 10]

/-- A text of one string is changed in the string, a line with a long name stays, and a character
literal is expanded. -/
theorem literals_changed :
    (hcExpandIncludes noFiles [34, 0xce, 0xb8, 34] 16384 = .ok [34, 0xe9, 34] ∧
      reading .code [34, 0xce, 0xb8, 34] = [.literal [34, 0xce, 0xb8, 34]]) ∧
    hcExpandIncludes noFiles longInclude 16384 = .ok longInclude ∧
    hcExpandIncludes noFiles (oneMacro.take 12 ++ [39, 65, 39]) 16384 = .ok [39, 49, 39] ∧
      reading .code [39, 65, 39] = [.literal [39, 65, 39]] := by
  decide +kernel

end ZealBringup.Preproc
