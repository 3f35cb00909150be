import ZealBringup.Calc.Reading

/-!
# Expressions that do not fit

* `derives_overflows` — the parser gives up on an expression whose bytes do not fit.
* `exprCompile_refuses` — such a text is not accepted, so that it does not matter for the value which of
  its trees is meant.
-/

namespace ZealBringup.Calc

open Hc Postfix

variable {sub : HcExpr → ExprRun} {op : UInt8 → Option CalcOp}

theorem andThen_fail {r : ExprRun} {k : HcExpr → ExprRun} (h : r.1 = .fail) :
    (r.andThen k).1 = .fail := by
  obtain ⟨ret, e⟩ := r
  cases ret with
  | ok => exact absurd h (by simp)
  | fail => rfl
  | fuel => exact absurd h (by simp)

variable {e : HcExpr}

theorem exprChain_fail (h : (sub e).1 = .fail) : (exprChain sub op e).1 = .fail :=
  andThen_fail h

theorem exprEmit_full (b : UInt8) (h : exprCap ≤ e.bc.length) :
    (exprEmit e b).1 = .fail := by
  unfold exprEmit
  rw [if_pos h]
  rfl

variable {c : UInt8} {o : CalcOp}

/-- A round of the loop whose operand is not read. -/
theorem exprLoop_fail {p : List UInt8} (k : ℕ) (hp : skipBlanks e.p = c :: p) (hc : op c = some o)
    (h : (sub { e with p := p }).1 = .fail) : (exprLoop sub op (k + 1) e).1 = .fail := by
  unfold exprLoop exprSkip
  dsimp only
  rw [hp]
  dsimp only
  rw [hc]
  exact andThen_fail h

/-- A round of the loop without room for the operator. -/
theorem exprLoop_full {e' : HcExpr} {p : List UInt8} (k : ℕ) (hp : skipBlanks e.p = c :: p)
    (hc : op c = some o) (hone : sub { e with p := p } = (.ok, e'))
    (hcap : exprCap ≤ e'.bc.length) :
    (exprLoop sub op (k + 1) e).1 = .fail := by
  unfold exprLoop exprSkip
  dsimp only
  rw [hp]
  dsimp only
  rw [hc]
  dsimp only
  rw [hone, andThen_ok]
  exact andThen_fail (exprEmit_full _ hcap)

/-- What the parser does with an expression of a level whose bytes do not fit. -/
def Overflows (lv : Level) (s : List UInt8) (t : Expr) : Prop :=
  ∀ (n : ℕ) (rest bc : List UInt8) (err : Bool), s.length + rest.length < n → NoDigit rest →
    bc.length ≤ exprCap → exprCap < bc.length + (exprBytes t).length →
      match lv with
      | .prim => (exprParsePrim n ⟨s ++ rest, bc, err⟩).1 = .fail
      | .mul => (exprParseMul (exprParsePrim n) ⟨s ++ rest, bc, err⟩).1 = .fail
      | .add => NoOp mulOp rest → (exprParseAdd (exprParsePrim n) ⟨s ++ rest, bc, err⟩).1 = .fail

variable {b s : List UInt8} {t : Expr}

theorem overflows_paren {b' : List UInt8} (hb : Blanks b) (hb' : Blanks b')
    (hs : Overflows .add s t) :
    Overflows .prim (b ++ openParen :: (s ++ (b' ++ [closeParen]))) t := by
  intro n rest bc err hn hrest hle hcap
  simp only [List.length_append, List.length_cons] at hn
  obtain ⟨n, rfl⟩ := Nat.exists_eq_succ_of_ne_zero (Nat.ne_of_gt (Nat.zero_lt_of_lt hn))
  have hin := hs n (b' ++ closeParen :: rest) bc err
    (by rw [List.length_append, List.length_cons]; omega)
    (noDigit_blanks hb' (by decide) rest) hle hcap (noOp_token hb' (by decide) (by decide) rest)
  have hopened : skipBlanks (b ++ openParen :: (s ++ (b' ++ [closeParen])) ++ rest) =
      openParen :: (s ++ (b' ++ closeParen :: rest)) := by
    rw [List.append_assoc, List.cons_append, skipBlanks_token hb _ (by decide)]
    simp
  show (exprParsePrim (n + 1) _).1 = _
  unfold exprParsePrim exprSkip
  dsimp only
  rw [hopened]
  dsimp only
  rw [if_pos rfl]
  exact andThen_fail hin

theorem overflows_neg (hb : Blanks b) (hd : Derives .prim s t) (hs : Overflows .prim s t) :
    Overflows .prim (b ++ minus :: s) (.unary () t) := by
  intro n rest bc err hn hrest hle hcap
  simp only [List.length_append, List.length_cons, exprBytes_unary, List.length_nil] at hn hcap
  obtain ⟨n, rfl⟩ := Nat.exists_eq_succ_of_ne_zero (Nat.ne_of_gt (Nat.zero_lt_of_lt hn))
  have hsign : skipBlanks (b ++ minus :: s ++ rest) = minus :: (s ++ rest) := by
    rw [List.append_assoc, List.cons_append, skipBlanks_token hb _ (by decide)]
  show (exprParsePrim (n + 1) _).1 = _
  unfold exprParsePrim exprSkip
  dsimp only
  rw [hsign]
  dsimp only
  rw [if_neg (by decide), if_pos rfl]
  by_cases hfit : bc.length + (exprBytes t).length ≤ exprCap
  · have hin := derives_parses hd n rest bc err (by omega) hrest hfit
    rw [hin, andThen_ok]
    exact exprEmit_full _ (by rw [List.length_append]; omega)
  · exact andThen_fail (hs n rest bc err (by omega) hrest hle (by omega))

theorem overflows_digits {ds : List UInt8} (hb : Blanks b) (hne : ds ≠ [])
    (hds : ∀ d ∈ ds, isDigit d = true) : Overflows .prim (b ++ ds) (.leaf (digitsValue ds)) := by
  intro n rest bc err hn hrest hle hcap
  simp only [List.length_append, exprBytes_leaf, length_hcPackImm64] at hn hcap
  obtain ⟨n, rfl⟩ := Nat.exists_eq_succ_of_ne_zero (Nat.ne_of_gt (Nat.zero_lt_of_lt hn))
  obtain ⟨c, p, rfl⟩ := List.exists_cons_of_ne_nil hne
  have hc := hds c List.mem_cons_self
  have hother := digit_ne hc
  have hskip : skipBlanks (b ++ c :: p ++ rest) = c :: (p ++ rest) := by
    rw [List.append_assoc, List.cons_append, skipBlanks_token hb _ ⟨hother.1, hother.2.1⟩]
  show (exprParsePrim (n + 1) _).1 = _
  unfold exprParsePrim exprSkip
  dsimp only
  rw [hskip]
  dsimp only
  rw [if_neg hother.2.2.1, if_neg hother.2.2.2, if_pos hc]
  unfold exprImm
  dsimp only
  rw [if_pos (by omega)]
  rfl

theorem overflows_times {r : List UInt8} {u : Expr} (hb : Blanks b) (hd : Derives .mul s t)
    (hdr : Derives .prim r u) (hs : Overflows .mul s t) (hr : Overflows .prim r u) :
    Overflows .mul (s ++ (b ++ star :: r)) (.binary .mul t u) := by
  intro n rest bc err hn hrest hle hcap
  simp only [List.length_append, List.length_cons, exprBytes_binary, List.length_nil] at hn hcap
  have hnext : NoDigit (b ++ star :: (r ++ rest)) := noDigit_blanks hb (by decide) _
  have hskip : skipBlanks (b ++ star :: (r ++ rest)) = star :: (r ++ rest) :=
    skipBlanks_token hb _ (by decide)
  have htext : s ++ (b ++ star :: r) ++ rest = s ++ (b ++ star :: (r ++ rest)) := by
    simp
  have hlength : s.length + (b ++ star :: (r ++ rest)).length < n := by
    simp only [List.length_append, List.length_cons]
    omega
  dsimp only
  rw [htext]
  by_cases hleft : bc.length + (exprBytes t).length ≤ exprCap
  · rw [derives_parses hd n _ bc err hlength hnext hleft]
    have hbytes : (bc ++ exprBytes t).length = bc.length + (exprBytes t).length := List.length_append
    by_cases hright : bc.length + (exprBytes t).length + (exprBytes u).length ≤ exprCap
    · have hone := derives_parses hdr n rest (bc ++ exprBytes t) err (by omega) hrest
        (by rw [hbytes]; exact hright)
      exact exprLoop_full _ hskip mulOp_star hone (by rw [List.length_append, hbytes]; omega)
    · exact exprLoop_fail _ hskip mulOp_star
        (hr n rest (bc ++ exprBytes t) err (by omega) hrest (by omega) (by omega))
  · exact hs n _ bc err hlength hnext hle (by omega)

theorem overflows_term {r : List UInt8} {u : Expr} (hb : Blanks b) (hc : addOp c = some o)
    (hother : c ≠ blank ∧ c ≠ tab ∧ isDigit c = false ∧ mulOp c = none) (hd : Derives .add s t)
    (hdr : Derives .mul r u) (hs : Overflows .add s t) (hr : Overflows .mul r u) :
    Overflows .add (s ++ (b ++ c :: r)) (.binary o t u) := by
  intro n rest bc err hn hrest hle hcap hstop
  simp only [List.length_append, List.length_cons, exprBytes_binary, List.length_nil] at hn hcap
  have hblank : c ≠ blank ∧ c ≠ tab := ⟨hother.1, hother.2.1⟩
  have hnext : NoDigit (b ++ c :: (r ++ rest)) := noDigit_blanks hb hother.2.2.1 _
  have hnoMul : NoOp mulOp (b ++ c :: (r ++ rest)) := noOp_token hb hblank hother.2.2.2 _
  have hskip : skipBlanks (b ++ c :: (r ++ rest)) = c :: (r ++ rest) := skipBlanks_token hb _ hblank
  have htext : s ++ (b ++ c :: r) ++ rest = s ++ (b ++ c :: (r ++ rest)) := by
    simp
  have hlength : s.length + (b ++ c :: (r ++ rest)).length < n := by
    simp only [List.length_append, List.length_cons]
    omega
  rw [htext]
  by_cases hleft : bc.length + (exprBytes t).length ≤ exprCap
  · rw [derives_parses hd n _ bc err hlength hnext hleft hnoMul]
    have hbytes : (bc ++ exprBytes t).length = bc.length + (exprBytes t).length := List.length_append
    by_cases hright : bc.length + (exprBytes t).length + (exprBytes u).length ≤ exprCap
    · have hone := @parses_stop r u (derives_parses hdr) n rest (bc ++ exprBytes t) err (by omega)
        hrest hstop (by rw [hbytes]; exact hright)
      exact exprLoop_full _ hskip hc hone (by simp only [exprSkip, List.length_append]; omega)
    · exact exprLoop_fail _ hskip hc
        (hr n rest (bc ++ exprBytes t) err (by omega) hrest (by omega) (by omega))
  · exact hs n _ bc err hlength hnext hle (by omega) hnoMul

/-- **The parser gives up on every expression whose bytes do not fit.** -/
theorem derives_overflows {lv : Level} (h : Derives lv s t) :
    Overflows lv s t := by
  induction h with
  | paren hb _ hb' ih => exact overflows_paren hb hb' ih
  | neg hb hs ih => exact overflows_neg hb hs ih
  | digits hb hne hds => exact overflows_digits hb hne hds
  | prim _ ih =>
    intro n rest bc err hn hrest hle hcap
    exact exprChain_fail (ih n rest bc err hn hrest hle hcap)
  | times hs hb hr ihs ihr => exact overflows_times hb hs hr ihs ihr
  | mul _ ih =>
    intro n rest bc err hn hrest hle hcap hstop
    exact exprChain_fail (ih n rest bc err hn hrest hle hcap)
  | plus hs hb hr ihs ihr => exact overflows_term hb (by decide) (by decide) hs hr ihs ihr
  | minus hs hb hr ihs ihr => exact overflows_term hb (by decide) (by decide) hs hr ihs ihr

/-- **An expression whose bytecode does not fit is not accepted.** -/
theorem exprCompile_refuses {text : List UInt8} (h : Reads text t)
    (hcap : exprCap < (exprBytes t).length + 2) : (exprCompile text).1 = none := by
  obtain ⟨s, b, rfl, hb, hs⟩ := h
  by_cases hfit : (exprBytes t).length ≤ exprCap
  · have hadd := exprParse_reads hb hs hfit
    unfold exprCompile
    rw [hadd]
    dsimp only
    rw [if_pos (Or.inr (Or.inr hcap))]
  · have hfail := derives_overflows hs ((s ++ b).length + 1) b [] false
      (by rw [List.length_append]; omega) (noDigit_of_blanks hb) (Nat.zero_le _)
      (by rw [List.length_nil]; omega) (noOp_blanks hb)
    unfold exprCompile
    generalize exprParseAdd _ _ = r at hfail ⊢
    obtain ⟨ret, e⟩ := r
    cases ret with
    | ok => exact absurd hfail (by simp)
    | fail => rfl
    | fuel => rfl

end ZealBringup.Calc
