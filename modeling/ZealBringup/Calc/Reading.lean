import ZealBringup.Calc.Parser

/-!
# What the parser reads

* `exprCompile_fits` — never a byte behind the end of `bc`, whatever the text.
* `exprParse_total` — the parser always comes back.
* `exprCompile_sound`, `exprCompile_complete` — it accepts the expressions whose bytecode fits, and
  writes the bytecode of their tree.
-/

namespace ZealBringup.Calc

open Hc Postfix

/-! ## Blanks and digits -/

theorem Blanks.append {a b : List UInt8} (ha : Blanks a) (hb : Blanks b) : Blanks (a ++ b) := by
  intro c hc
  exact (List.mem_append.mp hc).elim (ha c) (hb c)

theorem blanks_nil : Blanks [] := fun _ h => absurd h List.not_mem_nil

theorem skipBlanks_blanks {b : List UInt8} (hb : Blanks b) (s : List UInt8) :
    skipBlanks (b ++ s) = skipBlanks s := by
  induction b with
  | nil => rfl
  | cons c b ih =>
    rw [List.cons_append, skipBlanks, if_pos (hb c List.mem_cons_self)]
    exact ih fun d hd => hb d (List.mem_cons_of_mem c hd)

/-- What is skipped are blanks. -/
theorem exists_blanks (s : List UInt8) : ∃ b, Blanks b ∧ s = b ++ skipBlanks s := by
  induction s with
  | nil => exact ⟨[], blanks_nil, rfl⟩
  | cons c s ih =>
    rw [skipBlanks]
    split_ifs with hc
    · obtain ⟨b, hb, hs⟩ := ih
      refine ⟨c :: b, ?_, by rw [List.cons_append, ← hs]⟩
      intro d hd
      rcases List.mem_cons.mp hd with rfl | hd
      · exact hc
      · exact hb d hd
    · exact ⟨[], blanks_nil, rfl⟩

theorem length_skipBlanks_le (s : List UInt8) : (skipBlanks s).length ≤ s.length := by
  obtain ⟨b, _, hs⟩ := exists_blanks s
  have hlength := congrArg List.length hs
  rw [List.length_append] at hlength
  omega

@[simp] theorem skipBlanks_skipBlanks (s : List UInt8) : skipBlanks (skipBlanks s) = skipBlanks s := by
  obtain ⟨b, hb, hs⟩ := exists_blanks s
  conv_rhs => rw [hs, skipBlanks_blanks hb]

theorem skipBlanks_cons {c : UInt8} (p : List UInt8) (h : c ≠ blank ∧ c ≠ tab) :
    skipBlanks (c :: p) = c :: p := by
  rw [skipBlanks, if_neg]
  rintro (hc | hc)
  · exact h.1 hc
  · exact h.2 hc

/-- Blanks in front of a token. -/
theorem skipBlanks_token {b : List UInt8} (hb : Blanks b) {c : UInt8} (p : List UInt8)
    (h : c ≠ blank ∧ c ≠ tab) : skipBlanks (b ++ c :: p) = c :: p := by
  rw [skipBlanks_blanks hb, skipBlanks_cons p h]

/-- The text does not go on with a digit. -/
def NoDigit (s : List UInt8) : Prop := ∀ c p, s = c :: p → isDigit c = false

theorem noDigit_blanks {b : List UInt8} {c : UInt8} (hb : Blanks b) (hc : isDigit c = false)
    (p : List UInt8) : NoDigit (b ++ c :: p) := by
  intro d q h
  cases b with
  | nil =>
    obtain ⟨rfl, _⟩ := List.cons.inj h
    exact hc
  | cons x b =>
    obtain ⟨rfl, _⟩ := List.cons.inj h
    rcases hb x List.mem_cons_self with rfl | rfl <;> rfl

/-- The digits of a number are read, modulo `2 ^ 64`. -/
theorem exprDigits_append {ds rest : List UInt8} (hds : ∀ d ∈ ds, isDigit d = true)
    (hrest : NoDigit rest) (v : ℕ) :
    exprDigits v (ds ++ rest) =
      (ds.foldl (fun v d => (v * 10 + (d.toNat - 0x30)) % 2 ^ 64) v, rest) := by
  induction ds generalizing v with
  | nil =>
    cases rest with
    | nil => rfl
    | cons c p =>
      rw [List.nil_append, exprDigits, hrest c p rfl, if_neg Bool.false_ne_true]
      rfl
  | cons d ds ih =>
    rw [List.cons_append, exprDigits, if_pos (hds d List.mem_cons_self)]
    exact ih (fun c hc => hds c (List.mem_cons_of_mem d hc)) _

/-- What is read of a text are its first digits. -/
theorem exprDigits_eq (v : ℕ) (s : List UInt8) : ∃ ds, s = ds ++ (exprDigits v s).2 ∧
    (∀ d ∈ ds, isDigit d = true) ∧
    (exprDigits v s).1 = ds.foldl (fun v d => (v * 10 + (d.toNat - 0x30)) % 2 ^ 64) v := by
  induction s generalizing v with
  | nil => exact ⟨[], rfl, fun _ h => absurd h List.not_mem_nil, rfl⟩
  | cons c p ih =>
    rw [exprDigits]
    split_ifs with hc
    · obtain ⟨ds, hs, hds, hv⟩ := ih ((v * 10 + (c.toNat - 0x30)) % 2 ^ 64)
      refine ⟨c :: ds, by rw [List.cons_append, ← hs], ?_, hv⟩
      intro d hd
      rcases List.mem_cons.mp hd with rfl | hd
      · exact hc
      · exact hds d hd
    · exact ⟨[], rfl, fun _ h => absurd h List.not_mem_nil, rfl⟩

/-- A number that wraps at every digit wraps once. -/
theorem foldl_digits_mod (ds : List UInt8) (v : ℕ) :
    ds.foldl (fun v d => (v * 10 + (d.toNat - 0x30)) % 2 ^ 64) (v % 2 ^ 64) =
      ds.foldl (fun v d => v * 10 + (d.toNat - 0x30)) v % 2 ^ 64 := by
  induction ds generalizing v with
  | nil => rfl
  | cons d ds ih =>
    rw [List.foldl_cons, List.foldl_cons, ← ih]
    congr 1
    omega

theorem hcPackImm64_mod (v : ℕ) : hcPackImm64 (v % 2 ^ 64) = hcPackImm64 v := by
  unfold hcPackImm64
  congr 1
  refine List.map_congr_left ?_
  intro b hb
  rw [List.mem_range] at hb
  apply UInt8.toNat_inj.mp
  rw [UInt8.toNat_ofNat', UInt8.toNat_ofNat']
  interval_cases b <;> omega

/-- The bytes of a number are those of its digits. -/
theorem hcPackImm64_digits (ds : List UInt8) :
    hcPackImm64 (ds.foldl (fun v d => (v * 10 + (d.toNat - 0x30)) % 2 ^ 64) 0) =
      hcPackImm64 (digitsValue ds) := by
  have hmod := foldl_digits_mod ds 0
  rw [Nat.zero_mod] at hmod
  rw [hmod, hcPackImm64_mod]
  rfl

/-! ## The bytes of a tree -/

@[simp] theorem length_hcPackImm64 (v : ℕ) : (hcPackImm64 v).length = 9 := rfl

@[simp] theorem exprBytes_leaf (v : ℕ) : exprBytes (.leaf v) = hcPackImm64 v := by
  simp [exprBytes, Term.code, itemBytes]

@[simp] theorem exprBytes_unary (t : Expr) : exprBytes (.unary () t) = exprBytes t ++ [hcNeg] := by
  simp [exprBytes, Term.code, itemBytes]

@[simp] theorem exprBytes_binary (op : CalcOp) (t u : Expr) :
    exprBytes (.binary op t u) = exprBytes t ++ (exprBytes u ++ [op.code]) := by
  simp [exprBytes, Term.code, itemBytes]

/-! ## Calls -/

variable {f : HcExpr → ExprRun} {sub : HcExpr → ExprRun} {op : UInt8 → Option CalcOp}

theorem andThen_ok (e : HcExpr) (k : HcExpr → ExprRun) : ExprRun.andThen (.ok, e) k = k e := rfl

/-- A call that returned 0 in the end returned 0 at each of its steps. -/
theorem andThen_eq_ok {r : ExprRun} {k : HcExpr → ExprRun} (h : (r.andThen k).1 = .ok) :
    r.1 = .ok ∧ r.andThen k = k r.2 := by
  obtain ⟨ret, e⟩ := r
  cases ret with
  | ok => exact ⟨rfl, rfl⟩
  | fail => exact absurd h (by simp [ExprRun.andThen])
  | fuel => exact absurd h (by simp [ExprRun.andThen])

theorem exprEmit_ok {e : HcExpr} {b : UInt8} (h : (exprEmit e b).1 = .ok) :
    exprEmit e b = (.ok, { e with bc := e.bc ++ [b] }) ∧ e.bc.length < exprCap := by
  unfold exprEmit at h ⊢
  split_ifs at h ⊢ with hcap
  · exact absurd h (by simp [HcExpr.fail])
  · exact ⟨rfl, Nat.lt_of_not_le hcap⟩

theorem exprEmit_of_lt {e : HcExpr} (b : UInt8) (h : e.bc.length < exprCap) :
    exprEmit e b = (.ok, { e with bc := e.bc ++ [b] }) := by
  unfold exprEmit
  rw [if_neg (Nat.not_le_of_lt h)]

/-! ## The capacity -/

/-- A function that keeps to `bc`. -/
def Fits (f : HcExpr → ExprRun) : Prop :=
  ∀ e, e.bc.length ≤ exprCap → (f e).2.bc.length ≤ exprCap

theorem fits_emit (b : UInt8) : Fits fun e => exprEmit e b := by
  intro e h
  unfold exprEmit
  dsimp only
  split_ifs with hcap
  · exact h
  · show (e.bc ++ [b]).length ≤ exprCap
    rw [List.length_append, List.length_singleton]
    omega

theorem fits_imm (v : ℕ) : Fits fun e => exprImm e v := by
  intro e h
  unfold exprImm
  dsimp only
  split_ifs with hcap
  · exact h
  · show (e.bc ++ hcPackImm64 v).length ≤ exprCap
    rw [List.length_append, length_hcPackImm64]
    omega

theorem Fits.andThen {k : HcExpr → ExprRun} (hf : Fits f) (hk : Fits k) :
    Fits fun e => (f e).andThen k := by
  intro e h
  have hfe := hf e h
  dsimp only
  generalize f e = r at hfe ⊢
  obtain ⟨ret, e'⟩ := r
  cases ret with
  | ok => exact hk e' hfe
  | fail => exact hfe
  | fuel => exact hfe

theorem fits_loop (hsub : Fits sub) (n : ℕ) : Fits (exprLoop sub op n) := by
  induction n with
  | zero => exact fun _ h => h
  | succ n ih =>
    intro e h
    unfold exprLoop
    dsimp only
    split
    · exact h
    · split
      · exact h
      · exact hsub.andThen ((fits_emit _).andThen ih) _ h

theorem fits_chain (hsub : Fits sub) : Fits (exprChain sub op) := by
  intro e h
  unfold exprChain
  exact hsub.andThen (fun e h => fits_loop hsub _ e h) e h

theorem fits_close : Fits exprClose := by
  intro e h
  unfold exprClose
  dsimp only
  split
  · exact h
  · split_ifs
    · exact h
    · exact h

theorem fits_prim (n : ℕ) : Fits (exprParsePrim n) := by
  induction n with
  | zero => exact fun _ h => h
  | succ n ih =>
    intro e h
    unfold exprParsePrim
    dsimp only
    split
    · exact h
    · split_ifs
      · exact (fits_chain (fits_chain ih)).andThen fits_close _ h
      · exact ih.andThen (fits_emit hcNeg) _ h
      · exact fits_imm _ _ h
      · exact h

/-- **Never a byte behind the end of `bc`**, whatever the text. -/
theorem exprCompile_fits (text : List UInt8) : (exprCompile text).2.length ≤ exprCap := by
  have hmul : Fits (exprParseMul (exprParsePrim (text.length + 1))) := fits_chain (fits_prim _)
  have hadd : Fits (exprParseAdd (exprParsePrim (text.length + 1))) := fits_chain hmul
  have hfits := hadd ⟨text, [], false⟩ (Nat.zero_le _)
  unfold exprCompile
  generalize exprParseAdd _ _ = r at hfits ⊢
  obtain ⟨ret, e⟩ := r
  cases ret with
  | ok =>
    dsimp only at hfits ⊢
    split_ifs with hbad
    · exact hfits
    · show (e.bc ++ [hcRet, hcEnd]).length ≤ exprCap
      rw [List.length_append]
      simp only [not_or, Nat.not_lt] at hbad
      exact hbad.2.2
  | fail => exact hfits
  | fuel => exact hfits

/-! ## The end -/

/-- A function that comes back on texts of less than `n` characters, and has read something if it
returns 0. -/
def Total (f : HcExpr → ExprRun) (n : ℕ) : Prop :=
  ∀ e, e.p.length < n → (f e).1 ≠ .fuel ∧ ((f e).1 = .ok → (f e).2.p.length < e.p.length)

theorem exprEmit_total (e : HcExpr) (b : UInt8) : (exprEmit e b).1 ≠ .fuel ∧ (exprEmit e b).2.p = e.p := by
  unfold exprEmit HcExpr.fail
  split_ifs <;> exact ⟨by simp, rfl⟩

theorem exprImm_total (e : HcExpr) (v : ℕ) : (exprImm e v).1 ≠ .fuel ∧ (exprImm e v).2.p = e.p := by
  unfold exprImm HcExpr.fail
  split_ifs <;> exact ⟨by simp, rfl⟩

/-- One step after another. -/
theorem andThen_total {r : ExprRun} {k : HcExpr → ExprRun} {a b : ℕ} (hr : r.1 ≠ .fuel)
    (hlt : r.1 = .ok → r.2.p.length < a)
    (hk : ∀ e, e.p.length < a → (k e).1 ≠ .fuel ∧ ((k e).1 = .ok → (k e).2.p.length < b)) :
    (r.andThen k).1 ≠ .fuel ∧ ((r.andThen k).1 = .ok → (r.andThen k).2.p.length < b) := by
  obtain ⟨ret, e⟩ := r
  cases ret with
  | ok => exact hk e (hlt rfl)
  | fail => exact ⟨by simp [ExprRun.andThen], fun h => absurd h (by simp [ExprRun.andThen])⟩
  | fuel => exact absurd rfl hr

/-- A round of the loop reads at least the operator. -/
theorem exprLoop_total {n : ℕ} (hsub : Total sub n) (k : ℕ) (e : HcExpr) (hn : e.p.length ≤ n)
    (hk : e.p.length < k) : (exprLoop sub op k e).1 ≠ .fuel ∧
      ((exprLoop sub op k e).1 = .ok → (exprLoop sub op k e).2.p.length < e.p.length + 1) := by
  induction k generalizing e with
  | zero => exact absurd hk (Nat.not_lt_zero _)
  | succ k ih =>
    have hskip := length_skipBlanks_le e.p
    unfold exprLoop exprSkip
    dsimp only
    split
    · exact ⟨by simp, fun _ => Nat.lt_succ_of_le hskip⟩
    · rename_i c p hp
      rw [hp, List.length_cons] at hskip
      split
      · exact ⟨by simp, fun _ => Nat.lt_succ_of_le (by rw [hp, List.length_cons]; exact hskip)⟩
      · have hone := hsub { e with p := p } (by dsimp only; omega)
        refine andThen_total (a := p.length) hone.1 hone.2 ?_
        intro e₁ he₁
        refine andThen_total (a := p.length) (exprEmit_total e₁ _).1 ?_ ?_
        · intro _
          rw [(exprEmit_total e₁ _).2]
          exact he₁
        · intro e₂ he₂
          obtain ⟨hfuel, hlt⟩ := ih e₂ (by omega) (by omega)
          exact ⟨hfuel, fun h => lt_trans (hlt h) (by omega)⟩

theorem exprChain_total {n : ℕ} (hsub : Total sub n) : Total (exprChain sub op) n := by
  intro e he
  obtain ⟨hfuel, hlt⟩ := hsub e he
  refine andThen_total (a := e.p.length) hfuel hlt ?_
  intro e₁ he₁
  obtain ⟨hloop, hle⟩ := @exprLoop_total sub op n hsub (e₁.p.length + 1) e₁ (by omega) (by omega)
  exact ⟨hloop, fun h => lt_of_lt_of_le (hle h) (by omega)⟩

/-- **The parser comes back** from every text that is shorter than its fuel. -/
theorem exprParsePrim_total (n : ℕ) : Total (exprParsePrim n) n := by
  induction n with
  | zero => exact fun e h => absurd h (Nat.not_lt_zero _)
  | succ n ih =>
    intro e he
    have hskip := length_skipBlanks_le e.p
    unfold exprParsePrim exprSkip
    dsimp only
    split
    · exact ⟨by simp [HcExpr.fail], fun h => absurd h (by simp [HcExpr.fail])⟩
    · rename_i c p hp
      rw [hp, List.length_cons] at hskip
      split_ifs with hopen hminus hdigit
      · have hadd : Total (exprParseAdd (exprParsePrim n)) n := exprChain_total (exprChain_total ih)
        obtain ⟨hfuel, hlt⟩ := hadd { e with p := p } (by dsimp only; omega)
        refine andThen_total (a := p.length) hfuel hlt ?_
        intro e₁ he₁
        have hclose := length_skipBlanks_le e₁.p
        unfold exprClose exprSkip
        dsimp only
        split
        · exact ⟨by simp [HcExpr.fail], fun h => absurd h (by simp [HcExpr.fail])⟩
        · rename_i d q hq
          rw [hq, List.length_cons] at hclose
          split_ifs
          · exact ⟨by simp, fun _ => by dsimp only; omega⟩
          · exact ⟨by simp [HcExpr.fail], fun h => absurd h (by simp [HcExpr.fail])⟩
      · obtain ⟨hfuel, hlt⟩ := ih { e with p := p } (by dsimp only; omega)
        refine andThen_total (a := p.length) hfuel hlt ?_
        intro e₁ he₁
        obtain ⟨hemit, hp₁⟩ := exprEmit_total e₁ hcNeg
        exact ⟨hemit, fun _ => by rw [hp₁]; omega⟩
      · obtain ⟨himm, hp₁⟩ := exprImm_total { e with p := (exprDigits 0 (c :: p)).2 }
          (exprDigits 0 (c :: p)).1
        refine ⟨himm, fun _ => ?_⟩
        rw [hp₁]
        -- the first digit is read
        have hfirst : (exprDigits 0 (c :: p)).2 = (exprDigits ((0 * 10 + (c.toNat - 0x30)) % 2 ^ 64) p).2 := by
          rw [exprDigits, if_pos hdigit]
        obtain ⟨ds, hds, _⟩ := exprDigits_eq ((0 * 10 + (c.toNat - 0x30)) % 2 ^ 64) p
        have hlength := congrArg List.length hds
        rw [List.length_append] at hlength
        dsimp only
        rw [hfirst]
        omega
      · exact ⟨by simp [HcExpr.fail], fun h => absurd h (by simp [HcExpr.fail])⟩

theorem exprParseMul_total (n : ℕ) : Total (exprParseMul (exprParsePrim n)) n :=
  exprChain_total (exprParsePrim_total n)

/-- **`expr_compile_run` has the fuel that it needs.** -/
theorem exprParse_total (text : List UInt8) :
    (exprParseAdd (exprParsePrim (text.length + 1)) ⟨text, [], false⟩).1 ≠ .fuel :=
  (@exprChain_total _ addOp _ (exprParseMul_total (text.length + 1)) ⟨text, [], false⟩
    (Nat.lt_succ_self _)).1

/-! ## Soundness -/

/-- Between two states of the parser an expression was read, and blanks behind it. -/
structure Between (lv : Level) (e e' : HcExpr) (t : Expr) : Prop where
  text : ∃ s b, e.p = s ++ (b ++ e'.p) ∧ Blanks b ∧ Derives lv s t
  bytes : e'.bc = e.bc ++ exprBytes t
  err : e'.err = e.err

/-- A function that returns 0 has read an expression. -/
def Sound (lv : Level) (f : HcExpr → ExprRun) : Prop :=
  ∀ e, (f e).1 = .ok → ∃ t, Between lv e (f e).2 t

/-- Blanks that are skipped are behind the expression. -/
theorem Between.skip {lv : Level} {e e' : HcExpr} {t : Expr} (h : Between lv e e' t) :
    Between lv e (exprSkip e') t := by
  obtain ⟨s, b, htext, hb, hs⟩ := h.text
  obtain ⟨b', hb', hskip⟩ := exists_blanks e'.p
  refine ⟨⟨s, b ++ b', ?_, hb.append hb', hs⟩, h.bytes, h.err⟩
  show e.p = s ++ (b ++ b' ++ skipBlanks e'.p)
  rw [List.append_assoc, ← hskip]
  exact htext

section Chain

variable {lo hi : Level}
  (hop : ∀ c o, op c = some o → ∀ {s b r : List UInt8} {t u : Expr}, Derives hi s t → Blanks b →
    Derives lo r u → Derives hi (s ++ (b ++ c :: r)) (.binary o t u))

include hop

/-- One more operand. -/
theorem Between.more {e e₁ e₂ : HcExpr} {t u : Expr} {c : UInt8} {o : CalcOp} {p : List UInt8}
    (h : Between hi e e₁ t) (hc : op c = some o) (hp : e₁.p = c :: p)
    (h₂ : Between lo { e₁ with p := p } e₂ u) :
    Between hi e { e₂ with bc := e₂.bc ++ [o.code] } (.binary o t u) := by
  obtain ⟨s, b, htext, hb, hs⟩ := h.text
  obtain ⟨r, b', hrest, hb', hr⟩ := h₂.text
  refine ⟨⟨s ++ (b ++ c :: r), b', ?_, hb', hop c o hc hs hb hr⟩, ?_, h₂.err.trans h.err⟩
  · dsimp only at hrest ⊢
    rw [htext, hp, hrest]
    simp
  · dsimp only
    rw [h₂.bytes, h.bytes, exprBytes_binary]
    simp

theorem exprLoop_sound (hsub : Sound lo sub) (k : ℕ) {e e₁ : HcExpr} {t : Expr}
    (h : Between hi e e₁ t) (hok : (exprLoop sub op k e₁).1 = .ok) :
    ∃ u, Between hi e (exprLoop sub op k e₁).2 u := by
  induction k generalizing e₁ t with
  | zero => exact absurd hok (by simp [exprLoop])
  | succ k ih =>
    have hskip := h.skip
    unfold exprLoop at hok ⊢
    generalize exprSkip e₁ = e₂ at hskip hok ⊢
    dsimp only at hok ⊢
    split at hok
    · exact ⟨t, hskip⟩
    · rename_i c p hp
      split at hok
      · exact ⟨t, hskip⟩
      · rename_i o hc
        obtain ⟨hone, hthen⟩ := andThen_eq_ok hok
        rw [hthen] at hok ⊢
        obtain ⟨hemit, hloop⟩ := andThen_eq_ok hok
        rw [hloop] at hok ⊢
        rw [(exprEmit_ok hemit).1] at hok ⊢
        obtain ⟨u, hu⟩ := hsub _ hone
        exact ih (hskip.more hop hc hp hu) hok

theorem exprChain_sound (hone : ∀ {s : List UInt8} {t : Expr}, Derives lo s t → Derives hi s t)
    (hsub : Sound lo sub) : Sound hi (exprChain sub op) := by
  intro e hok
  unfold exprChain at hok ⊢
  obtain ⟨hfirst, hthen⟩ := andThen_eq_ok hok
  rw [hthen] at hok ⊢
  obtain ⟨t, ht⟩ := hsub e hfirst
  obtain ⟨s, b, htext, hb, hs⟩ := ht.text
  exact exprLoop_sound hop hsub _ ⟨⟨s, b, htext, hb, hone hs⟩, ht.bytes, ht.err⟩ hok

end Chain

theorem mulOp_derives (c : UInt8) (o : CalcOp) (h : mulOp c = some o) {s b r : List UInt8} {t u : Expr}
    (hs : Derives .mul s t) (hb : Blanks b) (hr : Derives .prim r u) :
    Derives .mul (s ++ (b ++ c :: r)) (.binary o t u) := by
  unfold mulOp at h
  split_ifs at h with hc
  obtain rfl := Option.some.inj h
  rw [hc]
  exact .times hs hb hr

theorem addOp_derives (c : UInt8) (o : CalcOp) (h : addOp c = some o) {s b r : List UInt8} {t u : Expr}
    (hs : Derives .add s t) (hb : Blanks b) (hr : Derives .mul r u) :
    Derives .add (s ++ (b ++ c :: r)) (.binary o t u) := by
  unfold addOp at h
  split_ifs at h with hplus hminus
  · obtain rfl := Option.some.inj h
    rw [hplus]
    exact .plus hs hb hr
  · obtain rfl := Option.some.inj h
    rw [hminus]
    exact .minus hs hb hr

theorem exprParsePrim_sound (n : ℕ) : Sound .prim (exprParsePrim n) := by
  induction n with
  | zero => exact fun e hok => absurd hok (by simp [exprParsePrim])
  | succ n ih =>
    have hmul : Sound .mul (exprParseMul (exprParsePrim n)) := exprChain_sound mulOp_derives .prim ih
    have hadd : Sound .add (exprParseAdd (exprParsePrim n)) := exprChain_sound addOp_derives .mul hmul
    intro e hok
    obtain ⟨b, hb, hskip⟩ := exists_blanks e.p
    unfold exprParsePrim exprSkip at hok ⊢
    dsimp only at hok ⊢
    split at hok
    · exact absurd hok (by simp [HcExpr.fail])
    · rename_i c p hp
      rw [hp] at hskip
      split_ifs at hok ⊢ with hopen hminus hdigit
      · obtain ⟨hin, hthen⟩ := andThen_eq_ok hok
        rw [hthen] at hok ⊢
        obtain ⟨t, ht⟩ := hadd _ hin
        have hend := ht.skip
        obtain ⟨s, b', htext, hb', hs⟩ := hend.text
        unfold exprClose at hok ⊢
        generalize exprSkip _ = e₂ at hend htext hok ⊢
        dsimp only at hok htext ⊢
        split at hok
        · exact absurd hok (by simp [HcExpr.fail])
        · rename_i d q hq
          split_ifs at hok ⊢ with hclose
          · refine ⟨t, ⟨b ++ openParen :: (s ++ (b' ++ [closeParen])), [], ?_, blanks_nil,
              .paren hb hs hb'⟩, hend.bytes, hend.err⟩
            dsimp only
            rw [hskip, hopen, htext, hq, hclose]
            simp
          · exact absurd hok (by simp [HcExpr.fail])
      · obtain ⟨hin, hthen⟩ := andThen_eq_ok hok
        rw [hthen] at hok ⊢
        rw [(exprEmit_ok hok).1]
        obtain ⟨t, ht⟩ := ih _ hin
        obtain ⟨s, b', htext, hb', hs⟩ := ht.text
        refine ⟨.unary () t, ⟨b ++ minus :: s, b', ?_, hb', .neg hb hs⟩, ?_, ht.err⟩
        · dsimp only at htext ⊢
          rw [hskip, hminus, List.append_assoc, List.cons_append, ← htext]
        · dsimp only
          rw [ht.bytes, exprBytes_unary]
          simp
      · unfold exprImm at hok ⊢
        split_ifs at hok ⊢ with hcap
        · exact absurd hok (by simp [HcExpr.fail])
        · obtain ⟨ds, hds, hall, hvalue⟩ := exprDigits_eq 0 (c :: p)
          have hne : ds ≠ [] := by
            rintro rfl
            rw [List.nil_append, exprDigits, if_pos hdigit] at hds
            obtain ⟨ds', hds', _⟩ := exprDigits_eq ((0 * 10 + (c.toNat - 0x30)) % 2 ^ 64) p
            have hlong := congrArg List.length hds
            have hshort := congrArg List.length hds'
            rw [List.length_cons] at hlong
            rw [List.length_append] at hshort
            omega
          refine ⟨.leaf (digitsValue ds), ⟨b ++ ds, [], ?_, blanks_nil, .digits hb hne hall⟩, ?_, rfl⟩
          · dsimp only
            rw [List.nil_append, List.append_assoc, ← hds]
            exact hskip
          · dsimp only
            rw [hvalue, hcPackImm64_digits, exprBytes_leaf]
      · exact absurd hok (by simp [HcExpr.fail])

/-- **What is accepted is an expression**, and its bytecode fits. -/
theorem exprCompile_sound {text code bc : List UInt8} (h : exprCompile text = (some code, bc)) :
    ∃ t, Reads text t ∧ code = exprBytes t ++ [hcRet, hcEnd] ∧ code.length ≤ exprCap := by
  have hmul : Sound .mul (exprParseMul (exprParsePrim (text.length + 1))) :=
    exprChain_sound mulOp_derives .prim (exprParsePrim_sound _)
  have hadd : Sound .add (exprParseAdd (exprParsePrim (text.length + 1))) :=
    exprChain_sound addOp_derives .mul hmul
  have hsound := hadd ⟨text, [], false⟩
  unfold exprCompile at h
  generalize exprParseAdd _ _ = r at hsound h
  obtain ⟨ret, e⟩ := r
  cases ret with
  | fail => exact absurd (Prod.mk.inj h).1 (by simp)
  | fuel => exact absurd (Prod.mk.inj h).1 (by simp)
  | ok =>
    dsimp only at hsound h
    split_ifs at h with hbad
    · exact absurd (Prod.mk.inj h).1 (by simp)
    · obtain ⟨t, ht⟩ := hsound rfl
      simp only [not_or, ne_eq, not_not, Nat.not_lt] at hbad
      obtain ⟨_, hend, hcap⟩ := hbad
      obtain ⟨s, b, htext, hb, hs⟩ := ht.skip.text
      rw [hend, List.append_nil] at htext
      have hcode := Option.some.inj (Prod.mk.inj h).1
      refine ⟨t, ⟨s, b, htext, hb, hs⟩, ?_, ?_⟩
      · rw [← hcode, ht.bytes]
        rfl
      · rw [← hcode, List.length_append]
        exact hcap

/-! ## Completeness -/

section Loop

variable {n : ℕ}

/-- The loop does not depend on its fuel, once there is enough. -/
theorem exprLoop_fuel (hsub : Total sub n) {k k' : ℕ} {e : HcExpr} (hn : e.p.length ≤ n)
    (hk : e.p.length < k) (hk' : e.p.length < k') : exprLoop sub op k e = exprLoop sub op k' e := by
  induction k generalizing k' e with
  | zero => exact absurd hk (Nat.not_lt_zero _)
  | succ k ih =>
    obtain ⟨k', rfl⟩ := Nat.exists_eq_succ_of_ne_zero (Nat.ne_of_gt (Nat.zero_lt_of_lt hk'))
    have hskip := length_skipBlanks_le e.p
    unfold exprLoop exprSkip
    dsimp only
    split
    · rfl
    · rename_i c p hp
      rw [hp, List.length_cons] at hskip
      split
      · rfl
      · rename_i o ho
        have hone := (hsub { e with p := p } (by dsimp only; omega)).2
        generalize sub { e with p := p } = r at hone ⊢
        obtain ⟨ret, e₁⟩ := r
        cases ret with
        | fail => rfl
        | fuel => rfl
        | ok =>
          have hlt := hone rfl
          dsimp only at hlt
          have hp₁ := (exprEmit_total e₁ o.code).2
          rw [andThen_ok, andThen_ok]
          generalize exprEmit e₁ o.code = r at hp₁ ⊢
          obtain ⟨ret, e₂⟩ := r
          dsimp only at hp₁
          cases ret with
          | fail => rfl
          | fuel => rfl
          | ok => exact ih (by rw [hp₁]; omega) (by rw [hp₁]; omega) (by rw [hp₁]; omega)

/-- Blanks in front of the loop make no difference. -/
theorem exprLoop_skip (hsub : Total sub n) {e : HcExpr} (hn : e.p.length ≤ n) :
    exprLoop sub op ((exprSkip e).p.length + 1) (exprSkip e) = exprLoop sub op (e.p.length + 1) e := by
  have hskip : (exprSkip e).p.length ≤ e.p.length := length_skipBlanks_le e.p
  rw [@exprLoop_fuel sub op n hsub _ (e.p.length + 1) (exprSkip e) (by omega) (by omega) (by omega)]
  have hsame : exprSkip (exprSkip e) = exprSkip e := by
    unfold exprSkip
    dsimp only
    rw [skipBlanks_skipBlanks]
  rw [exprLoop, exprLoop, hsame]

/-- The text does not go on with an operator of the loop. -/
def NoOp (op : UInt8 → Option CalcOp) (s : List UInt8) : Prop :=
  ∀ c p, skipBlanks s = c :: p → op c = none

theorem noOp_token {b : List UInt8} (hb : Blanks b) {c : UInt8} (h : c ≠ blank ∧ c ≠ tab)
    (hc : op c = none) (p : List UInt8) : NoOp op (b ++ c :: p) := by
  intro d q hq
  rw [skipBlanks_token hb p h] at hq
  obtain ⟨rfl, _⟩ := List.cons.inj hq
  exact hc

theorem skipBlanks_all {b : List UInt8} (hb : Blanks b) : skipBlanks b = [] := by
  have hnil := skipBlanks_blanks hb []
  rw [List.append_nil] at hnil
  exact hnil

theorem noOp_blanks {b : List UInt8} (hb : Blanks b) : NoOp op b := by
  intro c p hp
  rw [skipBlanks_all hb] at hp
  cases hp

theorem noDigit_of_blanks {b : List UInt8} (hb : Blanks b) : NoDigit b := by
  intro c p hp
  subst hp
  rcases hb c List.mem_cons_self with rfl | rfl <;> rfl

theorem exprLoop_stop {e : HcExpr} (h : NoOp op e.p) (k : ℕ) :
    exprLoop sub op (k + 1) e = (.ok, exprSkip e) := by
  unfold exprLoop
  dsimp only
  split
  · rfl
  · rename_i c p hp
    rw [h c p hp]

/-- One round of the loop, when its operand is read and there is room for the operator. -/
theorem exprLoop_round (hsub : Total sub n) {e e' : HcExpr} {c : UInt8} {o : CalcOp}
    {p : List UInt8} (hn : e.p.length ≤ n) (hp : skipBlanks e.p = c :: p) (hc : op c = some o)
    (hone : sub { e with p := p } = (.ok, e')) (hcap : e'.bc.length < exprCap) :
    exprLoop sub op (e.p.length + 1) e =
      exprLoop sub op (e'.p.length + 1) { e' with bc := e'.bc ++ [o.code] } := by
  have hskip := length_skipBlanks_le e.p
  rw [hp, List.length_cons] at hskip
  have hlt := (hsub { e with p := p } (by dsimp only; omega)).2
  rw [hone] at hlt
  replace hlt := hlt rfl
  rw [exprLoop]
  unfold exprSkip
  dsimp only at hlt ⊢
  rw [hp]
  dsimp only
  rw [hc]
  dsimp only
  rw [hone, andThen_ok, exprEmit_of_lt _ hcap, andThen_ok]
  exact exprLoop_fuel hsub (by dsimp only; omega) (by dsimp only; omega) (by dsimp only; omega)

end Loop

/-- What the parser does with an expression of a level and the text behind it, if it has the fuel and
its bytes fit. -/
def Parses (lv : Level) (s : List UInt8) (t : Expr) : Prop :=
  ∀ (n : ℕ) (rest bc : List UInt8) (err : Bool), s.length + rest.length < n → NoDigit rest →
    bc.length + (exprBytes t).length ≤ exprCap →
      match lv with
      | .prim => exprParsePrim n ⟨s ++ rest, bc, err⟩ = (.ok, ⟨rest, bc ++ exprBytes t, err⟩)
      | .mul => exprParseMul (exprParsePrim n) ⟨s ++ rest, bc, err⟩ =
          exprLoop (exprParsePrim n) mulOp (rest.length + 1) ⟨rest, bc ++ exprBytes t, err⟩
      | .add => NoOp mulOp rest → exprParseAdd (exprParsePrim n) ⟨s ++ rest, bc, err⟩ =
          exprLoop (exprParseMul (exprParsePrim n)) addOp (rest.length + 1)
            ⟨rest, bc ++ exprBytes t, err⟩

theorem parses_paren {b s b' : List UInt8} {t : Expr} (hb : Blanks b) (hb' : Blanks b')
    (hs : Parses .add s t) : Parses .prim (b ++ openParen :: (s ++ (b' ++ [closeParen]))) t := by
  intro n rest bc err hn hrest hcap
  simp only [List.length_append, List.length_cons] at hn
  obtain ⟨n, rfl⟩ := Nat.exists_eq_succ_of_ne_zero (Nat.ne_of_gt (Nat.zero_lt_of_lt hn))
  have hin := hs n (b' ++ closeParen :: rest) bc err
    (by rw [List.length_append, List.length_cons]; omega)
    (noDigit_blanks hb' (by decide) rest) hcap
  have hclosed : skipBlanks (b' ++ closeParen :: rest) = closeParen :: rest :=
    skipBlanks_token hb' rest (by decide)
  replace hin := hin (noOp_token hb' (by decide) (by decide) rest)
  rw [exprLoop_stop (noOp_token hb' (by decide) (by decide) rest)] at hin
  have hopened : skipBlanks (b ++ openParen :: (s ++ (b' ++ [closeParen])) ++ rest) =
      openParen :: (s ++ (b' ++ closeParen :: rest)) := by
    rw [List.append_assoc, List.cons_append, skipBlanks_token hb _ (by decide)]
    simp
  show exprParsePrim (n + 1) _ = _
  unfold exprParsePrim exprSkip
  dsimp only
  rw [hopened]
  dsimp only
  rw [if_pos rfl, hin, andThen_ok]
  unfold exprClose exprSkip
  dsimp only
  rw [skipBlanks_skipBlanks, hclosed]
  dsimp only
  rw [if_pos rfl]

theorem parses_neg {b s : List UInt8} {t : Expr} (hb : Blanks b) (hs : Parses .prim s t) :
    Parses .prim (b ++ minus :: s) (.unary () t) := by
  intro n rest bc err hn hrest hcap
  simp only [List.length_append, List.length_cons, exprBytes_unary, List.length_nil] at hn hcap
  obtain ⟨n, rfl⟩ := Nat.exists_eq_succ_of_ne_zero (Nat.ne_of_gt (Nat.zero_lt_of_lt hn))
  have hin := hs n rest bc err (by omega) hrest (by omega)
  have hsign : skipBlanks (b ++ minus :: s ++ rest) = minus :: (s ++ rest) := by
    rw [List.append_assoc, List.cons_append, skipBlanks_token hb _ (by decide)]
  show exprParsePrim (n + 1) _ = _
  unfold exprParsePrim exprSkip
  dsimp only
  rw [hsign]
  dsimp only
  rw [if_neg (by decide), if_pos rfl, hin, andThen_ok,
    exprEmit_of_lt _ (by rw [List.length_append]; omega), exprBytes_unary, List.append_assoc]

theorem digit_ne {c : UInt8} (hc : isDigit c = true) :
    c ≠ blank ∧ c ≠ tab ∧ c ≠ openParen ∧ c ≠ minus := by
  refine ⟨?_, ?_, ?_, ?_⟩ <;> rintro rfl <;> exact absurd hc (by decide)

theorem parses_digits {b ds : List UInt8} (hb : Blanks b) (hne : ds ≠ [])
    (hds : ∀ d ∈ ds, isDigit d = true) : Parses .prim (b ++ ds) (.leaf (digitsValue ds)) := by
  intro n rest bc err hn hrest hcap
  simp only [List.length_append, exprBytes_leaf, length_hcPackImm64] at hn hcap
  obtain ⟨n, rfl⟩ := Nat.exists_eq_succ_of_ne_zero (Nat.ne_of_gt (Nat.zero_lt_of_lt hn))
  obtain ⟨c, p, rfl⟩ := List.exists_cons_of_ne_nil hne
  have hc := hds c List.mem_cons_self
  have hother := digit_ne hc
  have hskip : skipBlanks (b ++ c :: p ++ rest) = c :: (p ++ rest) := by
    rw [List.append_assoc, List.cons_append, skipBlanks_token hb _ ⟨hother.1, hother.2.1⟩]
  have hread := @exprDigits_append (c :: p) rest hds hrest 0
  show exprParsePrim (n + 1) _ = _
  unfold exprParsePrim exprSkip
  dsimp only
  rw [hskip]
  dsimp only
  rw [if_neg hother.2.2.1, if_neg hother.2.2.2, if_pos hc, ← List.cons_append, hread]
  unfold exprImm
  dsimp only
  rw [if_neg (by omega), hcPackImm64_digits, exprBytes_leaf]

theorem parses_prim {s : List UInt8} {t : Expr} (hs : Parses .prim s t) : Parses .mul s t := by
  intro n rest bc err hn hrest hcap
  show exprChain (exprParsePrim n) mulOp _ = _
  unfold exprChain
  rw [hs n rest bc err hn hrest hcap, andThen_ok]

theorem mulOp_star : mulOp star = some .mul := by decide

theorem parses_times {s b r : List UInt8} {t u : Expr} (hb : Blanks b) (hs : Parses .mul s t)
    (hr : Parses .prim r u) : Parses .mul (s ++ (b ++ star :: r)) (.binary .mul t u) := by
  intro n rest bc err hn hrest hcap
  simp only [List.length_append, List.length_cons, exprBytes_binary, List.length_nil] at hn hcap
  have hleft := hs n (b ++ star :: (r ++ rest)) bc err
    (by simp only [List.length_append, List.length_cons]; omega)
    (noDigit_blanks hb (by decide) _) (by omega)
  have hright := hr n rest (bc ++ exprBytes t) err (by omega) hrest
    (by rw [List.length_append]; omega)
  have hskip : skipBlanks (b ++ star :: (r ++ rest)) = star :: (r ++ rest) :=
    skipBlanks_token hb _ (by decide)
  have htext : s ++ (b ++ star :: r) ++ rest = s ++ (b ++ star :: (r ++ rest)) := by
    simp
  have hround := exprLoop_round (exprParsePrim_total n)
    (e := ⟨b ++ star :: (r ++ rest), bc ++ exprBytes t, err⟩)
    (by simp only [List.length_append, List.length_cons]; omega) hskip mulOp_star hright
    (by simp only [List.length_append]; omega)
  dsimp only at hround ⊢
  rw [htext, hleft, hround, exprBytes_binary, List.append_assoc, List.append_assoc]

/-- A factor before something that is no factor. -/
theorem parses_stop {s : List UInt8} {t : Expr} (hs : Parses .mul s t) {n : ℕ}
    {rest bc : List UInt8} {err : Bool} (hn : s.length + rest.length < n) (hrest : NoDigit rest)
    (hstop : NoOp mulOp rest) (hcap : bc.length + (exprBytes t).length ≤ exprCap) :
    exprParseMul (exprParsePrim n) ⟨s ++ rest, bc, err⟩ =
      (.ok, exprSkip ⟨rest, bc ++ exprBytes t, err⟩) := by
  rw [hs n rest bc err hn hrest hcap]
  exact exprLoop_stop hstop _

theorem parses_mul {s : List UInt8} {t : Expr} (hs : Parses .mul s t) : Parses .add s t := by
  intro n rest bc err hn hrest hcap hstop
  show exprChain (exprParseMul (exprParsePrim n)) addOp _ = _
  unfold exprChain
  rw [parses_stop hs hn hrest hstop hcap, andThen_ok]
  exact exprLoop_skip (exprParseMul_total n) (by dsimp only; omega)

/-- One more term. -/
theorem parses_term {s b r : List UInt8} {t u : Expr} {c : UInt8} {o : CalcOp} (hb : Blanks b)
    (hc : addOp c = some o) (hother : c ≠ blank ∧ c ≠ tab ∧ isDigit c = false ∧ mulOp c = none)
    (hs : Parses .add s t) (hr : Parses .mul r u) :
    Parses .add (s ++ (b ++ c :: r)) (.binary o t u) := by
  intro n rest bc err hn hrest hcap hstop
  simp only [List.length_append, List.length_cons, exprBytes_binary, List.length_nil] at hn hcap
  have hblank : c ≠ blank ∧ c ≠ tab := ⟨hother.1, hother.2.1⟩
  have hskip : skipBlanks (b ++ c :: (r ++ rest)) = c :: (r ++ rest) := skipBlanks_token hb _ hblank
  have hnoMul : NoOp mulOp (b ++ c :: (r ++ rest)) := noOp_token hb hblank hother.2.2.2 _
  have hleft := hs n (b ++ c :: (r ++ rest)) bc err
    (by simp only [List.length_append, List.length_cons]; omega)
    (noDigit_blanks hb hother.2.2.1 _) (by omega) hnoMul
  have hright := @parses_stop r u hr n rest (bc ++ exprBytes t) err (by omega) hrest hstop
    (by rw [List.length_append]; omega)
  have htext : s ++ (b ++ c :: r) ++ rest = s ++ (b ++ c :: (r ++ rest)) := by
    simp
  have hround := exprLoop_round (exprParseMul_total n)
    (e := ⟨b ++ c :: (r ++ rest), bc ++ exprBytes t, err⟩)
    (by simp only [List.length_append, List.length_cons]; omega) hskip hc hright
    (by simp only [exprSkip, List.length_append]; omega)
  have hlast := @exprLoop_skip (exprParseMul (exprParsePrim n)) addOp n (exprParseMul_total n)
    ⟨rest, bc ++ exprBytes t ++ exprBytes u ++ [o.code], err⟩ (by dsimp only; omega)
  dsimp only [exprSkip] at hround hlast ⊢
  rw [htext, hleft, hround, hlast, exprBytes_binary, List.append_assoc, List.append_assoc]

/-- **The parser reads every expression.** -/
theorem derives_parses {lv : Level} {s : List UInt8} {t : Expr} (h : Derives lv s t) :
    Parses lv s t := by
  induction h with
  | paren hb _ hb' ih => exact parses_paren hb hb' ih
  | neg hb _ ih => exact parses_neg hb ih
  | digits hb hne hds => exact parses_digits hb hne hds
  | prim _ ih => exact parses_prim ih
  | times _ hb _ ihs ihr => exact parses_times hb ihs ihr
  | mul _ ih => exact parses_mul ih
  | plus _ hb _ ihs ihr => exact parses_term hb (by decide) (by decide) ihs ihr
  | minus _ hb _ ihs ihr => exact parses_term hb (by decide) (by decide) ihs ihr

/-- The parser on a whole expression whose bytes fit. -/
theorem exprParse_reads {s b : List UInt8} {t : Expr} (hb : Blanks b) (hs : Derives .add s t)
    (hfit : (exprBytes t).length ≤ exprCap) :
    exprParseAdd (exprParsePrim ((s ++ b).length + 1)) ⟨s ++ b, [], false⟩ =
      (.ok, ⟨[], exprBytes t, false⟩) := by
  have hadd := derives_parses hs ((s ++ b).length + 1) b [] false
    (by rw [List.length_append]; omega) (noDigit_of_blanks hb) (by rw [List.length_nil]; omega)
    (noOp_blanks hb)
  rw [exprLoop_stop (noOp_blanks hb)] at hadd
  rw [hadd, exprSkip, skipBlanks_all hb]
  rfl

/-- **Every expression whose bytecode fits is accepted**, with the bytecode of its tree. -/
theorem exprCompile_complete {text : List UInt8} {t : Expr} (h : Reads text t)
    (hcap : (exprBytes t).length + 2 ≤ exprCap) :
    exprCompile text =
      (some (exprBytes t ++ [hcRet, hcEnd]), exprBytes t ++ [hcRet, hcEnd]) := by
  obtain ⟨s, b, rfl, hb, hs⟩ := h
  unfold exprCompile
  rw [exprParse_reads hb hs (by omega)]
  dsimp only
  rw [if_neg (by simp [exprSkip, skipBlanks]; omega)]

end ZealBringup.Calc
