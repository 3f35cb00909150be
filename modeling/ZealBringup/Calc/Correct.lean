import ZealBringup.Calc.Insns
import ZealBringup.Calc.Refusal

/-!
# What the shell calculates

* `CalcExact` — every caller of `expr_compile_run` gets what a text stands for.
* `calc_right_iff` — it does exactly when no accepted expression needs more than ten operands at a time.
* `deep_expression` — one that needs eleven loses `out`.
-/

namespace ZealBringup.Calc

open Postfix

/-! ## What it is for -/

/-- The operators on integers. -/
def intOps : Ops ℕ Unit CalcOp ℤ where
  leaf v := v
  unary _ a := -a
  binary op a b :=
    match op with
    | .add => a + b
    | .sub => a - b
    | .mul => a * b

/-- What the caller should get of a text: `out` is in the register `home`. -/
structure CalcRight (home : ℕ) (text : List UInt8) (m : A64) : Prop where
  fits : (exprCompile text).2.length ≤ exprCap
  accepts : (∃ m', exprCompileRun home text m = .returned m') ↔
    ∃ t, Reads text t ∧ (exprBytes t).length + 2 ≤ exprCap ∧ t.depth ≤ hcIrMaxDepth
  value : ∀ m' t, exprCompileRun home text m = .returned m' → Reads text t →
    m'.mem (m.x home) = BitVec.ofInt 64 (t.value intOps)

/-- The registers that a function keeps for its caller and that may hold a pointer. -/
def CalleeSaved (home : ℕ) : Prop := 19 ≤ home ∧ home ≤ 28

/-- Every caller gets what it should, wherever it keeps `out`. -/
def CalcExact (text : List UInt8) : Prop := ∀ home m, CalleeSaved home → CalcRight home text m

/-! ## The call -/

theorem wordOps_hom : intOps.Hom wordOps (BitVec.ofInt 64) where
  leaf v := BitVec.ofInt_natCast 64 v
  unary _ a := BitVec.ofInt_neg
  binary op a b := by
    cases op with
    | add => exact BitVec.ofInt_add a b
    | sub =>
      show BitVec.ofInt 64 (a - b) = BitVec.ofInt 64 a - BitVec.ofInt 64 b
      rw [Int.sub_eq_add_neg, BitVec.ofInt_add, BitVec.ofInt_neg, BitVec.sub_eq_add_neg]
    | mul => exact BitVec.ofInt_mul a b

/-- Nothing before the end of the code returns. -/
theorem a64Run_append {xs : List A64Insn} (hxs : A64Insn.ret ∉ xs) (ys : List A64Insn) (m : A64) :
    a64Run (xs ++ ys) m = a64Run ys (exec m xs) := by
  induction xs generalizing m with
  | nil => rfl
  | cons i xs ih =>
    have hrest := ih (fun h => hxs (List.mem_cons_of_mem i h)) (i.step m)
    cases i with
    | ret => exact absurd List.mem_cons_self hxs
    | _ => exact hrest

theorem ret_notMem_insns (t : Expr) (sp : ℕ) : A64Insn.ret ∉ insns sp t := by
  induction t generalizing sp with
  | leaf v => simp [insns, a64EmitImm64]
  | unary u t ih =>
    cases u
    simp [insns, a64NegX, ih]
  | binary op t u iht ihu => cases op <;> simp [insns, CalcOp.insn, iht, ihu]

/-- What a function of the code leaves when it returns, with these in the registers of the operands. -/
structure Called (m m' : A64) (s : ℕ → BitVec 64) : Prop where
  sp : m'.sp = m.sp
  link : m'.x 30 = m.x 30
  result : m'.x 0 = s 0
  saved : ∀ r, 20 ≤ r → r ≤ 23 → m'.x r = m.x r
  other : ∀ r, 9 ≤ r → r < 30 → ¬(20 ≤ r ∧ r ≤ 23) → m'.x r = s (r - 9)
  above : m'.mem m.sp = m.mem m.sp

theorem step_stpPre (m : A64) (rt rt2 : ℕ) (imm : ℤ) :
    A64Insn.step m (.stpPre rt rt2 imm) =
      ⟨m.x, m.sp + BitVec.ofInt 64 imm,
        Function.update (Function.update m.mem (m.sp + BitVec.ofInt 64 imm) (m.get rt))
          (m.sp + BitVec.ofInt 64 imm + 8) (m.get rt2)⟩ := by
  rw [A64Insn.step]

theorem step_ldpPost (x : ℕ → BitVec 64) (sp : BitVec 64) (mem : BitVec 64 → BitVec 64) {rt rt2 : ℕ}
    (hrt : rt ≠ 31) (hrt2 : rt2 ≠ 31) (imm : ℤ) :
    A64Insn.step ⟨x, sp, mem⟩ (.ldpPost rt rt2 imm) =
      ⟨Function.update (Function.update x rt (mem sp)) rt2 (mem (sp + 8)),
        sp + BitVec.ofInt 64 imm, mem⟩ := by
  rw [A64Insn.step]
  unfold A64.set
  rw [if_neg hrt, if_neg hrt2]

theorem step_ldpPost_zero (x : ℕ → BitVec 64) (sp : BitVec 64) (mem : BitVec 64 → BitVec 64) {rt : ℕ}
    (hrt : rt ≠ 31) (imm : ℤ) :
    A64Insn.step ⟨x, sp, mem⟩ (.ldpPost rt 31 imm) =
      ⟨Function.update x rt (mem sp), sp + BitVec.ofInt 64 imm, mem⟩ := by
  rw [A64Insn.step]
  unfold A64.set
  rw [if_neg hrt, if_pos rfl]

/-- The memory after the prologue. -/
def savedMem (m : A64) : BitVec 64 → BitVec 64 := (exec m hcIrPrologue).mem

variable {m : A64} {c : BitVec 64}

/-- What the prologue has saved is in cells of their own. -/
theorem savedMem_cells (hc : m.sp = c + 48#64) :
    savedMem m c = m.x 30 ∧ savedMem m (c + 16#64) = m.x 22 ∧ savedMem m (c + 24#64) = m.x 23 ∧
      savedMem m (c + 32#64) = m.x 20 ∧ savedMem m (c + 40#64) = m.x 21 ∧
      savedMem m m.sp = m.mem m.sp := by
  have hne : ∀ d e : BitVec 64, c + d = c + e ↔ d = e := fun d e => BitVec.add_right_inj c
  have hzero : ∀ d : BitVec 64, c = c + d ↔ 0#64 = d := by
    intro d
    have h := hne 0#64 d
    rwa [BitVec.add_zero] at h
  unfold savedMem exec hcIrPrologue
  simp [A64Insn.step, A64.get, hc, BitVec.add_assoc, hne, hzero]

theorem add_twice (c : BitVec 64) {a b d : BitVec 64} (h : a + b = d) : c + a + b = c + d := by
  rw [BitVec.add_assoc, h]

theorem exec_prologue (hc : m.sp = c + 48#64) :
    exec m hcIrPrologue = ⟨m.x, c, savedMem m⟩ := by
  have hdown : BitVec.ofInt 64 (-16) = -16#64 := by decide
  have hsp : m.sp + -16#64 + -16#64 + -16#64 = c := by
    have h32 : c + 48#64 + -16#64 = c + 32#64 := add_twice c (by decide)
    have h16 : c + 32#64 + -16#64 = c + 16#64 := add_twice c (by decide)
    have h0 : c + 16#64 + -16#64 = c + 0#64 := add_twice c (by decide)
    rw [hc, h32, h16, h0, BitVec.add_zero]
  have hmem : (exec m hcIrPrologue).mem = savedMem m := by
    rw [savedMem]
  rw [← hmem, ← hsp]
  unfold exec hcIrPrologue
  rw [List.foldl_cons, List.foldl_cons, List.foldl_cons, List.foldl_nil, step_stpPre, step_stpPre,
    step_stpPre, hdown]

/-- The epilogue up to its `ret`, after a prologue. -/
def hcIrRestore (r : ℕ) : List A64Insn :=
  [.movX 0 r, .ldpPost 30 31 16, .ldpPost 22 23 16, .ldpPost 20 21 16]

theorem exec_restore (hc : m.sp = c + 48#64) (y : ℕ → BitVec 64) :
    exec ⟨y, c, savedMem m⟩ (hcIrRestore 9) =
      ⟨Function.update (Function.update (Function.update (Function.update (Function.update
        (Function.update y 0 (y 9)) 30 (m.x 30)) 22 (m.x 22)) 23 (m.x 23)) 20 (m.x 20)) 21 (m.x 21),
        m.sp, savedMem m⟩ := by
  obtain ⟨h30, h22, h23, h20, h21, -⟩ := savedMem_cells hc
  have hup : BitVec.ofInt 64 16 = 16#64 := by decide
  have h32 : c + 16#64 + 16#64 = c + 32#64 := add_twice c (by decide)
  have h48 : c + 32#64 + 16#64 = m.sp := (add_twice c (by decide)).trans hc.symm
  have h24 : c + 16#64 + 8 = c + 24#64 := add_twice c (by decide)
  have h40 : c + 32#64 + 8 = c + 40#64 := add_twice c (by decide)
  have hmov : A64Insn.step ⟨y, c, savedMem m⟩ (.movX 0 9) =
      ⟨Function.update y 0 (y 9), c, savedMem m⟩ := rfl
  unfold exec hcIrRestore
  rw [List.foldl_cons, List.foldl_cons, List.foldl_cons, List.foldl_cons, List.foldl_nil, hmov,
    step_ldpPost_zero _ _ _ (by decide), step_ldpPost _ _ _ (by decide) (by decide),
    step_ldpPost _ _ _ (by decide) (by decide), hup, h32, h48, h24, h30, h22, h23]
  dsimp only
  rw [h40, h20, h21]

/-- **The code of a tree** returns its first operand, and keeps what it has saved. -/
theorem a64Run_code (t : Expr) (m : A64) (rest : List A64Insn) (hdepth : t.depth ≤ hcIrMaxDepth) :
    ∃ m', a64Run (hcIrPrologue ++ (insns 0 t ++ (hcIrEpilogue (some 9) ++ rest))) m =
        some (m.x 30, m') ∧
      Called m m' (run wordOps ⟨fun k => m.x (9 + k), 0⟩ t.code).slot := by
  have hsp : m.sp = m.sp - 48#64 + 48#64 := (BitVec.sub_add_cancel ..).symm
  have hslots := @exec_insns ⟨m.x, m.sp - 48#64, savedMem m⟩ t (fun k => m.x (9 + k)) 0
    (by unfold hcIrMaxDepth at hdepth; omega)
  rw [withSlots_self] at hslots
  generalize (run wordOps ⟨fun k => m.x (9 + k), 0⟩ t.code).slot = s at hslots ⊢
  have hepilogue : hcIrEpilogue (some 9) ++ rest = hcIrRestore 9 ++ .ret :: rest := rfl
  have hprologue : A64Insn.ret ∉ hcIrPrologue := by simp [hcIrPrologue]
  have hrestore : A64Insn.ret ∉ hcIrRestore 9 := by simp [hcIrRestore]
  rw [a64Run_append hprologue, exec_prologue hsp, a64Run_append (ret_notMem_insns t 0), hslots,
    hepilogue, a64Run_append hrestore]
  unfold A64.withSlots
  dsimp only
  rw [exec_restore hsp]
  refine ⟨_, rfl, rfl, ?_, ?_, ?_, ?_, (savedMem_cells hsp).2.2.2.2.2⟩
  · simp
  · simp
  · intro r hle hlt
    obtain rfl | rfl | rfl | rfl : r = 20 ∨ r = 21 ∨ r = 22 ∨ r = 23 := by omega
    all_goals simp
  · intro r hle hlt hother
    dsimp only
    rw [Function.update_of_ne (by omega), Function.update_of_ne (by omega),
      Function.update_of_ne (by omega), Function.update_of_ne (by omega),
      Function.update_of_ne (by omega), Function.update_of_ne (by omega), if_pos hle]

/-- The machine after `*out` is stored. -/
def A64.store (m : A64) (home : ℕ) : A64 :=
  { m with mem := Function.update m.mem (m.x home) (m.x 0) }

variable {text : List UInt8} {t : Expr}

/-- **An expression whose bytecode fits** is compiled and called, and its call comes back. -/
theorem exprCompileRun_reads (h : Reads text t) (hcap : (exprBytes t).length + 2 ≤ exprCap)
    (home : ℕ) (m : A64) :
    ∃ m', exprCompileRun home text m = .returned (m'.store home) ∧
      Called m m' (run wordOps ⟨fun k => m.x (9 + k), 0⟩ t.code).slot := by
  have hbytes := depth_le_bytes t
  have hdepth : t.depth ≤ hcIrMaxDepth := by
    unfold exprCap at hcap
    unfold hcIrMaxDepth
    omega
  have hinsns := length_insns_le 0 t
  have hroom : 3 + (insns 0 t).length + 10 ≤ jitWords := by
    unfold exprCap at hcap
    unfold jitWords
    omega
  obtain ⟨m', hrun, hcalled⟩ := a64Run_code t m (hcIrEpilogue none) hdepth
  refine ⟨m', ?_, hcalled⟩
  have hstart : hcIrEmit jitWords [] hcIrPrologue = .ok hcIrPrologue := rfl
  have hloop := hcIrLoop_insns jitWords t [hcRet, hcEnd] 0 hcIrPrologue (by omega)
    (show 3 + _ ≤ _ by omega)
  have hlength : (hcIrPrologue ++ insns 0 t).length = 3 + (insns 0 t).length := List.length_append
  have hret : hcIrLoop jitWords [hcRet, hcEnd] 1 (hcIrPrologue ++ insns 0 t) =
      .ok (hcIrPrologue ++ insns 0 t ++ hcIrEpilogue (some 9)) := by
    rw [hcIrLoop.eq_def]
    dsimp only
    rw [if_neg (by decide), if_neg (by decide), if_neg (by decide), if_pos rfl, if_neg (by decide),
      hcIrEmit_of_le (by rw [hlength]; show _ + 5 ≤ _; omega)]
    rfl
  have hcompile : hcIrCompile (exprBytes t ++ [hcRet, hcEnd]) jitWords =
      .ok (hcIrPrologue ++ (insns 0 t ++ (hcIrEpilogue (some 9) ++ hcIrEpilogue none))) := by
    unfold hcIrCompile
    rw [hstart]
    dsimp only
    rw [hloop, Nat.zero_add, hret]
    dsimp only
    rw [hcIrEmit_of_le (by rw [List.length_append, hlength]; show _ + 5 + 5 ≤ _; omega),
      List.append_assoc, List.append_assoc]
  unfold exprCompileRun hcRunBc
  rw [exprCompile_complete h hcap]
  dsimp only
  rw [hcompile]
  dsimp only
  rw [hrun]
  dsimp only
  rw [if_pos ⟨rfl, hcalled.sp⟩]
  rfl

variable {home : ℕ} {m' : A64}

/-- What is returned is returned for an expression. -/
theorem reads_of_returned (h : exprCompileRun home text m = .returned m') :
    ∃ t, Reads text t ∧ (exprBytes t).length + 2 ≤ exprCap := by
  unfold exprCompileRun at h
  generalize hc : exprCompile text = r at h
  obtain ⟨code, bc⟩ := r
  cases code with
  | none => cases h
  | some code =>
    obtain ⟨t, ht, rfl, hcap⟩ := exprCompile_sound hc
    rw [List.length_append] at hcap
    exact ⟨t, ht, hcap⟩

/-! ## The value -/

/-- The depth of an expression is that of its bytecode. -/
theorem accepted_iff (text : List UInt8) (home : ℕ) (m : A64) :
    (∃ m', exprCompileRun home text m = .returned m') ↔
      ∃ t, Reads text t ∧ (exprBytes t).length + 2 ≤ exprCap ∧ t.depth ≤ hcIrMaxDepth := by
  constructor
  · rintro ⟨m', h⟩
    obtain ⟨t, ht, hcap⟩ := reads_of_returned h
    have hbytes := depth_le_bytes t
    refine ⟨t, ht, hcap, ?_⟩
    unfold exprCap at hcap
    unfold hcIrMaxDepth
    omega
  · rintro ⟨t, ht, hcap, -⟩
    obtain ⟨m', h, -⟩ := exprCompileRun_reads ht hcap home m
    exact ⟨_, h⟩

/-- Every tree of a text that is accepted fits. -/
theorem fits_of_returned (h : exprCompileRun home text m = .returned m') (ht : Reads text t) :
    (exprBytes t).length + 2 ≤ exprCap := by
  by_contra hlong
  have hnone := exprCompile_refuses ht (Nat.lt_of_not_le hlong)
  unfold exprCompileRun at h
  rw [hnone] at h
  cases h

/-- Up to ten operands leave every register that may hold `out`. -/
theorem home_kept (hhome : CalleeSaved home) (hdepth : t.depth ≤ 10)
    (h : Called m m' (run wordOps ⟨fun k => m.x (9 + k), 0⟩ t.code).slot) :
    m'.x home = m.x home := by
  obtain ⟨hlow, hhigh⟩ := hhome
  by_cases hsaved : 20 ≤ home ∧ home ≤ 23
  · exact h.saved home hsaved.1 hsaved.2
  · have habove := (@run_code _ _ _ _ wordOps t ⟨fun k => m.x (9 + k), 0⟩).above (home - 9)
      (by dsimp only; omega)
    rw [h.other home (by omega) (by omega) hsaved, habove]
    dsimp only
    rw [Nat.add_sub_cancel' (by omega)]

theorem result_value (h : Called m m' (run wordOps ⟨fun k => m.x (9 + k), 0⟩ t.code).slot) :
    m'.x 0 = BitVec.ofInt 64 (t.value intOps) := by
  have hvalue := (@run_code _ _ _ _ wordOps t ⟨fun k => m.x (9 + k), 0⟩).value
  rw [h.result, hvalue]
  exact (wordOps_hom.value t).symm

/-- **The value of an expression of up to ten operands at a time.** -/
theorem calcExact_of_depth
    (hdepth : ∀ t, Reads text t → (exprBytes t).length + 2 ≤ exprCap → t.depth ≤ 10) :
    CalcExact text := by
  intro home m hhome
  refine ⟨exprCompile_fits text, accepted_iff text home m, ?_⟩
  intro m' t h ht
  have hcap := fits_of_returned h ht
  obtain ⟨m₁, h₁, hcalled⟩ := exprCompileRun_reads ht hcap home m
  rw [h] at h₁
  cases h₁
  show Function.update m₁.mem (m₁.x home) (m₁.x 0) (m.x home) = _
  rw [home_kept hhome (hdepth t ht hcap) hcalled, Function.update_self]
  exact result_value hcalled

/-- **An eleventh operand** is in the register `x19`, where `out` may be. -/
theorem not_calcExact_of_deep (ht : Reads text t) (hcap : (exprBytes t).length + 2 ≤ exprCap)
    (hdeep : 10 < t.depth) : ¬CalcExact text := by
  intro hexact
  -- What is left in the register of the eleventh operand does not depend on what was there.
  let c := (run wordOps ⟨fun _ => 0, 0⟩ t.code).slot 10
  let v := BitVec.ofInt 64 (t.value intOps)
  have hone : ∀ a : BitVec 64, a + 1#64 ≠ a := by
    intro a ha
    rw [← BitVec.add_zero a, BitVec.add_assoc] at ha
    exact absurd ((BitVec.add_right_inj a).mp ha) (by decide)
  let m : A64 := ⟨fun _ => c + 1#64, c + 1#64, fun _ => v + 1#64⟩
  obtain ⟨m', h, hcalled⟩ := exprCompileRun_reads ht hcap 19 m
  have hlost : m'.x 19 = c := by
    rw [hcalled.other 19 (by omega) (by omega) (by omega)]
    exact @run_code_agree _ _ _ _ wordOps t ⟨fun k => m.x (9 + k), 0⟩ ⟨fun _ => 0, 0⟩ rfl 10
      (Nat.zero_le _) (by show 10 < 0 + t.depth; omega)
  have hvalue := (hexact 19 m ⟨le_rfl, by omega⟩).value _ t h ht
  have hother : (m'.store 19).mem (c + 1#64) = m'.mem (c + 1#64) := by
    unfold A64.store
    dsimp only
    rw [hlost]
    exact Function.update_of_ne (hone c) _ _
  have hold : m'.mem (c + 1#64) = v + 1#64 := hcalled.above
  exact hone v (hold.symm.trans (hother.symm.trans hvalue))

/-- **The calculator is right** for every caller exactly when no expression that it accepts needs more
than ten operands at a time. -/
theorem calc_right_iff (text : List UInt8) :
    CalcExact text ↔ ∀ t, Reads text t → (exprBytes t).length + 2 ≤ exprCap → t.depth ≤ 10 := by
  constructor
  · intro hexact t ht hcap
    by_contra hdeep
    exact not_calcExact_of_deep ht hcap (Nat.lt_of_not_le hdeep) hexact
  · exact calcExact_of_depth

/-- `1+(1+(…))` -/
def nested : ℕ → List UInt8
  | 0 => [0x31]
  | n + 1 => [0x31] ++ ([] ++ Hc.plus :: ([] ++ openParen :: (nested n ++ ([] ++ [closeParen]))))

def nestedTree : ℕ → Expr
  | 0 => .leaf 1
  | n + 1 => .binary .add (.leaf 1) (nestedTree n)

theorem derives_nested (n : ℕ) : Derives .add (nested n) (nestedTree n) := by
  have hdigit : ∀ d ∈ ([0x31] : List UInt8), Hc.isDigit d = true := by
    intro d hd
    rw [List.mem_singleton.mp hd]
    decide
  have hone : Derives .prim [0x31] (.leaf 1) := .digits blanks_nil (by simp) hdigit
  induction n with
  | zero => exact .mul (.prim hone)
  | succ n ih => exact .plus (.mul (.prim hone)) blanks_nil (.prim (.paren blanks_nil ih blanks_nil))

theorem reads_nested (n : ℕ) : Reads (nested n) (nestedTree n) :=
  ⟨nested n, [], (List.append_nil _).symm, blanks_nil, derives_nested n⟩

theorem size_nested (n : ℕ) : (exprBytes (nestedTree n)).length = 10 * n + 9 ∧
    (nestedTree n).depth = n + 1 := by
  induction n with
  | zero => exact ⟨rfl, rfl⟩
  | succ n ih =>
    obtain ⟨hbytes, hdepth⟩ := ih
    refine ⟨?_, ?_⟩
    · rw [nestedTree, exprBytes_binary]
      simp [hbytes]
      omega
    · rw [nestedTree, Term.depth, hdepth, Term.depth]
      omega

/-- **An expression that loses `out`.** -/
theorem deep_expression : ¬CalcExact (nested 10) := by
  obtain ⟨hbytes, hdepth⟩ := size_nested 10
  refine not_calcExact_of_deep (reads_nested 10) ?_ ?_
  · rw [hbytes]
    decide
  · rw [hdepth]
    decide

end ZealBringup.Calc
