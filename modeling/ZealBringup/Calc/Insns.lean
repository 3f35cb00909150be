import ZealBringup.Calc.Parser
import ZealBringup.Calc.Reading

/-!
# The instructions of an expression

* `insns` — the instructions of a tree; `hcIrLoop_insns` — they are what is emitted for its bytes.
* `exec_insns` — what they do to the registers is what the postfix code of the tree does to slots.
-/

namespace ZealBringup.Calc

open Postfix

/-! ## The instructions of a tree -/

/-- The operators on words. -/
def wordOps : Ops ℕ Unit CalcOp (BitVec 64) where
  leaf v := BitVec.ofNat 64 v
  unary _ a := -a
  binary op a b :=
    match op with
    | .add => a + b
    | .sub => a - b
    | .mul => a * b

/-- The instruction of an operator. -/
def CalcOp.insn (op : CalcOp) (ra rb : ℕ) : A64Insn :=
  match op with
  | .add => .addXReg ra ra rb
  | .sub => .subXReg ra ra rb
  | .mul => .mulX ra ra rb

/-- The instructions of a tree whose value goes to operand `sp`. -/
def insns (sp : ℕ) : Expr → List A64Insn
  | .leaf v => a64EmitImm64 (9 + sp) (v % 2 ^ 64)
  | .unary () t => insns sp t ++ [a64NegX (9 + sp) (9 + sp)]
  | .binary op t u => insns sp t ++ (insns (sp + 1) u ++ [op.insn (9 + sp) (9 + (sp + 1))])

/-- Instructions are at most as many as bytes. -/
theorem length_insns_le (sp : ℕ) (t : Expr) : (insns sp t).length ≤ (exprBytes t).length := by
  induction t generalizing sp with
  | leaf v => simp [insns, a64EmitImm64]
  | unary u t ih =>
    cases u
    have h := ih sp
    simp [insns]
    omega
  | binary op t u iht ihu =>
    have h₁ := iht sp
    have h₂ := ihu (sp + 1)
    simp [insns]
    omega

/-- A tree of ten bytes an operand. -/
theorem depth_le_bytes (t : Expr) : 10 * t.depth ≤ (exprBytes t).length + 1 := by
  induction t with
  | leaf v => simp [Term.depth]
  | unary u t ih =>
    cases u
    simp [Term.depth]
    omega
  | binary op t u iht ihu =>
    have hpos := t.depth_pos
    simp [Term.depth]
    omega

theorem hcIrEmit_of_le {cap : ℕ} {out code : List A64Insn} (h : out.length + code.length ≤ cap) :
    hcIrEmit cap out code = .ok (out ++ code) := if_neg (Nat.not_lt_of_le h)

/-- The bytes of a number are read back. -/
theorem ofDigits_pack (v : ℕ) :
    Nat.ofDigits 256 ((List.range 8).map fun b => (UInt8.ofNat (v / 2 ^ (8 * b))).toNat) =
      v % 2 ^ 64 := by
  simp only [List.range, List.range.loop, List.map_cons, List.map_nil, Nat.ofDigits_cons,
    Nat.ofDigits_nil, UInt8.toNat_ofNat']
  omega

theorem hcIrBinary_code (op : CalcOp) (ra rb : ℕ) :
    hcIrBinary op.code ra rb = some (op.insn ra rb) := by
  cases op <;> rfl

theorem opCode_ne (op : CalcOp) : op.code ≠ hcEnd ∧ op.code ≠ hcImm64 ∧ op.code ≠ hcNeg ∧
    op.code ≠ hcRet := by
  cases op <;> decide

/-- **What is emitted for the bytes of a tree** are its instructions, if its operands and the
instructions fit. -/
theorem hcIrLoop_insns (cap : ℕ) (t : Expr) (rest : List UInt8) (sp : ℕ) (out : List A64Insn)
    (hdepth : sp + t.depth ≤ hcIrMaxDepth) (hcap : out.length + (insns sp t).length ≤ cap) :
    hcIrLoop cap (exprBytes t ++ rest) sp out = hcIrLoop cap rest (sp + 1) (out ++ insns sp t) := by
  induction t generalizing rest sp out with
  | leaf v =>
    rw [Term.depth] at hdepth
    have hemit := @hcIrEmit_of_le cap out (a64EmitImm64 (9 + sp) (v % 2 ^ 64)) hcap
    have hread := ofDigits_pack v
    rw [exprBytes_leaf]
    unfold hcPackImm64
    simp only [List.range, List.range.loop, List.map_cons, List.map_nil] at hread ⊢
    simp only [List.cons_append, List.nil_append]
    rw [hcIrLoop.eq_def]
    dsimp only
    rw [if_neg (by decide), if_pos rfl, if_neg (by omega)]
    simp only [List.map_cons, List.map_nil]
    rw [hread, hemit]
    rfl
  | unary u t ih =>
    cases u
    have hlength : (insns sp (.unary () t)).length = (insns sp t).length + 1 := by
      simp [insns]
    rw [hlength] at hcap
    rw [exprBytes_unary, List.append_assoc, ih _ _ _ hdepth (by omega), List.singleton_append,
      hcIrLoop.eq_def]
    dsimp only
    rw [if_neg (by decide), if_neg (by decide), if_pos rfl, if_neg (by omega),
      Nat.add_sub_cancel, hcIrEmit_of_le (by simp; omega)]
    dsimp only
    rw [List.append_assoc]
    rfl
  | binary op t u iht ihu =>
    have hlength : (insns sp (.binary op t u)).length =
        (insns sp t).length + ((insns (sp + 1) u).length + 1) := by
      simp [insns]
    rw [hlength] at hcap
    rw [Term.depth] at hdepth
    obtain ⟨h₁, h₂, h₃, h₄⟩ := opCode_ne op
    rw [exprBytes_binary, List.append_assoc, List.append_assoc, iht _ _ _ (by omega) (by omega),
      ihu _ _ _ (by omega) (by rw [List.length_append]; omega), List.singleton_append,
      hcIrLoop.eq_def]
    dsimp only
    rw [if_neg h₁, if_neg h₂, if_neg h₃, if_neg h₄]
    have hra : 9 + (sp + 1 + 1 - 2) = 9 + sp := by omega
    have hrb : 9 + (sp + 1 + 1 - 1) = 9 + (sp + 1) := by omega
    rw [hra, hrb, hcIrBinary_code]
    dsimp only
    rw [if_neg (by omega), hcIrEmit_of_le (by simp; omega)]
    dsimp only
    rw [List.append_assoc, List.append_assoc]
    rfl

/-! ## What the instructions do -/

/-- Some instructions in a row. -/
def exec (m : A64) (code : List A64Insn) : A64 := code.foldl A64Insn.step m

theorem exec_append (m : A64) (xs ys : List A64Insn) :
    exec m (xs ++ ys) = exec (exec m xs) ys := List.foldl_append

/-- The registers of the operands hold these. -/
def A64.withSlots (m : A64) (s : ℕ → BitVec 64) : A64 :=
  { m with x := fun r => if 9 ≤ r then s (r - 9) else m.x r }

theorem withSlots_self (m : A64) : m.withSlots (fun k => m.x (9 + k)) = m := by
  have hx : (m.withSlots fun k => m.x (9 + k)).x = m.x := by
    funext r
    show (if 9 ≤ r then m.x (9 + (r - 9)) else m.x r) = m.x r
    split
    · rw [Nat.add_sub_cancel' ‹_›]
    · rfl
  cases m
  exact congrArg (fun x => A64.mk x _ _) hx

theorem withSlots_get (m : A64) (s : ℕ → BitVec 64) {k : ℕ} (hk : k < 22) :
    (m.withSlots s).get (9 + k) = s k := by
  have hne : ¬9 + k = 31 := by omega
  have hle : 9 ≤ 9 + k := by omega
  simp [A64.get, A64.withSlots, hne, hle]

theorem withSlots_set (m : A64) (s : ℕ → BitVec 64) {k : ℕ} (hk : k < 22) (v : BitVec 64) :
    (m.withSlots s).set (9 + k) v = m.withSlots (Function.update s k v) := by
  have hne : ¬9 + k = 31 := by omega
  unfold A64.set A64.withSlots
  rw [if_neg hne]
  congr 1
  funext r
  rw [Function.update_apply, Function.update_apply]
  by_cases hr : r = 9 + k
  · have hsub : r - 9 = k := by omega
    rw [if_pos hr, if_pos (by omega), if_pos hsub]
  · rw [if_neg hr]
    dsimp only
    by_cases hle : 9 ≤ r
    · rw [if_pos hle, if_pos hle, if_neg (by omega)]
    · rw [if_neg hle, if_neg hle]

/-- A chunk of 16 bits in its place. -/
theorem getLsbD_chunk (n s i : ℕ) (hi : i < 64) :
    ((BitVec.ofNat 16 (n / 2 ^ s)).setWidth 64 <<< s).getLsbD i =
      (decide (s ≤ i ∧ i < s + 16) && n.testBit i) := by
  rw [BitVec.getLsbD_shiftLeft, BitVec.getLsbD_setWidth, BitVec.getLsbD_ofNat,
    Nat.testBit_div_two_pow]
  by_cases hs : s ≤ i
  · have hlt : i - s < 64 := by omega
    have h16 : i - s < 16 ↔ i < s + 16 := by omega
    rw [Nat.sub_add_cancel hs]
    simp [hi, hs, hlt, h16]
  · have hlt : i < s := by omega
    simp [hs, hlt]

/-- The bits that are not in a chunk. -/
theorem getLsbD_mask (s i : ℕ) (hi : i < 64) :
    (~~~((0xffff : BitVec 64) <<< s)).getLsbD i = !decide (s ≤ i ∧ i < s + 16) := by
  have hones : (0xffff : BitVec 64) = BitVec.ofNat 64 (2 ^ 16 - 1) := rfl
  rw [BitVec.getLsbD_not, BitVec.getLsbD_shiftLeft, hones, BitVec.getLsbD_ofNat,
    Nat.testBit_two_pow_sub_one]
  by_cases hs : s ≤ i
  · have hlt : i - s < 64 := by omega
    have h16 : i - s < 16 ↔ i < s + 16 := by omega
    simp [hi, hs, hlt, h16]
  · have hlt : i < s := by omega
    simp [hi, hs, hlt]

/-- **`movz` and three `movk`** put the number together. -/
theorem imm64_chunks (n : ℕ) :
    (((BitVec.ofNat 16 (n / 2 ^ 0)).setWidth 64 <<< 0 &&& ~~~((0xffff : BitVec 64) <<< 16) |||
      (BitVec.ofNat 16 (n / 2 ^ 16)).setWidth 64 <<< 16) &&& ~~~((0xffff : BitVec 64) <<< 32) |||
      (BitVec.ofNat 16 (n / 2 ^ 32)).setWidth 64 <<< 32) &&& ~~~((0xffff : BitVec 64) <<< 48) |||
      (BitVec.ofNat 16 (n / 2 ^ 48)).setWidth 64 <<< 48 = BitVec.ofNat 64 n := by
  apply BitVec.eq_of_getLsbD_eq
  intro i hi
  simp only [BitVec.getLsbD_or, BitVec.getLsbD_and, getLsbD_mask _ i hi, getLsbD_chunk _ _ i hi,
    BitVec.getLsbD_ofNat, hi]
  cases n.testBit i with
  | false => simp
  | true =>
    simp
    omega

/-- What `a64_emit_imm64` emits. -/
theorem exec_imm64 (m : A64) (s : ℕ → BitVec 64) {k : ℕ} (hk : k < 22) (v : ℕ) :
    exec (m.withSlots s) (a64EmitImm64 (9 + k) (v % 2 ^ 64)) =
      m.withSlots (Function.update s k (BitVec.ofNat 64 v)) := by
  have hword : BitVec.ofNat 64 (v % 2 ^ 64) = BitVec.ofNat 64 v := by
    apply BitVec.eq_of_toNat_eq
    rw [BitVec.toNat_ofNat, BitVec.toNat_ofNat, Nat.mod_mod]
  have hchunks := imm64_chunks (v % 2 ^ 64)
  rw [hword, pow_zero, Nat.div_one] at hchunks
  unfold a64EmitImm64 exec
  simp only [List.foldl_cons, List.foldl_nil, A64Insn.step, withSlots_set _ _ hk,
    withSlots_get _ _ hk, Function.update_self, Function.update_idem]
  rw [hchunks]

/-- **What the instructions of a tree do** to the registers of the operands. -/
theorem exec_insns (m : A64) (t : Expr) (s : ℕ → BitVec 64) {sp : ℕ} (hdepth : sp + t.depth ≤ 22) :
    exec (m.withSlots s) (insns sp t) = m.withSlots (run wordOps ⟨s, sp⟩ t.code).slot := by
  induction t generalizing s sp with
  | leaf v =>
    rw [Term.depth] at hdepth
    exact exec_imm64 m s (by omega) v
  | unary u t ih =>
    cases u
    have hpos := t.depth_pos
    have hsp : sp < 22 := by
      rw [Term.depth] at hdepth
      omega
    have hran := @run_code _ _ _ _ wordOps t ⟨s, sp⟩
    rw [insns, exec_append, ih s hdepth, Term.code, run_append]
    generalize run wordOps ⟨s, sp⟩ t.code = s₁ at hran
    have hfirst : s₁.height - 1 = sp := by
      rw [hran.height]
      rfl
    show (m.withSlots s₁.slot).set (9 + sp) (0#64 - (m.withSlots s₁.slot).get (9 + sp)) =
      m.withSlots (Function.update s₁.slot (s₁.height - 1) (-s₁.slot (s₁.height - 1)))
    rw [hfirst, withSlots_get _ _ hsp, withSlots_set _ _ hsp, BitVec.zero_sub]
  | binary op t u iht ihu =>
    rw [Term.depth] at hdepth
    have hpos := u.depth_pos
    have hsp : sp < 22 := by omega
    have hsp₁ : sp + 1 < 22 := by omega
    have hran₁ := @run_code _ _ _ _ wordOps t ⟨s, sp⟩
    rw [insns, exec_append, exec_append, iht s (by omega), Term.code, run_append, run_append]
    generalize run wordOps ⟨s, sp⟩ t.code = s₁ at hran₁
    obtain ⟨s₁, h₁⟩ := s₁
    obtain rfl : h₁ = sp + 1 := hran₁.height
    have hran₂ := @run_code _ _ _ _ wordOps u ⟨s₁, sp + 1⟩
    rw [ihu s₁ (by omega)]
    generalize run wordOps ⟨s₁, sp + 1⟩ u.code = s₂ at hran₂
    obtain ⟨s₂, h₂⟩ := s₂
    obtain rfl : h₂ = sp + 1 + 1 := hran₂.height
    cases op
    all_goals
      show (m.withSlots s₂).set (9 + sp) _ = m.withSlots (Function.update s₂ sp _)
      rw [withSlots_set _ _ hsp, withSlots_get _ _ hsp, withSlots_get _ _ hsp₁]
      rfl

end ZealBringup.Calc
