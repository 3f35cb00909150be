import Mathlib.Tactic.SplitIfs
import ZealBringup.Hc.Number
import ZealBringup.Lib.Postfix

/-!
# The expressions of the shell

The recursive-descent parser `expr_parse_*` of `kernel_stub.c`, which writes bytecode as it reads, and
the grammar that it is meant for.

`hc_ir_compile` of `hc_ir.h` on the operations that the parser of the shell writes, the instructions
that it emits, and `hc_run_bc`, which calls them.

* `Derives` — the grammar; `Expr` are its trees.
* `exprParsePrim`, `exprParseMul`, `exprParseAdd` — the parser.
* `exprBytes` — the bytecode of a tree.
* `A64`, `A64Insn.step`, `a64Run` — the processor.
* `hcIrCompile` — the instructions of some bytecode.
* `exprCompileRun` — `expr_compile_run` from the text to `*out`.
-/

namespace ZealBringup.Calc

open Hc Postfix

/-! ## The grammar -/

inductive CalcOp where
  | add
  | sub
  | mul
  deriving DecidableEq

/-- A number, a negation or an operation. -/
abbrev Expr := Term ℕ Unit CalcOp

def openParen : UInt8 := 0x28
def closeParen : UInt8 := 0x29
def star : UInt8 := 0x2a

/-- Spaces and tabs. -/
def Blanks (b : List UInt8) : Prop := ∀ c ∈ b, c = blank ∨ c = tab

/-- What digits stand for. -/
def digitsValue (ds : List UInt8) : ℕ := ds.foldl (fun v d => v * 10 + (d.toNat - 0x30)) 0

/-- The nonterminals. -/
inductive Level where
  | prim
  | mul
  | add

/-- The grammar, with blanks in front of every token; a repetition is a left recursion. -/
inductive Derives : Level → List UInt8 → Expr → Prop
  | paren {b s b' : List UInt8} {t : Expr} (hb : Blanks b) (hs : Derives .add s t) (hb' : Blanks b') :
    Derives .prim (b ++ openParen :: (s ++ (b' ++ [closeParen]))) t
  | neg {b s : List UInt8} {t : Expr} (hb : Blanks b) (hs : Derives .prim s t) :
    Derives .prim (b ++ minus :: s) (.unary () t)
  | digits {b ds : List UInt8} (hb : Blanks b) (hne : ds ≠ []) (hds : ∀ d ∈ ds, isDigit d = true) :
    Derives .prim (b ++ ds) (.leaf (digitsValue ds))
  | prim {s : List UInt8} {t : Expr} (hs : Derives .prim s t) : Derives .mul s t
  | times {s b r : List UInt8} {t u : Expr} (hs : Derives .mul s t) (hb : Blanks b)
    (hr : Derives .prim r u) : Derives .mul (s ++ (b ++ star :: r)) (.binary .mul t u)
  | mul {s : List UInt8} {t : Expr} (hs : Derives .mul s t) : Derives .add s t
  | plus {s b r : List UInt8} {t u : Expr} (hs : Derives .add s t) (hb : Blanks b)
    (hr : Derives .mul r u) : Derives .add (s ++ (b ++ plus :: r)) (.binary .add t u)
  | minus {s b r : List UInt8} {t u : Expr} (hs : Derives .add s t) (hb : Blanks b)
    (hr : Derives .mul r u) : Derives .add (s ++ (b ++ minus :: r)) (.binary .sub t u)

/-- A text that is an expression. -/
def Reads (text : List UInt8) (t : Expr) : Prop :=
  ∃ s b, text = s ++ b ∧ Blanks b ∧ Derives .add s t

/-! ## The bytecode -/

def hcEnd : UInt8 := 0
def hcImm64 : UInt8 := 1
def hcRet : UInt8 := 6
def hcNeg : UInt8 := 9

/-- `HC_ADD`, `HC_SUB`, `HC_MUL`. -/
def CalcOp.code : CalcOp → UInt8
  | .add => 2
  | .sub => 3
  | .mul => 4

/-- `hc_pack_imm64` -/
def hcPackImm64 (v : ℕ) : List UInt8 :=
  hcImm64 :: (List.range 8).map fun b => UInt8.ofNat (v / 2 ^ (8 * b))

/-- The bytes of an item. -/
def itemBytes : Item ℕ Unit CalcOp → List UInt8
  | .leaf v => hcPackImm64 v
  | .unary () => [hcNeg]
  | .binary op => [op.code]

/-- The bytes of a tree. -/
def exprBytes (t : Expr) : List UInt8 := t.code.flatMap itemBytes

/-! ## The parser -/

/-- `sizeof(bc)` -/
def exprCap : ℕ := 128

/-- `struct hc_expr`; `bc` are the bytes that have been stored, the first of them at `bc[0]`. -/
structure HcExpr where
  p : List UInt8
  bc : List UInt8
  err : Bool

/-- What a function of the parser returns: 0, -1, or nothing yet for want of fuel. -/
inductive ExprRet where
  | ok
  | fail
  | fuel
  deriving DecidableEq

/-- A call of the parser: what it returns and what it leaves. -/
abbrev ExprRun := ExprRet × HcExpr

/-- The rest of a function, if the call returned 0. -/
def ExprRun.andThen (r : ExprRun) (k : HcExpr → ExprRun) : ExprRun :=
  match r with
  | (.ok, e) => k e
  | r => r

def HcExpr.fail (e : HcExpr) : ExprRun := (.fail, { e with err := true })

def exprSkip (e : HcExpr) : HcExpr := { e with p := skipBlanks e.p }

def exprEmit (e : HcExpr) (op : UInt8) : ExprRun :=
  if e.bc.length ≥ exprCap then e.fail else (.ok, { e with bc := e.bc ++ [op] })

def exprImm (e : HcExpr) (v : ℕ) : ExprRun :=
  if e.bc.length + 9 > exprCap then e.fail else (.ok, { e with bc := e.bc ++ hcPackImm64 v })

/-- The loop over the digits. -/
def exprDigits (v : ℕ) : List UInt8 → ℕ × List UInt8
  | [] => (v, [])
  | c :: p => if isDigit c then exprDigits ((v * 10 + (c.toNat - 0x30)) % 2 ^ 64) p else (v, c :: p)

/-- The loop of `expr_parse_mul` and of `expr_parse_add`: `sub` reads an operand. -/
def exprLoop (sub : HcExpr → ExprRun) (op : UInt8 → Option CalcOp) : ℕ → HcExpr → ExprRun
  | 0, e => (.fuel, e)
  | n + 1, e =>
    let e := exprSkip e
    match e.p with
    | [] => (.ok, e)
    | c :: p =>
      match op c with
      | none => (.ok, e)
      | some o =>
        (sub { e with p := p }).andThen fun e => (exprEmit e o.code).andThen (exprLoop sub op n)

/-- An operand and the loop behind it; a round reads at least the operator. -/
def exprChain (sub : HcExpr → ExprRun) (op : UInt8 → Option CalcOp) (e : HcExpr) : ExprRun :=
  (sub e).andThen fun e => exprLoop sub op (e.p.length + 1) e

def mulOp (c : UInt8) : Option CalcOp := if c = star then some .mul else none

def addOp (c : UInt8) : Option CalcOp :=
  if c = plus then some .add else if c = minus then some .sub else none

/-- `expr_parse_mul`, over `expr_parse_prim`. -/
def exprParseMul (prim : HcExpr → ExprRun) : HcExpr → ExprRun := exprChain prim mulOp

/-- `expr_parse_add`, over `expr_parse_prim`. -/
def exprParseAdd (prim : HcExpr → ExprRun) : HcExpr → ExprRun := exprChain (exprParseMul prim) addOp

/-- The end of a parenthesis. -/
def exprClose (e : HcExpr) : ExprRun :=
  let e := exprSkip e
  match e.p with
  | [] => e.fail
  | c :: p => if c = closeParen then (.ok, { e with p := p }) else e.fail

/-- `expr_parse_prim`; the fuel is for the calls inside of it. -/
def exprParsePrim : ℕ → HcExpr → ExprRun
  | 0, e => (.fuel, e)
  | n + 1, e =>
    let e := exprSkip e
    match e.p with
    | [] => e.fail
    | c :: p =>
      if c = openParen then (exprParseAdd (exprParsePrim n) { e with p := p }).andThen exprClose
      else if c = minus then
        (exprParsePrim n { e with p := p }).andThen fun e => exprEmit e hcNeg
      else if isDigit c then
        exprImm { e with p := (exprDigits 0 (c :: p)).2 } (exprDigits 0 (c :: p)).1
      else e.fail

/-- The parser on a whole text: it returns 0 with the bytes of `expr_compile_run`, or not. -/
def exprCompile (text : List UInt8) : Option (List UInt8) × List UInt8 :=
  match exprParseAdd (exprParsePrim (text.length + 1)) ⟨text, [], false⟩ with
  | (.ok, e) =>
    if e.err = true ∨ (exprSkip e).p ≠ [] ∨ e.bc.length + 2 > exprCap then (none, e.bc)
    else (some (e.bc ++ [hcRet, hcEnd]), e.bc ++ [hcRet, hcEnd])
  | (_, e) => (none, e.bc)

/-! ## The processor -/

/-- The registers, the stack pointer and the memory in words. -/
structure A64 where
  x : ℕ → BitVec 64
  sp : BitVec 64
  mem : BitVec 64 → BitVec 64

/-- An instruction, under the name of the function that encodes it. -/
inductive A64Insn where
  | movzX (rd : ℕ) (imm16 : BitVec 16) (shift : ℕ)
  | movkX (rd : ℕ) (imm16 : BitVec 16) (shift : ℕ)
  | addXReg (rd rn rm : ℕ)
  | subXReg (rd rn rm : ℕ)
  | mulX (rd rn rm : ℕ)
  | movX (rd rn : ℕ)
  | stpPre (rt rt2 : ℕ) (imm : ℤ)
  | ldpPost (rt rt2 : ℕ) (imm : ℤ)
  | ret

/-- Register 31 reads as zero. -/
def A64.get (m : A64) (r : ℕ) : BitVec 64 := if r = 31 then 0 else m.x r

/-- A write to register 31 is lost. -/
def A64.set (m : A64) (r : ℕ) (v : BitVec 64) : A64 :=
  if r = 31 then m else { m with x := Function.update m.x r v }

/-- What an instruction does; `stp` and `ldp` are based on the stack pointer. -/
def A64Insn.step (m : A64) : A64Insn → A64
  | .movzX rd imm16 shift => m.set rd (imm16.setWidth 64 <<< shift)
  | .movkX rd imm16 shift =>
    m.set rd (m.get rd &&& ~~~((0xffff : BitVec 64) <<< shift) ||| imm16.setWidth 64 <<< shift)
  | .addXReg rd rn rm => m.set rd (m.get rn + m.get rm)
  | .subXReg rd rn rm => m.set rd (m.get rn - m.get rm)
  | .mulX rd rn rm => m.set rd (m.get rn * m.get rm)
  | .movX rd rn => m.set rd (m.get rn)
  | .stpPre rt rt2 imm =>
    let a := m.sp + BitVec.ofInt 64 imm
    { m with sp := a, mem := Function.update (Function.update m.mem a (m.get rt)) (a + 8) (m.get rt2) }
  | .ldpPost rt rt2 imm =>
    { (m.set rt (m.mem m.sp)).set rt2 (m.mem (m.sp + 8)) with sp := m.sp + BitVec.ofInt 64 imm }
  | .ret => m

/-- Instructions up to the first `ret`: where it goes, and what it leaves. -/
def a64Run : List A64Insn → A64 → Option (BitVec 64 × A64)
  | [], _ => none
  | .ret :: _, m => some (m.get 30, m)
  | insn :: code, m => a64Run code (insn.step m)

/-! ## The compiler -/

/-- `a64_neg_x` -/
def a64NegX (rd rm : ℕ) : A64Insn := .subXReg rd 31 rm

/-- `a64_emit_imm64` -/
def a64EmitImm64 (rd imm : ℕ) : List A64Insn :=
  [.movzX rd (BitVec.ofNat 16 imm) 0, .movkX rd (BitVec.ofNat 16 (imm / 2 ^ 16)) 16,
    .movkX rd (BitVec.ofNat 16 (imm / 2 ^ 32)) 32, .movkX rd (BitVec.ofNat 16 (imm / 2 ^ 48)) 48]

/-- `HC_IR_MAX_DEPTH` -/
def hcIrMaxDepth : ℕ := 16

/-- `HC_IR_ERR_*` -/
inductive HcIrErr where
  | depth
  | op
  | space
  | trunc
  deriving DecidableEq

def HcIrErr.code : HcIrErr → ℤ
  | .depth => -1
  | .op => -2
  | .space => -3
  | .trunc => -4

/-- `EMIT`, for some instructions at a time. -/
def hcIrEmit (cap : ℕ) (out insns : List A64Insn) : Except HcIrErr (List A64Insn) :=
  if out.length + insns.length > cap then .error .space else .ok (out ++ insns)

/-- The end of a function that returns register `r`, or 0. -/
def hcIrEpilogue (r : Option ℕ) : List A64Insn :=
  (match r with
    | some r => .movX 0 r
    | none => .movzX 0 0 0) ::
  [.ldpPost 30 31 16, .ldpPost 22 23 16, .ldpPost 20 21 16, .ret]

/-- The instruction of `HC_ADD`, `HC_SUB` and `HC_MUL`. -/
def hcIrBinary (op : UInt8) (ra rb : ℕ) : Option A64Insn :=
  if op = CalcOp.add.code then some (.addXReg ra ra rb)
  else if op = CalcOp.sub.code then some (.subXReg ra ra rb)
  else if op = CalcOp.mul.code then some (.mulX ra ra rb)
  else none

/-- The loop of `hc_ir_compile`; operand `k` of the stack is in register `9 + k`. The operations that
the parser does not write are left out. -/
def hcIrLoop (cap : ℕ) : List UInt8 → ℕ → List A64Insn → Except HcIrErr (List A64Insn)
  | [], _, out => .ok out
  | op :: bc, sp, out =>
    if op = hcEnd then .ok out
    else if op = hcImm64 then
      match bc with
      | b₀ :: b₁ :: b₂ :: b₃ :: b₄ :: b₅ :: b₆ :: b₇ :: bc =>
        if sp ≥ hcIrMaxDepth then .error .depth
        else
          let imm := Nat.ofDigits 256 ([b₀, b₁, b₂, b₃, b₄, b₅, b₆, b₇].map UInt8.toNat)
          match hcIrEmit cap out (a64EmitImm64 (9 + sp) imm) with
          | .error e => .error e
          | .ok out => hcIrLoop cap bc (sp + 1) out
      | _ => .error .trunc
    else if op = hcNeg then
      if sp < 1 then .error .depth
      else
        match hcIrEmit cap out [a64NegX (9 + (sp - 1)) (9 + (sp - 1))] with
        | .error e => .error e
        | .ok out => hcIrLoop cap bc sp out
    else if op = hcRet then
      match hcIrEmit cap out (hcIrEpilogue (if sp < 1 then none else some (9 + (sp - 1)))) with
      | .error e => .error e
      | .ok out => hcIrLoop cap bc 0 out
    else
      match hcIrBinary op (9 + (sp - 2)) (9 + (sp - 1)) with
      | none => .error .op
      | some insn =>
        if sp < 2 then .error .depth
        else
          match hcIrEmit cap out [insn] with
          | .error e => .error e
          | .ok out => hcIrLoop cap bc (sp - 1) out

/-- What is saved of the caller. -/
def hcIrPrologue : List A64Insn := [.stpPre 20 21 (-16), .stpPre 22 23 (-16), .stpPre 30 31 (-16)]

/-- `hc_ir_compile`. -/
def hcIrCompile (bc : List UInt8) (cap : ℕ) : Except HcIrErr (List A64Insn) :=
  match hcIrEmit cap [] hcIrPrologue with
  | .error e => .error e
  | .ok out =>
    match hcIrLoop cap bc 0 out with
    | .error e => .error e
    | .ok out => hcIrEmit cap out (hcIrEpilogue none)

/-! ## The call -/

/-- The words of `g_jit_buf`. -/
def jitWords : ℕ := 8192

/-- What a call of `expr_compile_run` comes to: an error that it returns; 0, with the registers and the
memory after it; or a call of the code that does not come back to its caller. -/
inductive CalcOutcome where
  | error (code : ℤ)
  | returned (m : A64)
  | lost

/-- `hc_run_bc`. The compiled caller keeps `out` in the register `home` while it calls the code, and
then stores what it has returned there. -/
def hcRunBc (home : ℕ) (bc : List UInt8) (m : A64) : CalcOutcome :=
  match hcIrCompile bc jitWords with
  | .error e => .error e.code
  | .ok code =>
    match a64Run code m with
    | none => .lost
    | some (target, m') =>
      if target = m.x 30 ∧ m'.sp = m.sp then
        .returned { m' with mem := Function.update m'.mem (m'.x home) (m'.x 0) }
      else .lost

/-- `expr_compile_run`; `out` is in the register `home` of the machine `m`. -/
def exprCompileRun (home : ℕ) (text : List UInt8) (m : A64) : CalcOutcome :=
  match (exprCompile text).1 with
  | none => .error (-1)
  | some bc => hcRunBc home bc m

end ZealBringup.Calc
