import ZealBringup.Calc.Insns
import ZealBringup.Front.Table

/-!
# Members of classes

The code that the front end emits for `a.m1...mk` and `p->m1...mk`, run on the stack of the
intermediate code of `hc_ir.h`.

* `irRun` — the instructions that such code is made of.
* `refChain` — where a chain of members leads in the reference.
* `membersFrom_chain` — the code behind the base adds the offsets of the chain.
* `hcfParseMember_chain` — the code with its base leaves the address of the member.
-/

namespace ZealBringup.Front

open Calc Checked

variable {t : List RefClass} {r : RefClass} {cs : List HcClass} {c : HcClass} {k : MemberKind}
  {ds : List ClassDecl} {d : ClassDecl} {f g : HcFront} {n cur : ℕ} {a : Access} {arrow : Bool}
  {v : HcVar} {name : Name} {ns : List Name}

/-! ## The intermediate code -/

/-- The memory, the address of `g_hc_mem` and the word `g_hc_fp`. -/
structure IrEnv where
  byte : BitVec 64 → UInt8
  gHcMem : BitVec 64
  gHcFp : BitVec 64

/-- `n` bytes at an address, the low one first. -/
def IrEnv.load (e : IrEnv) (n : ℕ) (addr : BitVec 64) : BitVec 64 :=
  BitVec.ofNat 64 (Nat.ofDigits 256 ((List.range n).map fun i => (e.byte (addr + BitVec.ofNat 64 i)).toNat))

/-- `&g_hc_mem[slot]` -/
def IrEnv.absAddr (e : IrEnv) (slot : UInt8) : BitVec 64 := e.gHcMem + BitVec.ofNat 64 slot.toNat * 8

/-- `&g_hc_mem[g_hc_fp + slot]` -/
def IrEnv.slotAddr (e : IrEnv) (slot : UInt8) : BitVec 64 :=
  e.gHcMem + (e.gHcFp + BitVec.ofNat 64 slot.toNat) * 8

/-- Code without branches on a stack, its top first. -/
def irRun (e : IrEnv) : List UInt8 → List (BitVec 64) → Option (List (BitVec 64))
  | [], s => some s
  | op :: code, s =>
    if op = hcImm64 then
      match code with
      | b0 :: b1 :: b2 :: b3 :: b4 :: b5 :: b6 :: b7 :: rest =>
        irRun e rest (BitVec.ofNat 64 (Nat.ofDigits 256
          ([b0, b1, b2, b3, b4, b5, b6, b7].map UInt8.toNat)) :: s)
      | _ => none
    else if op = hcAdd then
      match s with
      | y :: x :: s => irRun e code ((x + y) :: s)
      | _ => none
    else if op = hcSlotAddr ∨ op = hcAbsAddr ∨ op = hcLdSlot ∨ op = hcLdAbs then
      match code with
      | slot :: rest =>
        let addr := if op = hcSlotAddr ∨ op = hcLdSlot then e.slotAddr slot else e.absAddr slot
        irRun e rest ((if op = hcLdSlot ∨ op = hcLdAbs then e.load 8 addr else addr) :: s)
      | [] => none
    else if op = hcLoad8 ∨ op = hcLoad32 ∨ op = hcLoad then
      match s with
      | addr :: s =>
        irRun e code (e.load (if op = hcLoad8 then 1 else if op = hcLoad32 then 4 else 8) addr :: s)
      | [] => none
    else none

/-- The bytes that a load or a store moves. -/
def opWidth (op : UInt8) : ℕ :=
  if op = hcLoad8 ∨ op = hcStore8 then 1 else if op = hcLoad32 ∨ op = hcStore32 then 4 else 8

/-- The object that a chain begins at: the variable itself, or what it points to. -/
def IrEnv.base (e : IrEnv) (arrow : Bool) (v : HcVar) : BitVec 64 :=
  let slot := UInt8.ofNat v.base
  let addr := if v.isGlobal then e.absAddr slot else e.slotAddr slot
  if arrow then e.load 8 addr else addr

theorem irRun_imm (e : IrEnv) (x : ℕ) (rest : List UInt8) (s : List (BitVec 64)) :
    irRun e (hcPackImm64 x ++ rest) s = irRun e rest (BitVec.ofNat 64 x :: s) := by
  have hbytes := ofDigits_pack x
  rw [hcPackImm64]
  simp only [List.range, List.range.loop, List.map_cons, List.map_nil, List.cons_append,
    List.nil_append] at hbytes ⊢
  rw [irRun.eq_def]
  dsimp only
  rw [if_pos rfl]
  simp only [List.map_cons, List.map_nil]
  rw [hbytes]
  congr 2
  exact BitVec.eq_of_toNat_eq (by simp)

theorem irRun_add (e : IrEnv) (x y : BitVec 64) (rest : List UInt8) (s : List (BitVec 64)) :
    irRun e (hcAdd :: rest) (y :: x :: s) = irRun e rest ((x + y) :: s) := by
  rw [irRun.eq_def]
  dsimp only
  rw [if_neg (by decide), if_pos rfl]

/-- An instruction that pushes the address of a slot, or what is there. -/
theorem irRun_slot (e : IrEnv) {op : UInt8} (slot : UInt8) (rest : List UInt8)
    (s : List (BitVec 64)) (h1 : op ≠ hcImm64) (h2 : op ≠ hcAdd)
    (h3 : op = hcSlotAddr ∨ op = hcAbsAddr ∨ op = hcLdSlot ∨ op = hcLdAbs) :
    irRun e (op :: slot :: rest) s = irRun e rest ((if op = hcLdSlot ∨ op = hcLdAbs
      then e.load 8 (if op = hcSlotAddr ∨ op = hcLdSlot then e.slotAddr slot else e.absAddr slot)
      else if op = hcSlotAddr ∨ op = hcLdSlot then e.slotAddr slot else e.absAddr slot) :: s) := by
  rw [irRun.eq_def]
  dsimp only
  rw [if_neg h1, if_neg h2, if_pos h3]

theorem irRun_addr (e : IrEnv) (v : HcVar) (rest : List UInt8) (s : List (BitVec 64)) :
    irRun e ((if v.isGlobal then hcAbsAddr else hcSlotAddr) :: UInt8.ofNat v.base :: rest) s =
      irRun e rest (e.base false v :: s) := by
  unfold IrEnv.base
  cases v.isGlobal
  · exact irRun_slot e _ rest s (by decide) (by decide) (by decide)
  · exact irRun_slot e _ rest s (by decide) (by decide) (by decide)

theorem irRun_ld (e : IrEnv) (v : HcVar) (rest : List UInt8) (s : List (BitVec 64)) :
    irRun e ((if v.isGlobal then hcLdAbs else hcLdSlot) :: UInt8.ofNat v.base :: rest) s =
      irRun e rest (e.base true v :: s) := by
  unfold IrEnv.base
  cases v.isGlobal
  · exact irRun_slot e _ rest s (by decide) (by decide) (by decide)
  · exact irRun_slot e _ rest s (by decide) (by decide) (by decide)

/-! ## Chains -/

/-- A chain of names with dots between them, and the text behind it. -/
inductive ChainText : List UInt8 → Name → List Name → List UInt8 → Prop
  | last {p q : List UInt8} {name : Name} (hname : hcfIdent (hcfSkip p) = some (name, q))
    (hend : peek (hcfSkip q) ≠ UInt8.ofNat '.'.toNat) : ChainText p name [] (hcfSkip q)
  | more {p q rest : List UInt8} {name next : Name} {ns : List Name}
    (hname : hcfIdent (hcfSkip p) = some (name, q))
    (hdot : peek (hcfSkip q) = UInt8.ofNat '.'.toNat)
    (hrest : ChainText (hcfSkip q).tail next ns rest) : ChainText p name (next :: ns) rest

/-- A member of the class `ci`. -/
def refMember (t : List RefClass) (ci : ℕ) (name : Name) : Option RefMember :=
  t[ci]?.bind fun r => r.members.find? (·.name == name)

/-- Where a chain leads: the sum of its offsets, and the kind of its last member. -/
def refChain (t : List RefClass) : ℕ → Name → List Name → Option (ℕ × MemberKind)
  | ci, name, [] => (refMember t ci name).map fun m => (m.offset, m.kind)
  | ci, name, next :: ns =>
    match refMember t ci name with
    | some ⟨_, .class_ i, offset⟩ => (refChain t i next ns).map fun x => (offset + x.1, x.2)
    | _ => none

def MemberKind.isScalar : MemberKind → Bool
  | .class_ _ => false
  | _ => true

theorem type_eq_none (hk : k.Below n) (hn : n ≤ HC_MAX_CLASSES) :
    k.type = HC_TYPE_NONE ↔ k.isScalar := by
  cases k with
  | class_ i => exact iff_of_false (type_class hk hn).1 Bool.false_ne_true
  | _ => exact iff_of_true rfl rfl

theorem opWidth_scalar (hk : k.isScalar) :
    opWidth (loadOp k.align) = k.bytes t ∧ opWidth (storeOp k.align) = k.bytes t := by
  cases k with
  | class_ i => exact absurd hk Bool.false_ne_true
  | _ => exact ⟨rfl, rfl⟩

theorem irRun_load (e : IrEnv) (hk : k.isScalar) (x : BitVec 64) (s : List (BitVec 64)) :
    irRun e [loadOp k.align] (x :: s) = some (e.load (k.bytes t) x :: s) := by
  cases k with
  | class_ i => exact absurd hk Bool.false_ne_true
  | _ => rfl

/-- The table as the chains need it. -/
structure Tables (t : List RefClass) (cs : List HcClass) : Prop where
  records : List.Forall₂ Records t cs
  placed : ∀ r ∈ t, Placed t r
  count : t.length ≤ HC_MAX_CLASSES

/-- What is found in the table is what the reference says. -/
theorem Tables.member (h : Tables t cs) (hc : cs[cur]? = some c) {m : HcMember}
    (hm : hcfFindMember c name = some m) :
    ∃ m', refMember t cur name = some m' ∧ m = m'.record ∧ m'.kind.Below t.length := by
  obtain ⟨hcur, rfl⟩ := List.getElem?_eq_some_iff.mp hc
  have hcur' : cur < t.length := h.records.length_eq ▸ hcur
  have hrec := h.records.get hcur' hcur
  rw [List.get_eq_getElem, List.get_eq_getElem] at hrec
  rw [hcfFindMember, hrec.mem, List.find?_map] at hm
  obtain ⟨m', hfind, rfl⟩ := Option.map_eq_some_iff.mp hm
  refine ⟨m', ?_, rfl, ?_⟩
  · rw [refMember, List.getElem?_eq_getElem hcur']
    exact hfind
  · exact (h.placed _ (List.getElem_mem hcur')).nested m' (List.mem_of_find?_eq_some hfind)

/-! ## Emitting -/

theorem hcfEmit_bc {op : UInt8} (h : hcfEmit f op = .ok g) : g = { f with bc := f.bc ++ [op] } := by
  unfold hcfEmit at h
  split at h
  · cases h
  · cases h
    rfl

theorem hcfEmitU8_bc {op : UInt8} {x : ℕ} (h : hcfEmitU8 f op x = .ok g) :
    g = { f with bc := f.bc ++ [op, UInt8.ofNat x] } := by
  unfold hcfEmitU8 at h
  split at h
  · cases h
  · cases h
    rfl

theorem hcfImm_bc {x : ℕ} (h : hcfImm f x = .ok g) :
    g = { f with bc := f.bc ++ hcPackImm64 x } := by
  unfold hcfImm at h
  split at h
  · cases h
  · cases h
    rfl

/-- What is emitted for a chain: code that changes the top of the stack by the offset. -/
structure Chained (t : List RefClass) (f : HcFront) (cur : ℕ) (g : HcFront) (a : Access)
    (name : Name) (ns : List Name) (offset : ℕ) (k : MemberKind) (code : List UInt8) : Prop where
  text : ChainText f.p name ns g.p
  chain : refChain t cur name ns = some (offset, k)
  below : k.Below t.length
  access : a = ⟨k.align, k.type, k.isF64⟩
  emitted : g.bc = f.bc ++ code
  run : ∀ e rest x s, irRun e (code ++ rest) (x :: s) = irRun e rest ((x + BitVec.ofNat 64 offset) :: s)

/-- **The code behind the base adds the offsets of the chain.** -/
theorem membersFrom_chain (ht : Tables t f.classes)
    (h : hcfParseMembersFrom n f cur = .ok (g, a)) :
    ∃ name ns offset k code, Chained t f cur g a name ns offset k code := by
  induction n generalizing f cur with
  | zero => cases h
  | succ n ih =>
    rw [hcfParseMembersFrom] at h
    split at h
    · rename_i name p c hident hclass
      split at h
      · cases h
      · rename_i m hfind
        obtain ⟨m', hmember, rfl, hbelow⟩ := ht.member hclass hfind
        obtain ⟨f₁, himm, h⟩ := bind_ok h
        obtain ⟨f₂, hadd, h⟩ := bind_ok h
        have hf₂ := hcfEmit_bc hadd
        rw [hcfImm_bc himm] at hf₂
        subst hf₂
        have hrun : ∀ e rest x s, irRun e ((hcPackImm64 m'.offset ++ [hcAdd]) ++ rest) (x :: s) =
            irRun e rest ((x + BitVec.ofNat 64 m'.offset) :: s) := by
          intro e rest x s
          rw [List.append_assoc, irRun_imm]
          exact irRun_add e x _ rest s
        dsimp only at h
        split at h
        · rename_i hdot
          split at h
          · cases h
          · rename_i hnone
            -- The member is a class, and the chain goes on in it.
            obtain ⟨mname, kind, moffset⟩ := m'
            cases kind with
            | class_ i =>
              have hrest := fun hT => @ih _ _ hT h
              obtain ⟨next, ns, offset, k, code, htext, hchain, hk, ha, hbc, hcode⟩ := hrest ht
              refine ⟨name, next :: ns, moffset + offset, k,
                hcPackImm64 moffset ++ [hcAdd] ++ code, .more hident hdot htext, ?_, hk, ha, ?_,
                fun e rest x s => ?_⟩
              · rw [refChain, hmember]
                dsimp only
                have hchain' : refChain t i next ns = some (offset, k) := hchain
                rw [hchain']
                rfl
              · rw [hbc]
                simp only [List.append_assoc, RefMember.record]
              · rw [List.append_assoc, hrun, hcode, BitVec.add_assoc, BitVec.ofNat_add]
            | _ => exact absurd rfl hnone
        · rename_i hend
          cases h
          refine ⟨name, [], m'.offset, m'.kind, hcPackImm64 m'.offset ++ [hcAdd],
            .last hident hend, ?_, hbelow, rfl, ?_, hrun⟩
          · rw [refChain, hmember]
            rfl
          · simp only [List.append_assoc, RefMember.record]
    · cases h

/-! ## Accesses -/

/-- What is emitted for a member: code that pushes the address of what the chain leads to. -/
structure Addressed (t : List RefClass) (arrow : Bool) (f : HcFront) (v : HcVar) (g : HcFront)
    (name : Name) (ns : List Name) (offset : ℕ) (k : MemberKind) (code : List UInt8) : Prop where
  text : ChainText f.p name ns g.p
  chain : refChain t v.type name ns = some (offset, k)
  emitted : g.bc = f.bc ++ code
  run : ∀ e rest s, irRun e (code ++ rest) s =
    irRun e rest ((e.base arrow v + BitVec.ofNat 64 offset) :: s)

/-- **The code of a chain with its base.** -/
theorem hcfParseMember_chain (ht : Tables t f.classes)
    (h : hcfParseMember arrow f v = .ok (g, a)) : ∃ name ns offset k code,
      Addressed t arrow f v g name ns offset k code ∧ k.Below t.length ∧
        a = ⟨k.align, k.type, k.isF64⟩ := by
  have hboth : ∃ op f₁, hcfEmitU8 f op v.base = .ok f₁ ∧
      (∀ e rest s, irRun e (op :: UInt8.ofNat v.base :: rest) s = irRun e rest (e.base arrow v :: s)) ∧
      hcfParseMembersFrom (f₁.p.length + 1) f₁ v.type = .ok (g, a) := by
    unfold hcfParseMember at h
    cases arrow with
    | true =>
      rw [if_pos rfl, hcfParseArrowAddr] at h
      split at h
      · cases h
      · obtain ⟨f₁, hbase, h⟩ := bind_ok h
        exact ⟨_, f₁, hbase, fun e rest s => irRun_ld e v rest s, h⟩
    | false =>
      rw [if_neg Bool.false_ne_true, hcfParseDotAddr] at h
      split at h
      · cases h
      · obtain ⟨f₁, hbase, h⟩ := bind_ok h
        exact ⟨_, f₁, hbase, fun e rest s => irRun_addr e v rest s, h⟩
  obtain ⟨op, f₁, hbase, hrun, hchain⟩ := hboth
  rw [hcfEmitU8_bc hbase] at hchain
  have hrest := fun hT => @membersFrom_chain t _ g _ _ a hT hchain
  obtain ⟨name, ns, offset, k, code, hch⟩ := hrest ht
  refine ⟨name, ns, offset, k, op :: UInt8.ofNat v.base :: code, ⟨hch.text, hch.chain, ?_,
    fun e rest s => ?_⟩, hch.below, hch.access⟩
  · rw [hch.emitted]
    simp only [List.append_assoc, List.cons_append, List.nil_append]
  · rw [List.cons_append, List.cons_append, hrun, hch.run]

end ZealBringup.Front
