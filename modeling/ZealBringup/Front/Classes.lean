import ZealBringup.Calc.Parser
import ZealBringup.Front.Text

/-!
# Classes in the front end

The class and union declarations of `hcf_parse_stmt`, and the chains of members of
`hcf_parse_members_from`.  An `int` is a word of 32 bits; where the sizes of classes overflow it, the
model wraps around.

* `hcfAddMember` — one member is laid out.
* `hcfParseClass` — one declaration.
* `hcfParseDotAddr`, `hcfParseArrowAddr` — the address of a member.
* `hcfPrimMember`, `hcfStmtMember` — how it is read and written.
-/

namespace ZealBringup.Front

def HC_MAX_CLASSES : ℕ := 8
def HC_MAX_MEMBERS : ℕ := 16
def HC_IR_MAX_NAMES : ℕ := 24
def HC_IR_MAX_GLOBS : ℕ := 64
def HC_IR_MEM_WORDS : ℕ := 256
def HC_TYPE_NONE : ℕ := 0xff

/-- `struct hc_member` -/
structure HcMember where
  name : Name
  off : ℕ
  stride : ℕ
  type : ℕ
  isF64 : Bool
  deriving DecidableEq

/-- `struct hc_class` -/
structure HcClass where
  name : Name
  mem : List HcMember
  size : BitVec 32
  deriving DecidableEq

/-- What the tables say of a name. -/
structure HcVar where
  name : Name
  base : ℕ
  count : ℕ
  stride : ℕ
  type : ℕ
  isPtr : Bool
  isGlobal : Bool
  isF64 : Bool
  deriving DecidableEq

/-- `struct hc_front`, as far as classes and their variables need it. -/
structure HcFront where
  p : List UInt8
  bc : List UInt8
  cap : ℕ
  vars : List HcVar
  globUsed : ℤ
  classes : List HcClass
  deriving DecidableEq

/-! ## Declarations -/

/-- The type of a member: `class_ i` is the class `i`. -/
inductive MemberKind where
  | u8
  | u32
  | i64
  | f64
  | class_ (i : ℕ)
  deriving DecidableEq

/-- `mstride` -/
def MemberKind.stride (classes : List HcClass) : MemberKind → BitVec 32
  | .u8 => 1
  | .u32 => 4
  | .i64 => 8
  | .f64 => 8
  | .class_ i => (classes[i]?.map HcClass.size).getD 0

/-- `mtype` -/
def MemberKind.type : MemberKind → ℕ
  | .class_ i => i
  | _ => HC_TYPE_NONE

/-- `m_f64` -/
def MemberKind.isF64 : MemberKind → Bool
  | .f64 => true
  | _ => false

/-- `hcf_find_class` -/
def hcfFindClass (names : List Name) (name : Name) : Option ℕ := names.findIdx? (· == name)

/-- `hcf_find_member` -/
def hcfFindMember (c : HcClass) (name : Name) : Option HcMember := c.mem.find? (·.name == name)

/-- `hcf_align_up` -/
def hcfAlignUp (v a : BitVec 32) : BitVec 32 := (v + a - 1) &&& ~~~(a - 1)

/-- What is done with a member of the class `c`, its kind and its name. -/
def hcfAddMember (classes : List HcClass) (isUnion : Bool) (c : HcClass) (m : MemberKind × Name) :
    Except Halt HcClass :=
  if HC_MAX_MEMBERS ≤ c.mem.length then .error .err
  else if 15 ≤ m.2.length ∨ (hcfFindMember c m.2).isSome then .error .err
  else
    let mstride := m.1.stride classes
    let align := if m.1.type ≠ HC_TYPE_NONE then 8 else mstride
    let off := if isUnion then 0 else hcfAlignUp c.size align
    .ok { c with
      mem := c.mem ++ [{
        name := m.2
        off := off.toNat % 2 ^ 16
        stride := (if m.1.type ≠ HC_TYPE_NONE then 8 else mstride).toNat % 2 ^ 8
        type := m.1.type % 2 ^ 8
        isF64 := if m.1.type ≠ HC_TYPE_NONE then false else m.1.isF64 }]
      size := if isUnion then (if c.size.slt mstride then mstride else c.size) else off + mstride }

/-- The type that a list of members begins with. -/
def hcfMemberType (names : List Name) (p : List UInt8) : Except Halt (MemberKind × List UInt8) :=
  match hcfKw ['U', '8'] p <|> hcfKw ['u', '8'] p with
  | some p => .ok (.u8, p)
  | none =>
  match hcfKw ['U', '3', '2'] p <|> hcfKw ['u', '3', '2'] p with
  | some p => .ok (.u32, p)
  | none =>
  match hcfKw ['F', '6', '4'] p <|> hcfKw ['f', '6', '4'] p with
  | some p => .ok (.f64, p)
  | none =>
  match hcfKw ['I', '6', '4'] p <|> hcfKw ['i', '6', '4'] p <|> hcfKw ['B', 'o', 'o', 'l'] p <|>
    hcfKw ['b', 'o', 'o', 'l'] p with
  | some p => .ok (.i64, p)
  | none =>
  match hcfKw ['C', 'C', 'o', 'l', 'o', 'r', 'R', 'O', 'P', 'U', '1', '6'] p with
  | some p => .ok (.i64, p)
  | none =>
  match hcfIdent (hcfSkip p) with
  | some (name, p) =>
    match hcfFindClass names name with
    | some i => .ok (.class_ i, p)
    | none => .error .err
  | none => .error .err

section Body

variable {σ : Type}

/-- The names behind a type, up to the semicolon; `add` is what is done with one. -/
def hcfMemberNames (add : σ → Name → Except Halt σ) :
    ℕ → List UInt8 → σ → Except Halt (List UInt8 × σ)
  | 0, _, _ => .error .fuel
  | n + 1, p, s =>
    match hcfIdent p with
    | none => .error .err
    | some (name, p) => do
      let s ← add s name
      let p := hcfSkip p
      if peek p = UInt8.ofNat ','.toNat then hcfMemberNames add n (hcfSkip p.tail) s
      else
        let p ← hcfExpect ';' p
        .ok (p, s)

/-- The members of a class up to the closing brace. -/
def hcfClassBody (names : List Name) (add : σ → MemberKind × Name → Except Halt σ) :
    ℕ → List UInt8 → σ → Except Halt (List UInt8 × σ)
  | 0, _, _ => .error .fuel
  | n + 1, p, s =>
    let p := hcfSkip p
    if peek p = UInt8.ofNat '}'.toNat then .ok (p.tail, s)
    else do
      let (kind, p) ← hcfMemberType names p
      let (p, s) ← hcfMemberNames (fun s name => add s (kind, name)) (p.length + 1) (hcfSkip p) s
      hcfClassBody names add n p s

end Body

/-- `union` or `class`. -/
def classWord (p : List UInt8) : Option (Bool × List UInt8) :=
  match hcfKw ['u', 'n', 'i', 'o', 'n'] p with
  | some p => some (true, p)
  | none => (hcfKw ['c', 'l', 'a', 's', 's'] p).map fun p => (false, p)

/-- A declaration up to its opening brace. -/
def hcfClassHead (names : List Name) (p : List UInt8) :
    Except Halt (Bool × Name × List UInt8) :=
  match classWord p with
  | none => .error .err
  | some (isUnion, p) =>
    if HC_MAX_CLASSES ≤ names.length then .error .err
    else
      match hcfIdent (hcfSkip p) with
      | none => .error .err
      | some (name, p) =>
        if 15 ≤ name.length ∨ (hcfFindClass names name).isSome then .error .err
        else do
          let p ← hcfExpect '{' p
          .ok (isUnion, name, p)

/-- The size of a class when its body ends. -/
def HcClass.close (c : HcClass) : HcClass :=
  let size := hcfAlignUp c.size 8
  { c with size := if size.slt 8 then 8 else size }

/-- `hcf_lookup` -/
def hcfLookup (f : HcFront) (name : Name) : Option ℕ := f.vars.findIdx? (·.name == name)

/-- `hcf_decl_global_n` -/
def hcfDeclGlobalN (f : HcFront) (name : Name) (nelem stride : ℤ) : Except Halt (ℕ × HcFront) :=
  match hcfLookup f name with
  | some id => .ok (id, f)
  | none =>
    let words :=
      if stride = 1 then (nelem + 7).tdiv 8
      else if stride = 4 then (nelem * 4 + 7).tdiv 8
      else if 8 < stride then (stride + 7).tdiv 8 * nelem
      else nelem
    if nelem < 1 ∨ stride < 1 ∨ HC_IR_MAX_NAMES ≤ f.vars.length ∨ 15 ≤ name.length ∨
        HC_IR_MAX_GLOBS < f.globUsed + words ∨ HC_IR_MEM_WORDS < f.globUsed + words then .error .err
    else .ok (f.vars.length, { f with
      vars := f.vars ++ [{
        name
        base := f.globUsed.toNat % 2 ^ 8
        count := nelem.toNat % 2 ^ 8
        stride := stride.toNat % 2 ^ 8
        type := HC_TYPE_NONE
        isPtr := false
        isGlobal := true
        isF64 := false }]
      globUsed := f.globUsed + words })

/-- The file-scope instances behind a class. -/
def hcfInstances (ci : ℕ) (words : ℤ) : ℕ → HcFront → Except Halt HcFront
  | 0, _ => .error .fuel
  | n + 1, f =>
    match hcfIdent f.p with
    | none => .error .err
    | some (name, p) => do
      let (gid, f) ← hcfDeclGlobalN f name words 8
      let p := hcfSkip p
      let f := { f with
        vars := f.vars.modify gid fun v => { v with type := ci % 2 ^ 8, isPtr := false } }
      if peek p = UInt8.ofNat ','.toNat then hcfInstances ci words n { f with p := hcfSkip p.tail }
      else
        let p ← hcfExpect ';' p
        .ok { f with p }

/-- The words of an instance. -/
def HcClass.words (c : HcClass) : ℤ :=
  let words := (c.size + 7).toInt.tdiv 8
  if words < 1 then 1 else words

/-- The statement that begins with `class` or `union`. -/
def hcfParseClass (f : HcFront) : Except Halt HcFront := do
  let names := f.classes.map HcClass.name
  let (isUnion, name, p) ← hcfClassHead names f.p
  let (p, c) ← hcfClassBody names (hcfAddMember f.classes isUnion) (p.length + 1) p ⟨name, [], 0⟩
  let p := hcfSkip p
  let f := { f with classes := f.classes ++ [c.close], p }
  if hcfIdentStart (peek p) then
    hcfInstances (f.classes.length - 1) c.close.words (p.length + 1) f
  else if peek p = UInt8.ofNat ';'.toNat then .ok { f with p := p.tail }
  else .ok f

/-! ## Members -/

def hcAdd : UInt8 := 2
def hcSlotAddr : UInt8 := 18
def hcLoad : UInt8 := 19
def hcStore : UInt8 := 20
def hcLdSlot : UInt8 := 32
def hcLoad8 : UInt8 := 35
def hcStore8 : UInt8 := 36
def hcLoad32 : UInt8 := 43
def hcStore32 : UInt8 := 44
def hcEnter : UInt8 := 45
def hcLdAbs : UInt8 := 48
def hcAbsAddr : UInt8 := 50

def hcfEmit (f : HcFront) (op : UInt8) : Except Halt HcFront :=
  if f.cap ≤ f.bc.length then .error .err else .ok { f with bc := f.bc ++ [op] }

def hcfEmitU8 (f : HcFront) (op : UInt8) (a : ℕ) : Except Halt HcFront :=
  if f.cap < f.bc.length + 2 then .error .err else .ok { f with bc := f.bc ++ [op, UInt8.ofNat a] }

def hcfImm (f : HcFront) (v : ℕ) : Except Halt HcFront :=
  if f.cap < f.bc.length + 9 then .error .err else .ok { f with bc := f.bc ++ Calc.hcPackImm64 v }

def hcfEmitVarAddr (f : HcFront) (v : HcVar) : Except Halt HcFront :=
  hcfEmitU8 f (if v.isGlobal then hcAbsAddr else hcSlotAddr) v.base

def hcfEmitVarLd (f : HcFront) (v : HcVar) : Except Halt HcFront :=
  hcfEmitU8 f (if v.isGlobal then hcLdAbs else hcLdSlot) v.base

/-- `*out_stride`, `*out_type` and `*out_is_f64`. -/
structure Access where
  stride : ℕ
  type : ℕ
  isF64 : Bool
  deriving DecidableEq

def hcfParseMembersFrom : ℕ → HcFront → ℕ → Except Halt (HcFront × Access)
  | 0, _, _ => .error .fuel
  | n + 1, f, cur =>
    match hcfIdent (hcfSkip f.p), f.classes[cur]? with
    | some (name, p), some c =>
      match hcfFindMember c name with
      | none => .error .err
      | some m => do
        let f ← hcfImm { f with p } m.off
        let f ← hcfEmit f hcAdd
        let p := hcfSkip p
        if peek p = UInt8.ofNat '.'.toNat then
          if m.type = HC_TYPE_NONE then .error .err
          else hcfParseMembersFrom n { f with p := p.tail } m.type
        else .ok ({ f with p }, ⟨m.stride, m.type, m.isF64⟩)
    | _, _ => .error .err

/-- `hcf_parse_dot_addr`, behind the dot. -/
def hcfParseDotAddr (f : HcFront) (v : HcVar) : Except Halt (HcFront × Access) :=
  if v.isPtr ∨ v.type = HC_TYPE_NONE ∨ f.classes.length % 2 ^ 8 ≤ v.type then .error .err
  else do
    let f ← hcfEmitVarAddr f v
    hcfParseMembersFrom (f.p.length + 1) f v.type

/-- `hcf_parse_arrow_addr`, behind the arrow. -/
def hcfParseArrowAddr (f : HcFront) (v : HcVar) : Except Halt (HcFront × Access) :=
  if !v.isPtr ∨ v.type = HC_TYPE_NONE ∨ f.classes.length % 2 ^ 8 ≤ v.type then .error .err
  else do
    let f ← hcfEmitVarLd f v
    hcfParseMembersFrom (f.p.length + 1) f v.type

def hcfParseMember (arrow : Bool) (f : HcFront) (v : HcVar) : Except Halt (HcFront × Access) :=
  if arrow then hcfParseArrowAddr f v else hcfParseDotAddr f v

/-- `st == 1 ? HC_LOAD8 : (st == 4 ? HC_LOAD32 : HC_LOAD)` -/
def loadOp (st : ℕ) : UInt8 := if st = 1 then hcLoad8 else if st = 4 then hcLoad32 else hcLoad

def storeOp (st : ℕ) : UInt8 := if st = 1 then hcStore8 else if st = 4 then hcStore32 else hcStore

/-- A chain of members in `hcf_parse_prim`: the member is loaded, or a nested object leaves its
address. -/
def hcfPrimMember (arrow : Bool) (f : HcFront) (v : HcVar) : Except Halt HcFront := do
  let (f, a) ← hcfParseMember arrow f v
  if a.type ≠ HC_TYPE_NONE then .ok f else hcfEmit f (loadOp a.stride)

/-- A chain of members on the left of an assignment: `ld` and `sop`. -/
def hcfStmtMember (arrow : Bool) (f : HcFront) (v : HcVar) :
    Except Halt (HcFront × UInt8 × UInt8) := do
  let (f, a) ← hcfParseMember arrow f v
  if a.type ≠ HC_TYPE_NONE then .error .err else .ok (f, loadOp a.stride, storeOp a.stride)

/-! ## The beginning -/

/-- The built-in classes. -/
def builtinClasses : List HcClass :=
  [⟨chars ['C', 'D', 'C'],
    [⟨chars ['c', 'o', 'l', 'o', 'r'], 0, 8, HC_TYPE_NONE, false⟩,
      ⟨chars ['d', 'e', 'p', 't', 'h', '_', 'b', 'u', 'f'], 8, 8, HC_TYPE_NONE, false⟩], 16⟩,
    ⟨chars ['C', 'M', 'e', 'n', 'u', 'E', 'n', 't', 'r', 'y'],
      [⟨chars ['c', 'h', 'e', 'c', 'k', 'e', 'd'], 0, 8, HC_TYPE_NONE, false⟩], 8⟩]

/-- The front end as `hc_front_compile_ex` sets it up. -/
def hcFrontStart (text : List UInt8) (cap : ℕ) : HcFront where
  p := text
  bc := [hcEnter, 0]
  cap
  vars := []
  globUsed := 0
  classes := builtinClasses

end ZealBringup.Front
