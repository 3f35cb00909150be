import Mathlib.Algebra.Group.Nat.Defs
import Mathlib.Logic.Function.Basic
import Mathlib.Data.Int.Notation
import Mathlib.Data.Nat.Notation

/-!
# The device-tree parser

`pi4_pcie_fdt.h`, with every access made explicit: a read outside the readable bytes, an index
outside the node stack, a dereferenced null pointer and a loop without end are faults, which are not
among the values the parser returns.

* `Pi4FdtNode` — what the parser keeps of a node while it is open; pointers are offsets.
* `pi4FdtDecodePcieNode` — the decoding of one node, with `pi4FdtTranslateReg` and
  `pi4FdtPciWindow`.
* `pi4FdtFindPcie` — the token loop.
-/

namespace ZealBringup.Fdt

/-- What must not happen. -/
inductive Fault where
  /-- A read of a byte that is not readable. -/
  | read (offset : ℕ)
  /-- A read through a null pointer. -/
  | null
  /-- An access to a stack entry that does not exist. -/
  | stack (index : ℕ)
  /-- `pi4_fdt_translate_reg` with less than two nodes on the stack. -/
  | depth
  /-- More rounds of a loop than there are bytes. -/
  | endless
deriving DecidableEq, Repr

abbrev Run := Except Fault

/-- The readable bytes of the blob. -/
abbrev Blob := ℕ → Option UInt8

/-- `uint32_t` arithmetic. -/
def u32 (n : ℕ) : ℕ := n % 2 ^ 32

/-- `UINT64_MAX`. -/
def uint64Max : ℕ := 2 ^ 64 - 1

def readByte (fdt : Blob) (p : ℕ) : Run UInt8 :=
  match fdt p with
  | some b => .ok b
  | none => .error (.read p)

/-- `pi4_fdt_be32`. -/
def pi4FdtBe32 (fdt : Blob) (p : ℕ) : Run ℕ := do
  let b0 ← readByte fdt p
  let b1 ← readByte fdt (p + 1)
  let b2 ← readByte fdt (p + 2)
  let b3 ← readByte fdt (p + 3)
  return b0.toNat * 2 ^ 24 + b1.toNat * 2 ^ 16 + b2.toNat * 2 ^ 8 + b3.toNat

/-- `pi4_fdt_span`. -/
def pi4FdtSpan (off len total : ℕ) : Bool := decide (off ≤ total ∧ len ≤ total - off)

/-- The loop of `pi4_fdt_cells`. -/
def pi4FdtCellsLoop (fdt : Blob) : ℕ → ℕ → ℕ → Run ℕ
  | 0, _, value => return value
  | n + 1, p, value => do
      let word ← pi4FdtBe32 fdt p
      pi4FdtCellsLoop fdt n (p + 4) (value * 2 ^ 32 % 2 ^ 64 + word)

/-- `pi4_fdt_cells`; `none` where it returns 0. -/
def pi4FdtCells (fdt : Blob) (p n : ℕ) : Run (Option ℕ) :=
  if n = 0 ∨ n > 2 then return none
  else do
    let value ← pi4FdtCellsLoop fdt n p 0
    return some value

/-! ## Strings -/

/-- The comparison of `pi4_fdt_string_eq` and `pi4_fdt_property_name`: the string from index `i` on,
in a buffer of `limit` bytes at `base`, is `want`. -/
def cStringEq (fdt : Blob) (base limit : ℕ) : ℕ → List UInt8 → Run Bool
  | i, [] =>
      if i < limit then do
        let b ← readByte fdt (base + i)
        return decide (b = 0)
      else return false
  | i, w :: want =>
      if i < limit then do
        let b ← readByte fdt (base + i)
        if b ≠ 0 ∧ b = w then cStringEq fdt base limit (i + 1) want else return false
      else return false

/-- `pi4_fdt_string_eq`. -/
def pi4FdtStringEq (fdt : Blob) (p : Option ℕ) (n : ℕ) (want : List UInt8) : Run Bool :=
  match p with
  | none => return false
  | some p => cStringEq fdt p n 0 want

/-- `pi4_fdt_property_name`. -/
def pi4FdtPropertyName (fdt : Blob) (strings stringsSize nameoff : ℕ) (want : List UInt8) : Run Bool :=
  if nameoff ≥ stringsSize then return false else cStringEq fdt strings stringsSize nameoff want

/-- `while (end < n && p[end]) end++`, with so many bytes to go. -/
def scanEnd (fdt : Blob) (p : ℕ) : ℕ → ℕ → Run ℕ
  | stop, 0 => return stop
  | stop, left + 1 => do
      let b ← readByte fdt (p + stop)
      if b ≠ 0 then scanEnd fdt p (stop + 1) left else return stop

/-- The loop of `pi4_fdt_string_list_has`. -/
def stringListLoop (fdt : Blob) (p n : ℕ) (want : List UInt8) : ℕ → ℕ → Run Bool
  | 0, _ => throw .endless
  | rounds + 1, start =>
      if start < n then do
        let stop ← scanEnd fdt p start (n - start)
        if stop = n then return false
        else
          let same ← cStringEq fdt (p + start) (stop - start + 1) 0 want
          if same then return true else stringListLoop fdt p n want rounds (stop + 1)
      else return false

/-- `pi4_fdt_string_list_has`. -/
def pi4FdtStringListHas (fdt : Blob) (p : Option ℕ) (n : ℕ) (want : List UInt8) : Run Bool :=
  match p with
  | none => return false
  | some p => stringListLoop fdt p n want (n + 1) 0

/-- `"brcm,bcm2711-pcie"`. -/
def brcmPcie : List UInt8 :=
  [98, 114, 99, 109, 44, 98, 99, 109, 50, 55, 49, 49, 45, 112, 99, 105, 101]

/-- `"okay"`. -/
def okay : List UInt8 := [111, 107, 97, 121]

/-- `"ok"`. -/
def ok : List UInt8 := [111, 107]

/-- `"#address-cells"`. -/
def nameAddressCells : List UInt8 := [35, 97, 100, 100, 114, 101, 115, 115, 45, 99, 101, 108, 108, 115]

/-- `"#size-cells"`. -/
def nameSizeCells : List UInt8 := [35, 115, 105, 122, 101, 45, 99, 101, 108, 108, 115]

/-- `"reg"`. -/
def nameReg : List UInt8 := [114, 101, 103]

/-- `"ranges"`. -/
def nameRanges : List UInt8 := [114, 97, 110, 103, 101, 115]

/-- `"dma-ranges"`. -/
def nameDmaRanges : List UInt8 := [100, 109, 97, 45, 114, 97, 110, 103, 101, 115]

/-- `"compatible"`. -/
def nameCompatible : List UInt8 := [99, 111, 109, 112, 97, 116, 105, 98, 108, 101]

/-- `"status"`. -/
def nameStatus : List UInt8 := [115, 116, 97, 116, 117, 115]

/-! ## Nodes -/

/-- `struct pi4_fdt_node`. -/
structure Pi4FdtNode where
  addressCells : ℕ
  sizeCells : ℕ
  reg : Option ℕ := none
  regSize : ℕ := 0
  ranges : Option ℕ := none
  rangesSize : ℕ := 0
  dmaRanges : Option ℕ := none
  dmaRangesSize : ℕ := 0
  compatible : Option ℕ := none
  compatibleSize : ℕ := 0
  status : Option ℕ := none
  statusSize : ℕ := 0
  haveRanges : Bool := false
  haveDmaRanges : Bool := false
  haveStatus : Bool := false

/-- A node that was just begun. -/
def freshNode : Pi4FdtNode := { addressCells := 2, sizeCells := 1 }

/-- `PI4_FDT_MAX_DEPTH`. -/
def pi4FdtMaxDepth : ℕ := 16

/-- `struct pi4_fdt_node stack[PI4_FDT_MAX_DEPTH]`. -/
abbrev Stack := ℕ → Pi4FdtNode

def Stack.get (stack : Stack) (i : ℕ) : Run Pi4FdtNode :=
  if i < pi4FdtMaxDepth then return stack i else throw (.stack i)

def Stack.set (stack : Stack) (i : ℕ) (node : Pi4FdtNode) : Run Stack :=
  if i < pi4FdtMaxDepth then return Function.update stack i node else throw (.stack i)

/-- `depth > 1 ? &stack[depth - 2] : NULL`. -/
def Stack.parent (stack : Stack) (depth : ℕ) : Run (Option Pi4FdtNode) :=
  if depth > 1 then do
    let parent ← stack.get (depth - 2)
    return some parent
  else return none

/-- `struct zeal_pi4_pcie`. -/
structure ZealPi4Pcie where
  flags : ℕ
  fdtStatus : ℕ
  regBase : ℕ
  regSize : ℕ
  memBusBase : ℕ
  memCpuBase : ℕ
  memSize : ℕ
  dmaBusBase : ℕ
  dmaCpuBase : ℕ
  dmaSize : ℕ
deriving DecidableEq, Repr

/-- `PI4_PCIE_FDT_PRESENT` and its fellows. -/
def pi4PcieFdtPresent : ℕ := 1
def pi4PcieFdtEnabled : ℕ := 2
def pi4PcieFdtReg : ℕ := 4
def pi4PcieFdtMem : ℕ := 8
def pi4PcieFdtDma : ℕ := 16

/-- The loop of `pi4_fdt_translate_reg` over the tuples of one `ranges`; `none` where the function
returns 0. The size is a multiple of the stride, so the loop makes `size / stride` rounds. -/
def translateTuples (fdt : Blob) (childCells parentCells sizeCells address : ℕ) :
    ℕ → ℕ → Run (Option ℕ)
  | 0, _ => return none
  | rounds + 1, tuple => do
      let some childBase ← pi4FdtCells fdt tuple childCells | return none
      let some parentBase ← pi4FdtCells fdt (tuple + childCells * 4) parentCells | return none
      let some size ← pi4FdtCells fdt (tuple + (childCells + parentCells) * 4) sizeCells
        | return none
      if size = 0 ∨ childBase > uint64Max - size then return none
      else if address ≥ childBase ∧ address - childBase < size then
        let delta := address - childBase
        if parentBase > uint64Max - delta then return none else return some (parentBase + delta)
      else
        translateTuples fdt childCells parentCells sizeCells address rounds
          (tuple + (childCells + parentCells + sizeCells) * 4)

/-- The loop of `pi4_fdt_translate_reg`, from stack entry `i` down to 1. -/
def translateBuses (fdt : Blob) (stack : Stack) : ℕ → ℕ → Run (Option ℕ)
  | 0, address => return some address
  | i + 1, address => do
      let bus ← stack.get (i + 1)
      let parent ← stack.get i
      let childCells := bus.addressCells
      let parentCells := parent.addressCells
      let sizeCells := bus.sizeCells
      if bus.haveRanges = false then return none
      else if bus.rangesSize = 0 then translateBuses fdt stack i address
      else if childCells = 0 ∨ childCells > 2 ∨ parentCells = 0 ∨ parentCells > 2 ∨ sizeCells = 0 ∨
          sizeCells > 2 then return none
      else
        let stride := (childCells + parentCells + sizeCells) * 4
        if bus.rangesSize % stride ≠ 0 then return none
        else
          let some tuples := bus.ranges | throw .null
          let some address ← translateTuples fdt childCells parentCells sizeCells address
            (bus.rangesSize / stride) tuples | return none
          translateBuses fdt stack i address

/-- `pi4_fdt_translate_reg`; `none` where it returns 0. -/
def pi4FdtTranslateReg (fdt : Blob) (stack : Stack) (depth address : ℕ) : Run (Option ℕ) :=
  if depth < 2 then throw .depth else translateBuses fdt stack (depth - 2) address

/-- A window of `ranges` or `dma-ranges`. -/
structure Window where
  busBase : ℕ
  cpuBase : ℕ
  size : ℕ
deriving DecidableEq, Repr

/-- The loop of `pi4_fdt_pci_window`. -/
def windowTuples (fdt : Blob) (parentCells : ℕ) : ℕ → ℕ → Run (Option Window)
  | 0, _ => return none
  | rounds + 1, tuple => do
      let hi ← pi4FdtBe32 fdt tuple
      if hi / 2 ^ 24 % 4 ≠ 2 then windowTuples fdt parentCells rounds (tuple + (3 + parentCells + 2) * 4)
      else
        let some child ← pi4FdtCells fdt (tuple + 4) 2 | return none
        let some parent ← pi4FdtCells fdt (tuple + 3 * 4) parentCells | return none
        let some size ← pi4FdtCells fdt (tuple + (3 + parentCells) * 4) 2 | return none
        if size = 0 ∨ child > uint64Max - size ∨ parent > uint64Max - size then return none
        else return some ⟨child, parent, size⟩

/-- `pi4_fdt_pci_window`; `none` where it returns 0. -/
def pi4FdtPciWindow (fdt : Blob) (ranges : Option ℕ) (rangesSize parentCells : ℕ) :
    Run (Option Window) :=
  match ranges with
  | none => return none
  | some tuples =>
      if parentCells = 0 ∨ parentCells > 2 then return none
      else
        let stride := (3 + parentCells + 2) * 4
        if rangesSize % stride ≠ 0 then return none
        else windowTuples fdt parentCells (rangesSize / stride) tuples

/-- The condition of `PI4_PCIE_FDT_ENABLED`. -/
def nodeEnabled (fdt : Blob) (node : Pi4FdtNode) : Run Bool :=
  if node.haveStatus = false then return true
  else do
    let isOkay ← pi4FdtStringEq fdt node.status node.statusSize okay
    if isOkay = true then return true else pi4FdtStringEq fdt node.status node.statusSize ok

/-- The register window in `pi4_fdt_decode_pcie_node`: its base and size, where `reg` has one that
can be translated. -/
def decodeReg (fdt : Blob) (stack : Stack) (depth : ℕ) (node : Pi4FdtNode)
    (parent : Option Pi4FdtNode) : Run (Option (ℕ × ℕ)) :=
  match parent, node.reg with
  | none, _ => return none
  | some _, none => return none
  | some parent, some reg =>
      if ¬(parent.addressCells > 0 ∧ parent.addressCells ≤ 2 ∧ parent.sizeCells > 0 ∧
          parent.sizeCells ≤ 2) then return none
      else
        let regStride := (parent.addressCells + parent.sizeCells) * 4
        if node.regSize < regStride then return none
        else do
          let some address ← pi4FdtCells fdt reg parent.addressCells | return none
          let some size ← pi4FdtCells fdt (reg + parent.addressCells * 4) parent.sizeCells
            | return none
          if size = 0 then return none
          else
            let some address ← pi4FdtTranslateReg fdt stack depth address | return none
            if address > uint64Max - size then return none else return some (address, size)

/-- What `pi4_fdt_decode_pcie_node` makes of the three windows. -/
def ZealPi4Pcie.withWindows (out : ZealPi4Pcie) (reg : Option (ℕ × ℕ)) (mem dma : Option Window) :
    ZealPi4Pcie :=
  let out :=
    match reg with
    | none => out
    | some (base, size) =>
        { out with regBase := base, regSize := size, flags := out.flags ||| pi4PcieFdtReg }
  let out :=
    match mem with
    | none => out
    | some w =>
        { out with
          memBusBase := w.busBase
          memCpuBase := w.cpuBase
          memSize := w.size
          flags := out.flags ||| pi4PcieFdtMem }
  match dma with
  | none => out
  | some w =>
      { out with
        dmaBusBase := w.busBase
        dmaCpuBase := w.cpuBase
        dmaSize := w.size
        flags := out.flags ||| pi4PcieFdtDma }

/-- `pi4_fdt_decode_pcie_node`; `none` where it returns 0. -/
def pi4FdtDecodePcieNode (fdt : Blob) (stack : Stack) (depth : ℕ) (out : ZealPi4Pcie) :
    Run (Option ZealPi4Pcie) := do
  let node ← stack.get (u32 (depth + 2 ^ 32 - 1))
  let parent ← stack.parent depth
  let listed ← pi4FdtStringListHas fdt node.compatible node.compatibleSize brcmPcie
  if listed = false then return none
  else
    let enabled ← nodeEnabled fdt node
    let flags :=
      if enabled = true then pi4PcieFdtPresent ||| pi4PcieFdtEnabled else pi4PcieFdtPresent
    let reg ← decodeReg fdt stack depth node parent
    let addressCells := (parent.map Pi4FdtNode.addressCells).getD 0
    let mem ← pi4FdtPciWindow fdt node.ranges node.rangesSize addressCells
    let dma ← pi4FdtPciWindow fdt node.dmaRanges node.dmaRangesSize addressCells
    return some (ZealPi4Pcie.withWindows { out with flags := flags } reg mem dma)

/-! ## Tokens -/

/-- The locals of `pi4_fdt_find_pcie`. -/
structure Scan where
  cursor : ℕ
  depth : ℕ
  stack : Stack
  found : Bool
  out : ZealPi4Pcie

/-- The two blocks: offset and size of the structure, offset and size of the strings. -/
structure Blocks where
  offStruct : ℕ
  sizeStruct : ℕ
  offStrings : ℕ
  sizeStrings : ℕ

/-- `FDT_BEGIN_NODE`, with the cursor behind the token. A code is what the parser returns. -/
def beginNode (fdt : Blob) (b : Blocks) (s : Scan) : Run (Except ℤ Scan) :=
  if s.depth ≥ pi4FdtMaxDepth then return .error (-3)
  else do
    let nameEnd ← scanEnd fdt b.offStruct s.cursor (b.sizeStruct - s.cursor)
    if nameEnd ≥ b.sizeStruct then return .error (-4)
    else
      let stack ← s.stack.set s.depth freshNode
      return .ok { s with
        cursor := u32 (nameEnd + 4) / 4 * 4
        stack := stack
        depth := s.depth + 1 }

/-- `FDT_END_NODE`. -/
def endNode (fdt : Blob) (s : Scan) : Run (Except ℤ Scan) :=
  if s.depth = 0 then return .error (-5)
  else if s.found = true then return .ok { s with depth := s.depth - 1 }
  else do
    match ← pi4FdtDecodePcieNode fdt s.stack s.depth s.out with
    | none => return .ok { s with depth := s.depth - 1 }
    | some out => return .ok { s with depth := s.depth - 1, found := true, out := out }

/-- What a property does to its node. -/
def setProperty (fdt : Blob) (b : Blocks) (node : Pi4FdtNode) (nameoff data len : ℕ) :
    Run (Except ℤ Pi4FdtNode) := do
  let named := pi4FdtPropertyName fdt b.offStrings b.sizeStrings nameoff
  if ← named nameAddressCells then
    if len ≠ 4 then return .error (-8)
    else
      let cells ← pi4FdtBe32 fdt data
      return .ok { node with addressCells := cells }
  else if ← named nameSizeCells then
    if len ≠ 4 then return .error (-9)
    else
      let cells ← pi4FdtBe32 fdt data
      return .ok { node with sizeCells := cells }
  else if ← named nameReg then return .ok { node with reg := some data, regSize := len }
  else if ← named nameRanges then
    return .ok { node with ranges := some data, rangesSize := len, haveRanges := true }
  else if ← named nameDmaRanges then
    return .ok { node with dmaRanges := some data, dmaRangesSize := len, haveDmaRanges := true }
  else if ← named nameCompatible then
    return .ok { node with compatible := some data, compatibleSize := len }
  else if ← named nameStatus then
    return .ok { node with status := some data, statusSize := len, haveStatus := true }
  else return .ok node

/-- `FDT_PROP`. -/
def property (fdt : Blob) (b : Blocks) (s : Scan) : Run (Except ℤ Scan) :=
  if s.depth = 0 ∨ u32 (s.cursor + 8) > b.sizeStruct then return .error (-6)
  else do
    let len ← pi4FdtBe32 fdt (b.offStruct + s.cursor)
    let nameoff ← pi4FdtBe32 fdt (b.offStruct + s.cursor + 4)
    let cursor := u32 (s.cursor + 8)
    if len > b.sizeStruct - cursor ∨ nameoff ≥ b.sizeStrings then return .error (-7)
    else
      let node ← s.stack.get (s.depth - 1)
      match ← setProperty fdt b node nameoff (b.offStruct + cursor) len with
      | .error code => return .error code
      | .ok node =>
          let stack ← s.stack.set (s.depth - 1) node
          return .ok { s with cursor := u32 (cursor + len + 3) / 4 * 4, stack := stack }

/-- One token, with the cursor behind it. -/
def tokenStep (fdt : Blob) (b : Blocks) (token : ℕ) (s : Scan) : Run (Except ℤ Scan) :=
  if token = 1 then beginNode fdt b s
  else if token = 2 then endNode fdt s
  else if token = 3 then property fdt b s
  else if token = 4 then return .ok s
  else if token = 9 then
    if s.depth ≠ 0 then return .error (-10) else return .error (if s.found = true then 0 else -13)
  else return .error (-11)

/-- The token loop of `pi4_fdt_find_pcie`: the code it returns, and `*out`. -/
def tokenLoop (fdt : Blob) (b : Blocks) : ℕ → Scan → Run (ℤ × ZealPi4Pcie)
  | 0, _ => throw .endless
  | rounds + 1, s =>
      if u32 (s.cursor + 4) ≤ b.sizeStruct then do
        let token ← pi4FdtBe32 fdt (b.offStruct + s.cursor)
        let s := { s with cursor := u32 (s.cursor + 4) }
        match ← tokenStep fdt b token s with
        | .error code => return (code, s.out)
        | .ok s => tokenLoop fdt b rounds s
      else return (-12, s.out)

/-- `*out` as the parser clears it. -/
def ZealPi4Pcie.cleared (out : ZealPi4Pcie) : ZealPi4Pcie where
  flags := 0
  fdtStatus := out.fdtStatus
  regBase := 0
  regSize := 0
  memBusBase := 0
  memCpuBase := 0
  memSize := 0
  dmaBusBase := 0
  dmaCpuBase := 0
  dmaSize := 0

/-- `pi4_fdt_find_pcie`, for pointers that are not null: the code it returns, and `*out`. -/
def pi4FdtFindPcie (fdt : Blob) (available : ℕ) (stack : Stack) (out : ZealPi4Pcie) :
    Run (ℤ × ZealPi4Pcie) :=
  if available < 40 then return (-1, out)
  else do
    let magic ← pi4FdtBe32 fdt 0
    if magic ≠ 0xd00dfeed then return (-1, out)
    else
      let total ← pi4FdtBe32 fdt 4
      let offStruct ← pi4FdtBe32 fdt 8
      let offStrings ← pi4FdtBe32 fdt 12
      let sizeStrings ← pi4FdtBe32 fdt 32
      let sizeStruct ← pi4FdtBe32 fdt 36
      if total < 40 ∨ total > available ∨ pi4FdtSpan offStruct sizeStruct total = false ∨
          pi4FdtSpan offStrings sizeStrings total = false then return (-2, out)
      else
        tokenLoop fdt ⟨offStruct, sizeStruct, offStrings, sizeStrings⟩ (sizeStruct + 1)
          ⟨0, 0, stack, false, out.cleared⟩

end ZealBringup.Fdt
