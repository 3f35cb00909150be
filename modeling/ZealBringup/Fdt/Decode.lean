import ZealBringup.Fdt.Payload

/-!
# What a node means

The meaning of a PCIe node, from the properties of the node and of the buses above it, and that
the parser computes it from what it keeps on its stack.

* `NodeData` — the properties of a node that matter.
* `translate`, `pciWindow`, `describe` — the addresses and windows of a node.
* `pi4FdtDecodePcieNode_eq` — the parser decodes a node as it is meant.
-/

namespace ZealBringup.Fdt

variable {fdt : Blob}

/-- The properties of a node that matter here, as their bytes; the cells have their defaults. -/
structure NodeData where
  addressCells : ℕ := 2
  sizeCells : ℕ := 1
  reg : Option (List UInt8) := none
  ranges : Option (List UInt8) := none
  dmaRanges : Option (List UInt8) := none
  compatible : Option (List UInt8) := none
  status : Option (List UInt8) := none

/-! ## Buses -/

/-- One tuple of `ranges`: an interval of the addresses below a bus, and where it is above. -/
structure BusWindow where
  child : ℕ
  parent : ℕ
  size : ℕ

/-- The tuples of a `ranges` value, `n` of them. -/
def busWindows (childCells parentCells sizeCells : ℕ) : ℕ → List UInt8 → List BusWindow
  | 0, _ => []
  | n + 1, value =>
      ⟨front childCells value, front parentCells (value.drop (childCells * 4)),
        front sizeCells (value.drop ((childCells + parentCells) * 4))⟩ ::
      busWindows childCells parentCells sizeCells n
        (value.drop ((childCells + parentCells + sizeCells) * 4))

/-- An address through the first window that has it. Every window up to that one must be a non-empty
interval of 64-bit addresses. -/
def through (address : ℕ) : List BusWindow → Option ℕ
  | [] => none
  | w :: ws =>
      if w.size = 0 ∨ 2 ^ 64 ≤ w.child + w.size then none
      else if w.child ≤ address ∧ address < w.child + w.size then
        if w.parent + (address - w.child) < 2 ^ 64 then some (w.parent + (address - w.child)) else none
      else through address ws

/-- A cell count that fits a 64-bit number. -/
def Cells (n : ℕ) : Prop := 1 ≤ n ∧ n ≤ 2

instance (n : ℕ) : Decidable (Cells n) := inferInstanceAs (Decidable (_ ∧ _))

/-- An address below the innermost of some buses, as an address below the root. The list goes
from the innermost bus to the root. A bus without `ranges` maps nothing, and an empty `ranges` is
the identity. -/
def translate : List NodeData → ℕ → Option ℕ
  | bus :: parent :: above, address =>
      match bus.ranges with
      | none => none
      | some [] => translate (parent :: above) address
      | some value =>
          let stride := (bus.addressCells + parent.addressCells + bus.sizeCells) * 4
          if Cells bus.addressCells ∧ Cells parent.addressCells ∧ Cells bus.sizeCells ∧
              value.length % stride = 0 then
            (through address (busWindows bus.addressCells parent.addressCells bus.sizeCells
              (value.length / stride) value)).bind (translate (parent :: above))
          else none
  | _, address => some address

/-- The register window of a node below some buses: base and size. -/
def regWindow (node : NodeData) : List NodeData → Option (ℕ × ℕ)
  | [] => none
  | parent :: above =>
      match node.reg with
      | none => none
      | some value =>
          if Cells parent.addressCells ∧ Cells parent.sizeCells ∧
              (parent.addressCells + parent.sizeCells) * 4 ≤ value.length then
            let size := front parent.sizeCells (value.drop (parent.addressCells * 4))
            if size = 0 then none
            else
              match translate (parent :: above) (front parent.addressCells value) with
              | none => none
              | some base => if base + size < 2 ^ 64 then some (base, size) else none
          else none

/-! ## PCI windows -/

/-- A tuple of the `ranges` of a PCI bus. -/
structure PciTuple where
  space : ℕ
  window : Window

/-- The tuples of a PCI `ranges` value, `n` of them. -/
def pciTuples (parentCells : ℕ) : ℕ → List UInt8 → List PciTuple
  | 0, _ => []
  | n + 1, value =>
      ⟨front 1 value / 2 ^ 24 % 4,
        ⟨front 2 (value.drop 4), front parentCells (value.drop (3 * 4)),
          front 2 (value.drop ((3 + parentCells) * 4))⟩⟩ ::
      pciTuples parentCells n (value.drop ((3 + parentCells + 2) * 4))

/-- A non-empty window, of 64-bit addresses on both sides. -/
def Window.Fits (w : Window) : Prop :=
  w.size ≠ 0 ∧ w.busBase + w.size < 2 ^ 64 ∧ w.cpuBase + w.size < 2 ^ 64

instance (w : Window) : Decidable w.Fits := inferInstanceAs (Decidable (_ ∧ _ ∧ _))

/-- The first window of 32-bit memory space (space code 2), where it is one. -/
def pciWindow (parentCells : ℕ) (value : List UInt8) : Option Window :=
  if Cells parentCells ∧ value.length % ((3 + parentCells + 2) * 4) = 0 then
    ((pciTuples parentCells (value.length / ((3 + parentCells + 2) * 4)) value).find?
      fun t => decide (t.space = 2)).bind fun t => if t.window.Fits then some t.window else none
  else none

/-! ## A PCIe node -/

/-- The node lists `brcm,bcm2711-pcie`. -/
def NodeData.IsPcie (node : NodeData) : Prop := brcmPcie ∈ (node.compatible.map cStrings).getD []

instance (node : NodeData) : Decidable node.IsPcie := inferInstanceAs (Decidable (_ ∈ _))

/-- The node has no status, or its status is `okay` or `ok`. -/
def NodeData.enabled (node : NodeData) : Bool :=
  match node.status with
  | none => true
  | some value => (okay ++ [0]).isPrefixOf value || (ok ++ [0]).isPrefixOf value

/-- What is said of a PCIe node. -/
structure PcieInfo where
  enabled : Bool
  reg : Option (ℕ × ℕ)
  mem : Option Window
  dma : Option Window

/-- The address cells of the parent, where there is one. -/
def parentCells : List NodeData → ℕ
  | [] => 0
  | parent :: _ => parent.addressCells

/-- What is said of a node below some buses, from the innermost to the root. -/
def describe (node : NodeData) (buses : List NodeData) : PcieInfo where
  enabled := node.enabled
  reg := regWindow node buses
  mem := node.ranges.bind (pciWindow (parentCells buses))
  dma := node.dmaRanges.bind (pciWindow (parentCells buses))

/-- The bit `flag` where something holds. -/
def flag (b : Bool) (bit : ℕ) : ℕ := if b = true then bit else 0

/-- How it is reported: a flag for each part, and zeros for the parts that are missing. -/
def PcieInfo.report (info : PcieInfo) (fdtStatus : ℕ) : ZealPi4Pcie where
  flags := pi4PcieFdtPresent + flag info.enabled pi4PcieFdtEnabled +
    flag info.reg.isSome pi4PcieFdtReg + flag info.mem.isSome pi4PcieFdtMem +
    flag info.dma.isSome pi4PcieFdtDma
  fdtStatus := fdtStatus
  regBase := (info.reg.map Prod.fst).getD 0
  regSize := (info.reg.map Prod.snd).getD 0
  memBusBase := (info.mem.map Window.busBase).getD 0
  memCpuBase := (info.mem.map Window.cpuBase).getD 0
  memSize := (info.mem.map Window.size).getD 0
  dmaBusBase := (info.dma.map Window.busBase).getD 0
  dmaCpuBase := (info.dma.map Window.cpuBase).getD 0
  dmaSize := (info.dma.map Window.size).getD 0

/-! ## The stack -/

/-- A stack entry keeps the properties of a node. -/
structure Keeps (fdt : Blob) (node : Pi4FdtNode) (d : NodeData) : Prop where
  addressCells : node.addressCells = d.addressCells
  sizeCells : node.sizeCells = d.sizeCells
  reg : Payload fdt node.reg node.regSize d.reg
  ranges : Payload fdt node.ranges node.rangesSize d.ranges
  dmaRanges : Payload fdt node.dmaRanges node.dmaRangesSize d.dmaRanges
  compatible : Payload fdt node.compatible node.compatibleSize d.compatible
  status : Payload fdt node.status node.statusSize d.status
  haveRanges : node.haveRanges = d.ranges.isSome
  haveStatus : node.haveStatus = d.status.isSome

/-- The stack keeps the open nodes, the innermost first in the list and last on the stack. -/
def StackKeeps (fdt : Blob) (stack : Stack) : List NodeData → Prop
  | [] => True
  | d :: path => Keeps fdt (stack path.length) d ∧ StackKeeps fdt stack path

theorem keeps_freshNode (fdt : Blob) : Keeps fdt freshNode {} :=
  ⟨rfl, rfl, .absent _, .absent _, .absent _, .absent _, .absent _, rfl, rfl⟩

variable {stack : Stack}

theorem StackKeeps.congr {stack' : Stack} {path : List NodeData} (h : StackKeeps fdt stack path)
    (hsame : ∀ i < path.length, stack' i = stack i) :
    StackKeeps fdt stack' path := by
  induction path with
  | nil => trivial
  | cons d path ih =>
    refine ⟨?_, ih h.2 fun i hi => hsame i (Nat.lt_succ_of_lt hi)⟩
    rw [hsame path.length (Nat.lt_succ_self _)]
    exact h.1

theorem stack_get {i : ℕ} (h : i < 16) : stack.get i = .ok (stack i) := if_pos h

/-! ## Decoding -/

theorem translateTuples_at {childCells parentCells sizeCells address : ℕ} (hc : Cells childCells)
    (hp : Cells parentCells) (hs : Cells sizeCells) {n tuple : ℕ} {value : List UInt8}
    (h : At fdt tuple value)
    (hlen : n * ((childCells + parentCells + sizeCells) * 4) ≤ value.length) :
    translateTuples fdt childCells parentCells sizeCells address n tuple =
      .ok (through address (busWindows childCells parentCells sizeCells n value)) := by
  induction n generalizing tuple value with
  | zero => rfl
  | succ n ih =>
    rw [Nat.succ_mul] at hlen
    have hchild := pi4FdtCells_at h hc.1 hc.2 (by omega)
    have hparent := pi4FdtCells_at (h.drop (n := childCells * 4) (by omega)) hp.1 hp.2
      (by rw [List.length_drop]; omega)
    have hsize := pi4FdtCells_at (h.drop (n := (childCells + parentCells) * 4) (by omega)) hs.1 hs.2
      (by rw [List.length_drop]; omega)
    have hnext := ih (h.drop (n := (childCells + parentCells + sizeCells) * 4) (by omega))
      (by rw [List.length_drop]; omega)
    have h64 : uint64Max = 2 ^ 64 - 1 := rfl
    rw [translateTuples, hchild, ok_bind]
    dsimp only
    rw [hparent, ok_bind]
    dsimp only
    rw [hsize, ok_bind]
    dsimp only
    rw [hnext, busWindows, through]
    have hlt := front_lt hs.2 (value.drop ((childCells + parentCells) * 4))
    dsimp only
    generalize front sizeCells (value.drop ((childCells + parentCells) * 4)) = size at *
    generalize front childCells value = child at *
    generalize front parentCells (value.drop (childCells * 4)) = parent at *
    rw [uint64Max]
    by_cases hbad : size = 0 ∨ 2 ^ 64 ≤ child + size
    · rw [if_pos hbad, if_pos (by omega)]
      rfl
    · rw [if_neg hbad, if_neg (by omega)]
      by_cases hin : child ≤ address ∧ address < child + size
      · rw [if_pos hin, if_pos (by omega)]
        by_cases hfit : parent + (address - child) < 2 ^ 64
        · rw [if_pos hfit, if_neg (by omega)]
          rfl
        · rw [if_neg hfit, if_pos (by omega)]
          rfl
      · rw [if_neg hin, if_neg (by omega)]

/-- **A register address goes through every bus above it.** -/
theorem translateBuses_eq {bus : NodeData} {above : List NodeData}
    (h : StackKeeps fdt stack (bus :: above)) (hdepth : above.length < 16) (address : ℕ) :
    translateBuses fdt stack above.length address = .ok (translate (bus :: above) address) := by
  induction above generalizing bus address with
  | nil => rfl
  | cons parent above ih =>
    obtain ⟨hbus, habove⟩ := h
    rw [List.length_cons] at hdepth hbus
    have hnext := fun a => ih habove (by omega) a
    have hparent := habove.1.addressCells
    rw [List.length_cons, translateBuses, stack_get hdepth, ok_bind, stack_get (by omega), ok_bind,
      translate]
    generalize stack (above.length + 1) = node at *
    dsimp only
    rw [hbus.haveRanges, hbus.addressCells, hbus.sizeCells, hparent]
    have hpayload := hbus.ranges
    generalize node.ranges = ranges at hpayload
    generalize node.rangesSize = size at hpayload
    generalize bus.ranges = value at hpayload
    cases hpayload with
    | absent => rfl
    | @present q bytes hat =>
      dsimp only [Option.isSome_some]
      rw [if_neg (by simp)]
      cases bytes with
      | nil => exact hnext address
      | cons b bytes =>
        rw [if_neg (by simp)]
        dsimp only
        by_cases hcells : Cells bus.addressCells ∧ Cells parent.addressCells ∧ Cells bus.sizeCells
        · obtain ⟨hc, hp, hs⟩ := hcells
          have htuples := @translateTuples_at fdt _ _ _ address hc hp hs _ _ _ hat
            (Nat.div_mul_le_self _ _)
          rw [if_neg (by unfold Cells at hc hp hs; omega)]
          by_cases hmod : (b :: bytes).length %
              ((bus.addressCells + parent.addressCells + bus.sizeCells) * 4) = 0
          · rw [if_neg (not_not.2 hmod), if_pos ⟨hc, hp, hs, hmod⟩, htuples, ok_bind]
            cases through address (busWindows bus.addressCells parent.addressCells bus.sizeCells _
                (b :: bytes)) with
            | none => rfl
            | some a => exact hnext a
          · rw [if_pos hmod, if_neg fun hall => hmod hall.2.2.2]
            rfl
        · rw [if_pos (by unfold Cells at hcells; omega), if_neg fun hall => hcells
            ⟨hall.1, hall.2.1, hall.2.2.1⟩]
          rfl

theorem windowTuples_at {cells : ℕ} (hc : Cells cells) {n tuple : ℕ} {value : List UInt8}
    (h : At fdt tuple value) (hlen : n * ((3 + cells + 2) * 4) ≤ value.length) :
    windowTuples fdt cells n tuple =
      .ok (((pciTuples cells n value).find? fun t => decide (t.space = 2)).bind fun t =>
        if t.window.Fits then some t.window else none) := by
  induction n generalizing tuple value with
  | zero => rfl
  | succ n ih =>
    rw [Nat.succ_mul] at hlen
    have hspace := pi4FdtBe32_at (h.take 4) (by rw [List.length_take]; omega)
    have hchild := pi4FdtCells_at (h.drop (n := 4) (by omega)) (by decide) le_rfl
      (by rw [List.length_drop]; omega)
    have hparent := pi4FdtCells_at (h.drop (n := 3 * 4) (by omega)) hc.1 hc.2
      (by rw [List.length_drop]; omega)
    have hsize := pi4FdtCells_at (h.drop (n := (3 + cells) * 4) (by omega)) (by decide) le_rfl
      (by rw [List.length_drop]; omega)
    have hnext := ih (h.drop (n := (3 + cells + 2) * 4) (by omega)) (by rw [List.length_drop]; omega)
    rw [windowTuples, hspace, ok_bind, pciTuples, List.find?_cons]
    change (if front 1 value / 2 ^ 24 % 4 ≠ 2 then _ else _) = _
    dsimp only
    by_cases htwo : front 1 value / 2 ^ 24 % 4 = 2
    · have hlt := front_lt le_rfl (value.drop ((3 + cells) * 4))
      rw [if_neg (not_not.2 htwo), hchild, ok_bind]
      dsimp only
      rw [hparent, ok_bind]
      dsimp only
      rw [hsize, ok_bind, decide_eq_true htwo]
      dsimp only [Option.bind]
      generalize front 2 (value.drop ((3 + cells) * 4)) = size at *
      generalize front 2 (value.drop 4) = child at *
      generalize front cells (value.drop (3 * 4)) = parent at *
      rw [uint64Max]
      by_cases hfits : Window.Fits ⟨child, parent, size⟩
      · have hbounds := hfits
        unfold Window.Fits at hbounds
        dsimp only at hbounds
        rw [if_pos hfits, if_neg (by omega)]
        rfl
      · have hbounds := hfits
        unfold Window.Fits at hbounds
        dsimp only at hbounds
        rw [if_neg hfits, if_pos (by omega)]
        rfl
    · rw [if_pos htwo, decide_eq_false htwo]
      exact hnext

theorem pi4FdtPciWindow_payload {q : Option ℕ} {n : ℕ} {value : Option (List UInt8)}
    (h : Payload fdt q n value) (cells : ℕ) :
    pi4FdtPciWindow fdt q n cells = .ok (value.bind (pciWindow cells)) := by
  cases h with
  | absent => rfl
  | @present p bytes hat =>
    rw [pi4FdtPciWindow, Option.bind_some, pciWindow]
    dsimp only
    by_cases hc : Cells cells
    · rw [if_neg (by unfold Cells at hc; omega)]
      by_cases hmod : bytes.length % ((3 + cells + 2) * 4) = 0
      · rw [if_neg (not_not.2 hmod), if_pos ⟨hc, hmod⟩]
        exact windowTuples_at hc hat (Nat.div_mul_le_self _ _)
      · rw [if_pos hmod, if_neg fun hall => hmod hall.2]
        rfl
    · rw [if_pos (by unfold Cells at hc; omega), if_neg fun hall => hc hall.1]
      rfl

variable {d : NodeData}

theorem nodeEnabled_keeps {node : Pi4FdtNode} (h : Keeps fdt node d) :
    nodeEnabled fdt node = .ok d.enabled := by
  have hokay := pi4FdtStringEq_payload h.status (show 0 ∉ okay by decide)
  have hok := pi4FdtStringEq_payload h.status (show 0 ∉ ok by decide)
  rw [nodeEnabled, h.haveStatus, NodeData.enabled, hokay, hok]
  cases d.status with
  | none => rfl
  | some value =>
    dsimp only [Option.isSome_some, Option.map_some, Option.getD_some]
    rw [if_neg (by simp), ok_bind]
    by_cases hprefix : (okay ++ [0]).isPrefixOf value = true
    · rw [if_pos hprefix, hprefix]
      rfl
    · rw [if_neg hprefix, Bool.eq_false_of_not_eq_true hprefix, Bool.false_or]

theorem decodeReg_eq {node : Pi4FdtNode} {parent : NodeData} {above : List NodeData}
    (hnode : Keeps fdt node d) (h : StackKeeps fdt stack (parent :: above))
    (hdepth : above.length < 16) :
    decodeReg fdt stack (above.length + 2) node (some (stack above.length)) =
      .ok (regWindow d (parent :: above)) := by
  have haddress := h.1.addressCells
  have hsizes := h.1.sizeCells
  have htranslate := fun a => translateBuses_eq h hdepth a
  have hpayload := hnode.reg
  unfold decodeReg
  rw [regWindow]
  generalize node.reg = reg at hpayload
  generalize node.regSize = size at hpayload
  generalize d.reg = value at hpayload
  cases hpayload with
  | absent => rfl
  | @present q bytes hat =>
    dsimp only
    rw [haddress, hsizes]
    by_cases hcells : Cells parent.addressCells ∧ Cells parent.sizeCells
    · obtain ⟨ha, hs⟩ := hcells
      rw [if_neg (by unfold Cells at ha hs; omega)]
      by_cases hfit : (parent.addressCells + parent.sizeCells) * 4 ≤ bytes.length
      · have hbase := pi4FdtCells_at hat ha.1 ha.2 (by omega)
        have hsize := pi4FdtCells_at (hat.drop (n := parent.addressCells * 4) (by omega)) hs.1 hs.2
          (by rw [List.length_drop]; omega)
        have hlt := front_lt hs.2 (bytes.drop (parent.addressCells * 4))
        rw [if_neg (not_lt.2 hfit), if_pos ⟨ha, hs, hfit⟩, hbase, ok_bind]
        dsimp only
        rw [hsize, ok_bind]
        dsimp only
        generalize front parent.sizeCells (bytes.drop (parent.addressCells * 4)) = size at *
        by_cases hzero : size = 0
        · rw [if_pos hzero, if_pos hzero]
          rfl
        · rw [if_neg hzero, if_neg hzero, pi4FdtTranslateReg, if_neg (by omega), Nat.add_sub_cancel,
            htranslate, ok_bind]
          cases translate (parent :: above) (front parent.addressCells bytes) with
          | none => rfl
          | some base =>
            dsimp only
            rw [uint64Max]
            by_cases hend : base + size < 2 ^ 64
            · rw [if_pos hend, if_neg (by omega)]
              rfl
            · rw [if_neg hend, if_pos (by omega)]
              rfl
      · rw [if_pos (not_le.1 hfit), if_neg fun hall => hfit hall.2.2]
        rfl
    · rw [if_pos (by unfold Cells at hcells; omega), if_neg fun hall => hcells ⟨hall.1, hall.2.1⟩]
      rfl

/-- The fields and flags that decoding sets, as a report. -/
theorem withWindows_eq (out : ZealPi4Pcie) (info : PcieInfo) :
    ZealPi4Pcie.withWindows { out.cleared with
      flags := if info.enabled = true then pi4PcieFdtPresent ||| pi4PcieFdtEnabled
        else pi4PcieFdtPresent } info.reg info.mem info.dma = info.report out.fdtStatus := by
  obtain ⟨enabled, reg, mem, dma⟩ := info
  cases enabled <;> rcases reg with _ | ⟨base, size⟩ <;> rcases mem with _ | mem <;>
    rcases dma with _ | dma <;>
    simp [ZealPi4Pcie.withWindows, ZealPi4Pcie.cleared, PcieInfo.report, flag, pi4PcieFdtPresent,
      pi4PcieFdtEnabled, pi4PcieFdtReg, pi4PcieFdtMem, pi4PcieFdtDma]

/-- **A node is decoded as it is meant**: not at all unless it lists the PCIe host, and otherwise
with everything that is said of it. -/
theorem pi4FdtDecodePcieNode_eq {buses : List NodeData} (h : StackKeeps fdt stack (d :: buses))
    (hdepth : buses.length < 16) (out : ZealPi4Pcie) :
    pi4FdtDecodePcieNode fdt stack (buses.length + 1) out.cleared =
      .ok (if d.IsPcie then some ((describe d buses).report out.fdtStatus) else none) := by
  obtain ⟨hnode, hbuses⟩ := h
  have hindex : u32 (buses.length + 1 + 2 ^ 32 - 1) = buses.length := by
    rw [u32]
    omega
  have hlisted : pi4FdtStringListHas fdt (stack buses.length).compatible
      (stack buses.length).compatibleSize brcmPcie = .ok (decide d.IsPcie) :=
    pi4FdtStringListHas_payload hnode.compatible (by decide)
  rw [pi4FdtDecodePcieNode, hindex, stack_get hdepth, ok_bind]
  have hparent : ∃ parent : Option Pi4FdtNode, stack.parent (buses.length + 1) = .ok parent ∧
      decodeReg fdt stack (buses.length + 1) (stack buses.length) parent = .ok (regWindow d buses) ∧
      (parent.map Pi4FdtNode.addressCells).getD 0 = parentCells buses := by
    cases buses with
    | nil => exact ⟨none, rfl, rfl, rfl⟩
    | cons parent above =>
      rw [List.length_cons] at hdepth
      refine ⟨some (stack above.length), ?_, decodeReg_eq hnode hbuses (by omega),
        hbuses.1.addressCells⟩
      rw [Stack.parent, if_pos (by rw [List.length_cons]; omega), List.length_cons,
        show above.length + 1 + 1 - 2 = above.length by omega, stack_get (by omega)]
      rfl
  obtain ⟨parent, hget, hreg, hcells⟩ := hparent
  rw [hget, ok_bind, hlisted, ok_bind]
  by_cases hpcie : d.IsPcie
  · rw [if_neg (by simpa using hpcie), if_pos hpcie, nodeEnabled_keeps hnode, ok_bind]
    dsimp only
    rw [hreg, ok_bind, hcells, pi4FdtPciWindow_payload hnode.ranges, ok_bind,
      pi4FdtPciWindow_payload hnode.dmaRanges, ok_bind]
    exact congrArg (fun o => Except.ok (some o)) (withWindows_eq out (describe d buses))
  · rw [if_pos (by simpa using hpcie), if_neg hpcie]
    rfl

end ZealBringup.Fdt
