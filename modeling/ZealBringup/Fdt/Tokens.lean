import ZealBringup.Fdt.Decode

/-!
# Device trees and their tokens

One token of the structure block, on the stack of open nodes.

* `Nodes` — a list of device-tree nodes, each with its properties and its subnodes.
* `Nodes.firstPcie` — the first PCIe host to close, and what is said of it.
* `Flattened` — the flattened form: header, structure block and string block.
* `Tracks` — the stack keeps the open nodes, and the report is clear until a node is found.
* `beginNode_tracks`, `property_tracks`, `endNode_tracks` — each token in what it means for the
  open nodes.
-/

namespace ZealBringup.Fdt

/-! ## Trees -/

/-- A property, with the bytes of its value. -/
structure FdtProperty where
  name : List UInt8
  value : List UInt8

/-- Nodes of a device tree next to each other: a first one with its name, properties and subnodes,
and the rest. -/
inductive Nodes where
  | nil
  | cons (name : List UInt8) (props : List FdtProperty) (subnodes rest : Nodes)

/-- How many levels of nodes there are. -/
def Nodes.depth : Nodes → ℕ
  | nil => 0
  | cons _ _ subnodes rest => max (subnodes.depth + 1) rest.depth

/-- The value of a property; a later one of the same name counts. -/
def lookup (want : List UInt8) (props : List FdtProperty) : Option (List UInt8) :=
  (props.reverse.find? fun p => p.name = want).map FdtProperty.value

/-- A word, most significant byte first. -/
def be32Bytes (n : ℕ) : List UInt8 :=
  [UInt8.ofNat (n / 2 ^ 24), UInt8.ofNat (n / 2 ^ 16), UInt8.ofNat (n / 2 ^ 8), UInt8.ofNat n]

variable {fdt : Blob} {b : Blocks}

/-- A named property of a node. The cell counts are words. -/
def NodeData.setProperty (d : NodeData) (named : List UInt8 → Bool) (value : List UInt8) :
    Except ℤ NodeData :=
  if named nameAddressCells = true then
    if value.length ≠ 4 then .error (-8) else .ok { d with addressCells := beNat value }
  else if named nameSizeCells = true then
    if value.length ≠ 4 then .error (-9) else .ok { d with sizeCells := beNat value }
  else if named nameReg = true then .ok { d with reg := some value }
  else if named nameRanges = true then .ok { d with ranges := some value }
  else if named nameDmaRanges = true then .ok { d with dmaRanges := some value }
  else if named nameCompatible = true then .ok { d with compatible := some value }
  else if named nameStatus = true then .ok { d with status := some value }
  else .ok d

/-- The string at an offset of the string block is `want`. -/
def namedBy (strings : List UInt8) (nameoff : ℕ) (want : List UInt8) : Bool :=
  (want ++ [0]).isPrefixOf (strings.drop nameoff)

theorem pi4FdtPropertyName_at {strings want : List UInt8} {nameoff : ℕ}
    (h : At fdt b.offStrings strings) (hlen : strings.length = b.sizeStrings)
    (hoff : nameoff < b.sizeStrings) (hwant : 0 ∉ want) :
    pi4FdtPropertyName fdt b.offStrings b.sizeStrings nameoff want =
      .ok (namedBy strings nameoff want) := by
  have heq := cStringEq_at (h.drop (n := nameoff) (by omega)) hwant
  rw [List.length_drop, show nameoff + (strings.length - nameoff) = b.sizeStrings by omega] at heq
  rw [pi4FdtPropertyName, if_neg (by omega), heq]
  rfl

/-- **A property is kept**: on the stack entry as in the node's data. -/
theorem setProperty_keeps {strings value : List UInt8} {nameoff data : ℕ} {node : Pi4FdtNode}
    {d : NodeData} (h : At fdt b.offStrings strings) (hlen : strings.length = b.sizeStrings)
    (hoff : nameoff < b.sizeStrings) (hvalue : At fdt data value) (hnode : Keeps fdt node d) :
    match d.setProperty (namedBy strings nameoff) value with
    | .error code => setProperty fdt b node nameoff data value.length = .ok (.error code)
    | .ok d' => ∃ node', setProperty fdt b node nameoff data value.length = .ok (.ok node') ∧
        Keeps fdt node' d' := by
  have hname := fun want (hwant : 0 ∉ want) => pi4FdtPropertyName_at h hlen hoff hwant
  unfold setProperty NodeData.setProperty
  dsimp only
  rw [hname nameAddressCells (by decide), ok_bind]
  by_cases haddress : namedBy strings nameoff nameAddressCells = true
  · rw [if_pos haddress, if_pos haddress]
    by_cases hfour : value.length = 4
    · rw [if_neg (not_not.2 hfour), if_neg (not_not.2 hfour), pi4FdtBe32_at hvalue hfour]
      exact ⟨_, rfl, ⟨rfl, hnode.sizeCells, hnode.reg, hnode.ranges, hnode.dmaRanges,
        hnode.compatible, hnode.status, hnode.haveRanges, hnode.haveStatus⟩⟩
    · rw [if_pos hfour, if_pos hfour]
      rfl
  rw [if_neg haddress, if_neg haddress, hname nameSizeCells (by decide), ok_bind]
  by_cases hsize : namedBy strings nameoff nameSizeCells = true
  · rw [if_pos hsize, if_pos hsize]
    by_cases hfour : value.length = 4
    · rw [if_neg (not_not.2 hfour), if_neg (not_not.2 hfour), pi4FdtBe32_at hvalue hfour]
      exact ⟨_, rfl, ⟨hnode.addressCells, rfl, hnode.reg, hnode.ranges, hnode.dmaRanges,
        hnode.compatible, hnode.status, hnode.haveRanges, hnode.haveStatus⟩⟩
    · rw [if_pos hfour, if_pos hfour]
      rfl
  rw [if_neg hsize, if_neg hsize, hname nameReg (by decide), ok_bind]
  by_cases hreg : namedBy strings nameoff nameReg = true
  · rw [if_pos hreg, if_pos hreg]
    exact ⟨_, rfl, ⟨hnode.addressCells, hnode.sizeCells, .present hvalue, hnode.ranges,
      hnode.dmaRanges, hnode.compatible, hnode.status, hnode.haveRanges, hnode.haveStatus⟩⟩
  rw [if_neg hreg, if_neg hreg, hname nameRanges (by decide), ok_bind]
  by_cases hranges : namedBy strings nameoff nameRanges = true
  · rw [if_pos hranges, if_pos hranges]
    exact ⟨_, rfl, ⟨hnode.addressCells, hnode.sizeCells, hnode.reg, .present hvalue,
      hnode.dmaRanges, hnode.compatible, hnode.status, rfl, hnode.haveStatus⟩⟩
  rw [if_neg hranges, if_neg hranges, hname nameDmaRanges (by decide), ok_bind]
  by_cases hdma : namedBy strings nameoff nameDmaRanges = true
  · rw [if_pos hdma, if_pos hdma]
    exact ⟨_, rfl, ⟨hnode.addressCells, hnode.sizeCells, hnode.reg, hnode.ranges,
      .present hvalue, hnode.compatible, hnode.status, hnode.haveRanges, hnode.haveStatus⟩⟩
  rw [if_neg hdma, if_neg hdma, hname nameCompatible (by decide), ok_bind]
  by_cases hcompatible : namedBy strings nameoff nameCompatible = true
  · rw [if_pos hcompatible, if_pos hcompatible]
    exact ⟨_, rfl, ⟨hnode.addressCells, hnode.sizeCells, hnode.reg, hnode.ranges,
      hnode.dmaRanges, .present hvalue, hnode.status, hnode.haveRanges, hnode.haveStatus⟩⟩
  rw [if_neg hcompatible, if_neg hcompatible, hname nameStatus (by decide), ok_bind]
  by_cases hstatus : namedBy strings nameoff nameStatus = true
  · rw [if_pos hstatus, if_pos hstatus]
    exact ⟨_, rfl, ⟨hnode.addressCells, hnode.sizeCells, hnode.reg, hnode.ranges,
      hnode.dmaRanges, hnode.compatible, .present hvalue, hnode.haveRanges, rfl⟩⟩
  · rw [if_neg hstatus, if_neg hstatus]
    exact ⟨node, rfl, hnode⟩

/-! ## The state of the loop -/

/-- The stack keeps the open nodes, the innermost first; and the report is clear until a node is
found. -/
structure Tracks (fdt : Blob) (out : ZealPi4Pcie) (path : List NodeData) (s : Scan) : Prop where
  depth : s.depth = path.length
  depth_le : path.length ≤ 16
  stack : StackKeeps fdt s.stack path
  clear : s.found = false → s.out = out.cleared

/-- What was found so far. -/
def Scan.result (s : Scan) : Option ZealPi4Pcie := if s.found = true then some s.out else none

variable {out : ZealPi4Pcie} {path : List NodeData} {s : Scan}

/-- `FDT_BEGIN_NODE`, where the name ends before the block does: one more open node. -/
theorem beginNode_tracks (h : Tracks fdt out path s) (hdepth : path.length < 16) {nameEnd : ℕ}
    (hscan : scanEnd fdt b.offStruct s.cursor (b.sizeStruct - s.cursor) = .ok nameEnd)
    (hend : nameEnd < b.sizeStruct) :
    ∃ s', beginNode fdt b s = .ok (.ok s') ∧ s'.cursor = u32 (nameEnd + 4) / 4 * 4 ∧
      Tracks fdt out ({} :: path) s' ∧ s'.result = s.result := by
  have hmax : pi4FdtMaxDepth = 16 := rfl
  have hset : s.stack.set s.depth freshNode = .ok (Function.update s.stack s.depth freshNode) := by
    rw [Stack.set, if_pos (by rw [h.depth]; omega)]
    rfl
  rw [beginNode, if_neg (by rw [h.depth]; omega), hscan, ok_bind, if_neg (not_le.2 hend), hset,
    ok_bind]
  refine ⟨_, rfl, rfl, ⟨?_, ?_, ⟨?_, ?_⟩, h.clear⟩, rfl⟩
  · rw [List.length_cons, ← h.depth]
  · rw [List.length_cons]
    omega
  · rw [← h.depth]
    dsimp only
    rw [Function.update_self]
    exact keeps_freshNode fdt
  · refine h.stack.congr fun i hi => Function.update_of_ne ?_ _ _
    rw [h.depth]
    omega

/-- `FDT_END_NODE` of an open node: it is decoded, unless one was found before. -/
theorem endNode_tracks {d : NodeData} {buses : List NodeData} (h : Tracks fdt out (d :: buses) s) :
    ∃ s', endNode fdt s = .ok (.ok s') ∧ s'.cursor = s.cursor ∧ Tracks fdt out buses s' ∧
      s'.result = s.result.or
        (if d.IsPcie then some ((describe d buses).report out.fdtStatus) else none) := by
  have hdepth : s.depth = buses.length + 1 := h.depth
  have hle : buses.length + 1 ≤ 16 := h.depth_le
  rw [endNode, if_neg (by omega)]
  by_cases hfound : s.found = true
  · rw [if_pos hfound]
    refine ⟨_, rfl, rfl, ⟨?_, by omega, h.stack.2, h.clear⟩, ?_⟩
    · dsimp only
      omega
    · simp [Scan.result, hfound]
  · have hclear := h.clear (Bool.eq_false_of_not_eq_true hfound)
    rw [if_neg hfound, hdepth, hclear, pi4FdtDecodePcieNode_eq h.stack (by omega), ok_bind]
    by_cases hpcie : d.IsPcie
    · rw [if_pos hpcie]
      refine ⟨_, rfl, rfl, ⟨?_, by omega, h.stack.2, fun hf => by cases hf⟩, ?_⟩
      · dsimp only
        omega
      · simp [Scan.result, hfound]
    · rw [if_neg hpcie]
      refine ⟨_, rfl, rfl, ⟨?_, by omega, h.stack.2, fun _ => rfl⟩, ?_⟩
      · dsimp only
        omega
      · simp [Scan.result, hfound]

/-- `FDT_PROP`, where the value ends before the block does: the innermost open node has one more
property, or the parser gives up. -/
theorem property_tracks {d : NodeData} {buses : List NodeData}
    (h : Tracks fdt out (d :: buses) s) {strings len off value : List UInt8}
    (hstrings : At fdt b.offStrings strings) (hlen : strings.length = b.sizeStrings)
    (hbytes : At fdt (b.offStruct + s.cursor) (len ++ off ++ value)) (hlen4 : len.length = 4)
    (hoff4 : off.length = 4) (hvalue : value.length = beNat len)
    (hname : beNat off < b.sizeStrings) (hend : s.cursor + 8 + value.length ≤ b.sizeStruct)
    (hsmall : b.sizeStruct < 2 ^ 32 - 3) :
    match d.setProperty (namedBy strings (beNat off)) value with
    | .error code => property fdt b s = .ok (.error code)
    | .ok d' => ∃ s', property fdt b s = .ok (.ok s') ∧
        s'.cursor = (s.cursor + 8 + value.length + 3) / 4 * 4 ∧ Tracks fdt out (d' :: buses) s' ∧
        s'.result = s.result := by
  have hdepth : s.depth = buses.length + 1 := h.depth
  have hle : buses.length + 1 ≤ 16 := h.depth_le
  have hmax : pi4FdtMaxDepth = 16 := rfl
  have hcursor : u32 (s.cursor + 8) = s.cursor + 8 := Nat.mod_eq_of_lt (by omega)
  have hnext : u32 (s.cursor + 8 + value.length + 3) = s.cursor + 8 + value.length + 3 :=
    Nat.mod_eq_of_lt (by omega)
  have hlenAt := pi4FdtBe32_at hbytes.left.left hlen4
  have hoffAt := pi4FdtBe32_at hbytes.left.right hoff4
  have hvalueAt := hbytes.right
  rw [List.length_append, hlen4, hoff4, Nat.add_assoc] at hvalueAt
  rw [hlen4] at hoffAt
  have hkeeps : Keeps fdt (s.stack buses.length) d := h.stack.1
  have hkept := setProperty_keeps hstrings hlen hname hvalueAt hkeeps
  have hset : ∀ node, s.stack.set buses.length node =
      .ok (Function.update s.stack buses.length node) := fun node => by
    rw [Stack.set, if_pos (by omega)]
    rfl
  rw [property, if_neg (by omega), hlenAt, ok_bind, hoffAt, ok_bind]
  dsimp only
  rw [hcursor, if_neg (by omega), hdepth, Nat.add_sub_cancel, stack_get (by omega), ok_bind, ← hvalue]
  cases hd : d.setProperty (namedBy strings (beNat off)) value with
  | error code =>
    rw [hd] at hkept
    dsimp only at hkept ⊢
    rw [hkept]
    rfl
  | ok d' =>
    rw [hd] at hkept
    obtain ⟨node', hnode, hkeeps⟩ := hkept
    rw [hnode, ok_bind]
    dsimp only
    rw [hset, ok_bind, hnext]
    refine ⟨_, rfl, rfl, ⟨rfl, h.depth_le, ⟨?_, ?_⟩, h.clear⟩, rfl⟩
    · dsimp only
      rw [Function.update_self]
      exact hkeeps
    · exact h.stack.2.congr fun i hi => Function.update_of_ne (by omega) _ _

end ZealBringup.Fdt
