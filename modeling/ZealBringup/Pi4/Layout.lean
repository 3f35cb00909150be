import Mathlib

/-!
# The DMA layout

`pi4_xhci_dma_layout_make` of `pi4_xhci_dma_probe.h` and `pi4_usb_bus_region` of `pi4_usb_bus.h`. Sums are
taken by a parameter, which is the sum of 64 bits for the functions themselves.

* `layoutMake` — the layout of the controller in an arena.
* `busRegion` — the regions of the children, behind that layout.
* `layoutMake_eq` — the layout in closed form, for which no sum is too large.
* `dma_safe_iff` — the regions are safe but for the children of a controller without 64-bit addresses.
-/

namespace ZealBringup.Pi4

/-! ## The layout -/

/-- `struct pi4_dma_probe_plan`, as `pi4_dma_probe_plan_make` makes it: its bases are multiples of 64 KiB. -/
structure DmaPlan where
  physBase : ℕ
  busBase : ℕ
  size : ℕ
  physAligned : physBase % 65536 = 0
  busAligned : busBase % 65536 = 0
  physBounded : physBase < 2 ^ 64
  busBounded : busBase < 2 ^ 64
  sizeBounded : size < 2 ^ 64

/-- `struct pi4_xhci_dma_layout` -/
structure Layout where
  arenaPhys : ℕ
  arenaBus : ℕ
  arenaSize : ℕ
  dcbaaOffset : ℕ
  scratchArrayOffset : ℕ
  scratchPagesOffset : ℕ
  commandOffset : ℕ
  eventOffset : ℕ
  erstOffset : ℕ
  inputContextOffset : ℕ
  outputContextOffset : ℕ
  ep0RingOffset : ℕ
  controlBufferOffset : ℕ
  childOutputContextOffset : ℕ
  childEp0RingOffset : ℕ
  childBulkInRingOffset : ℕ
  childBulkOutRingOffset : ℕ
  usedBytes : ℕ
  maxSlots : ℕ
  scratchpads : ℕ

/-- The codes of `pi4_xhci_dma_layout_make`. -/
inductive PlanError where
  | gate
  | caps
  | pages
  | arena
  | address

/-- `pi4_xhci_reset_safe` -/
def resetSafe (usbcmd usbsts legacy pciCommand : ℕ) : Bool :=
  !pciCommand.testBit 2 && !(usbcmd.testBit 0 || usbcmd.testBit 1) && usbsts.testBit 0 &&
    !usbsts.testBit 11 && !legacy.testBit 16 && legacy.testBit 24

/-- `pi4_xhci_caps_valid` -/
def capsValid (caps : ℕ → ℕ) : Bool :=
  let capLength := caps 0 % 256
  let version := caps 0 / 2 ^ 16
  !(capLength < 0x20 || 0xfc < capLength || capLength % 4 ≠ 0 || version < 0x0100 || 0x01ff < version ||
    caps 1 % 256 = 0 || caps 1 / 2 ^ 24 = 0 || caps 4 % 4 ≠ 0 || caps 5 % 16 ≠ 0)

/-- `pi4_xhci_dma_align_up` -/
def alignUp (wrap : ℕ → ℕ) (value alignment : ℕ) : ℕ :=
  if alignment = 0 ∨ alignment &&& (alignment - 1) ≠ 0 ∨ value > 2 ^ 64 - 1 - (alignment - 1) then 2 ^ 64 - 1
  else wrap (value + alignment - 1) / alignment * alignment

/-- A region behind the cursor: its offset, and the cursor behind it. -/
def place (wrap : ℕ → ℕ) (cursor alignment bytes : ℕ) : Except PlanError (ℕ × ℕ) :=
  let cursor := alignUp wrap cursor alignment
  if cursor = 2 ^ 64 - 1 ∨ cursor > 2 ^ 64 - 1 - bytes then .error .arena
  else .ok (cursor, wrap (cursor + bytes))

/-- The scratchpad array and its pages, where there are any. -/
def placeScratch (wrap : ℕ → ℕ) (cursor scratch : ℕ) : Except PlanError (ℕ × ℕ × ℕ) :=
  if scratch = 0 then .ok (0, 0, cursor)
  else do
    let (array, cursor) ← place wrap cursor 64 (wrap (scratch * 8))
    let (pages, cursor) ← place wrap cursor 4096 (wrap (scratch * 4096))
    pure (array, pages, cursor)

/-- The scratchpad count of HCSPARAMS2, which is split across two fields. -/
def scratchpads (caps : ℕ → ℕ) : ℕ := caps 2 / 2 ^ 27 % 32 ||| (caps 2 / 2 ^ 21 % 32) <<< 5

/-- The placements of `pi4_xhci_dma_layout_make`, and its checks behind them. -/
def layoutPlace (wrap : ℕ → ℕ) (arena : DmaPlan) (caps : ℕ → ℕ) : Except PlanError Layout := do
  let scratch := scratchpads caps
  let (scratchArray, scratchPages, cursor) ← placeScratch wrap 64 scratch
  let (command, cursor) ← place wrap cursor 8192 8192
  let (event, cursor) ← place wrap cursor 8192 8192
  let (erst, cursor) ← place wrap cursor 64 64
  let (inputContext, cursor) ← place wrap cursor 4096 4096
  let (outputContext, cursor) ← place wrap cursor 4096 4096
  let (ep0Ring, cursor) ← place wrap cursor 8192 8192
  let (controlBuffer, cursor) ← place wrap cursor 4096 4096
  let (childOutputContext, cursor) ← place wrap cursor 4096 4096
  let (childEp0Ring, cursor) ← place wrap cursor 8192 8192
  let (childBulkInRing, cursor) ← place wrap cursor 8192 8192
  let (childBulkOutRing, cursor) ← place wrap cursor 8192 8192
  if cursor > arena.size then .error .arena
  else if caps 3 % 2 = 0 ∧ wrap (arena.busBase + cursor) > 2 ^ 32 then .error .address
  else
    .ok ⟨arena.physBase, arena.busBase, arena.size, 0, scratchArray, scratchPages, command, event, erst,
      inputContext, outputContext, ep0Ring, controlBuffer, childOutputContext, childEp0Ring,
      childBulkInRing, childBulkOutRing, cursor, 6, scratch⟩

/-- The arguments of `pi4_xhci_dma_layout_make`. -/
structure LayoutInput where
  arena : DmaPlan
  caps : ℕ → ℕ
  pageSize : ℕ
  usbcmd : ℕ
  usbsts : ℕ
  legacy : ℕ
  pciCommand : ℕ

/-- `pi4_xhci_dma_layout_make` -/
def layoutMake (wrap : ℕ → ℕ) (x : LayoutInput) : Except PlanError Layout :=
  if resetSafe x.usbcmd x.usbsts x.legacy x.pciCommand = false then .error .gate
  else if capsValid x.caps = false ∨ x.caps 1 % 256 < 6 ∨ x.caps 1 / 2 ^ 24 = 0 then .error .caps
  else if x.pageSize % 2 = 0 ∨ x.pageSize / 2 ^ 16 ≠ 0 then .error .pages
  else if x.arena.size = 0 ∨ x.arena.physBase > 2 ^ 64 - 1 - x.arena.size ∨
      x.arena.busBase > 2 ^ 64 - 1 - x.arena.size then .error .arena
  else layoutPlace wrap x.arena x.caps

/-- `PI4_USB_BUS_DEVICE_BYTES` -/
def busDeviceBytes : ℕ := 40960

/-- `pi4_usb_bus_region` -/
def busRegion (wrap : ℕ → ℕ) (used arenaBytes child : ℕ) : Option ℕ :=
  let base := alignUp wrap used 8192
  if child ≥ 4 ∨ base = 2 ^ 64 - 1 ∨ base > arenaBytes ∨ busDeviceBytes > (arenaBytes - base) / 4 then none
  else some (wrap (base + child * busDeviceBytes))

/-- Sums of 64 bits. -/
def wrap64 (n : ℕ) : ℕ := n % 2 ^ 64

/-! ## What is safe -/

/-- A region of a layout, with the alignment that its use requires. -/
structure Region where
  offset : ℕ
  bytes : ℕ
  alignment : ℕ

/-- The regions of a layout, in their order. -/
def Layout.regions (l : Layout) : List Region :=
  ⟨l.dcbaaOffset, 64, 64⟩ ::
    ((if l.scratchpads = 0 then []
      else [⟨l.scratchArrayOffset, 8 * l.scratchpads, 64⟩,
        ⟨l.scratchPagesOffset, 4096 * l.scratchpads, 4096⟩]) ++
    [⟨l.commandOffset, 8192, 4096⟩, ⟨l.eventOffset, 8192, 4096⟩, ⟨l.erstOffset, 64, 64⟩,
      ⟨l.inputContextOffset, 4096, 4096⟩, ⟨l.outputContextOffset, 4096, 4096⟩,
      ⟨l.ep0RingOffset, 8192, 4096⟩, ⟨l.controlBufferOffset, 4096, 4096⟩,
      ⟨l.childOutputContextOffset, 4096, 4096⟩, ⟨l.childEp0RingOffset, 8192, 4096⟩,
      ⟨l.childBulkInRingOffset, 8192, 4096⟩, ⟨l.childBulkOutRingOffset, 8192, 4096⟩])

/-- The rings of a layout. -/
def Layout.rings (l : Layout) : List ℕ :=
  [l.commandOffset, l.eventOffset, l.ep0RingOffset, l.childEp0RingOffset, l.childBulkInRingOffset,
    l.childBulkOutRingOffset]

/-- **What holds of a layout** and of the regions of the children behind it. -/
structure LayoutSafe (arena : DmaPlan) (caps : ℕ → ℕ) (l : Layout) : Prop where
  disjoint : l.regions.Pairwise fun r r' => r.offset + r.bytes ≤ r'.offset
  inside : ∀ r ∈ l.regions, r.offset + r.bytes ≤ l.usedBytes
  size : l.usedBytes ≤ arena.size
  aligned : ∀ r ∈ l.regions, (arena.busBase + r.offset) % r.alignment = 0
  rings : ∀ ring ∈ l.rings, (arena.busBase + ring) / 65536 = (arena.busBase + ring + 4095) / 65536
  childExact : ∀ child, busRegion wrap64 l.usedBytes arena.size child = busRegion id l.usedBytes arena.size child
  childInside : ∀ child offset, busRegion wrap64 l.usedBytes arena.size child = some offset →
    l.usedBytes ≤ offset ∧ offset + busDeviceBytes ≤ arena.size
  childDisjoint : ∀ child child' offset offset', child < child' →
    busRegion wrap64 l.usedBytes arena.size child = some offset →
    busRegion wrap64 l.usedBytes arena.size child' = some offset' → offset + busDeviceBytes ≤ offset'
  low : caps 3 % 2 = 0 → ∀ r ∈ l.regions, arena.busBase + r.offset + r.bytes ≤ 2 ^ 32
  childLow : caps 3 % 2 = 0 → ∀ child offset, busRegion wrap64 l.usedBytes arena.size child = some offset →
    arena.busBase + offset + busDeviceBytes ≤ 2 ^ 32

/-- The end of the scratchpad pages. -/
def scratchEnd (scratch : ℕ) : ℕ :=
  if scratch = 0 then 64 else (64 + scratch * 8 + 4095) / 4096 * 4096 + scratch * 4096

/-- The offset of the first ring. -/
def firstRing (scratch : ℕ) : ℕ := (scratchEnd scratch + 8191) / 8192 * 8192

/-- The bytes that a layout needs. -/
def layoutBytes (scratch : ℕ) : ℕ := firstRing scratch + 0x12000

/-- The checks that come before the placements. -/
structure Gates (x : LayoutInput) : Prop where
  reset : resetSafe x.usbcmd x.usbsts x.legacy x.pciCommand = true
  caps : capsValid x.caps = true ∧ 6 ≤ x.caps 1 % 256 ∧ x.caps 1 / 2 ^ 24 ≠ 0
  pages : x.pageSize % 2 = 1 ∧ x.pageSize / 2 ^ 16 = 0
  arena : x.arena.size ≠ 0 ∧ x.arena.physBase + x.arena.size < 2 ^ 64 ∧
    x.arena.busBase + x.arena.size < 2 ^ 64

/-- **A layout is safe**: no sum wraps, an arena that is too small or too high is reported, and what is
accepted is as it must be. -/
structure DmaSafe (x : LayoutInput) : Prop where
  exact : layoutMake wrap64 x = layoutMake id x
  small : Gates x → x.arena.size < layoutBytes (scratchpads x.caps) → layoutMake wrap64 x = .error .arena
  high : Gates x → layoutBytes (scratchpads x.caps) ≤ x.arena.size → x.caps 3 % 2 = 0 →
    2 ^ 32 < x.arena.busBase + layoutBytes (scratchpads x.caps) → layoutMake wrap64 x = .error .address
  safe : ∀ l, layoutMake wrap64 x = .ok l → LayoutSafe x.arena x.caps l

/-- The children are above 4 GiB, for a controller whose own regions are below it and that has no 64-bit
addresses. -/
def ChildrenHigh (x : LayoutInput) : Prop :=
  Gates x ∧ x.caps 3 % 2 = 0 ∧ layoutBytes (scratchpads x.caps) + 4 * busDeviceBytes ≤ x.arena.size ∧
    x.arena.busBase + layoutBytes (scratchpads x.caps) ≤ 2 ^ 32 ∧
    2 ^ 32 < x.arena.busBase + layoutBytes (scratchpads x.caps) + 4 * busDeviceBytes

/-! ## Placements -/

variable {wrap : ℕ → ℕ} {x : LayoutInput} {cursor alignment bytes v n : ℕ}

/-- The alignments of the layout. -/
def PowerOfUse (alignment : ℕ) : Prop := alignment = 64 ∨ alignment = 4096 ∨ alignment = 8192

theorem alignUp_eq (hw : ∀ n < 2 ^ 64, wrap n = n) (ha : PowerOfUse alignment) (hv : v % alignment = 0)
    (hle : cursor ≤ v) (hlt : v < cursor + alignment) (hsmall : v < 2 ^ 63) :
    alignUp wrap cursor alignment = v := by
  unfold alignUp
  rcases ha with rfl | rfl | rfl
  all_goals
    rw [if_neg (by simp; omega), hw _ (by omega)]
    omega

theorem place_eq (hw : ∀ n < 2 ^ 64, wrap n = n) (ha : PowerOfUse alignment) (hv : v % alignment = 0)
    (hle : cursor ≤ v) (hlt : v < cursor + alignment) (hsmall : v + bytes < 2 ^ 63) (hn : n = v + bytes) :
    place wrap cursor alignment bytes = .ok (v, n) := by
  unfold place
  dsimp only
  rw [alignUp_eq hw ha hv hle hlt (by omega), if_neg (by omega), hw _ (by omega), hn]

theorem scratchpads_lt (caps : ℕ → ℕ) : scratchpads caps < 1024 := by
  unfold scratchpads
  have hlow : caps 2 / 2 ^ 27 % 32 < 2 ^ 10 := by omega
  have hhigh : (caps 2 / 2 ^ 21 % 32) <<< 5 < 2 ^ 10 := by
    rw [Nat.shiftLeft_eq]
    omega
  exact Nat.or_lt_two_pow hlow hhigh

theorem scratchEnd_lt {scratch : ℕ} (h : scratch < 1024) : scratchEnd scratch < 2 ^ 30 := by
  unfold scratchEnd
  split <;> omega

/-- The offset of the scratchpad array, and that of its pages. -/
def scratchOffsets (scratch : ℕ) : ℕ × ℕ :=
  if scratch = 0 then (0, 0) else (64, (64 + scratch * 8 + 4095) / 4096 * 4096)

theorem placeScratch_eq (hw : ∀ n < 2 ^ 64, wrap n = n) {scratch : ℕ} (h : scratch < 1024) :
    placeScratch wrap 64 scratch =
      .ok ((scratchOffsets scratch).1, (scratchOffsets scratch).2, scratchEnd scratch) := by
  unfold placeScratch scratchOffsets scratchEnd
  split
  · rfl
  · have harray : place wrap 64 64 (wrap (scratch * 8)) = .ok (64, 64 + scratch * 8) := by
      rw [hw _ (by omega)]
      exact place_eq hw (.inl rfl) rfl (Nat.le_refl _) (by omega) (by omega) rfl
    have hpages : place wrap (64 + scratch * 8) 4096 (wrap (scratch * 4096)) =
        .ok ((64 + scratch * 8 + 4095) / 4096 * 4096,
          (64 + scratch * 8 + 4095) / 4096 * 4096 + scratch * 4096) := by
      rw [hw _ (by omega)]
      exact place_eq hw (.inr (.inl rfl)) (by omega) (by omega) (by omega) (by omega) rfl
    rw [harray]
    dsimp only [bind, Except.bind]
    rw [hpages]
    rfl

/-- The layout of an arena with some scratchpads. -/
def layoutFor (arena : DmaPlan) (scratch : ℕ) : Layout :=
  let a := firstRing scratch
  ⟨arena.physBase, arena.busBase, arena.size, 0, (scratchOffsets scratch).1, (scratchOffsets scratch).2, a,
    a + 0x2000, a + 0x4000, a + 0x5000, a + 0x6000, a + 0x8000, a + 0xa000, a + 0xb000, a + 0xc000,
    a + 0xe000, a + 0x10000, a + 0x12000, 6, scratch⟩

theorem layoutPlace_eq (hw : ∀ n < 2 ^ 64, wrap n = n) (arena : DmaPlan) (caps : ℕ → ℕ)
    (hbus : arena.busBase + arena.size < 2 ^ 64) :
    layoutPlace wrap arena caps =
      if layoutBytes (scratchpads caps) > arena.size then .error .arena
      else if caps 3 % 2 = 0 ∧ arena.busBase + layoutBytes (scratchpads caps) > 2 ^ 32 then .error .address
      else .ok (layoutFor arena (scratchpads caps)) := by
  have hscratch := scratchpads_lt caps
  have hend := scratchEnd_lt hscratch
  obtain ⟨a, ha⟩ : ∃ a, firstRing (scratchpads caps) = a := ⟨_, rfl⟩
  have haligned : a % 8192 = 0 ∧ scratchEnd (scratchpads caps) ≤ a ∧
      a < scratchEnd (scratchpads caps) + 8192 := by
    rw [← ha]
    unfold firstRing
    omega
  have hring : PowerOfUse 8192 := .inr (.inr rfl)
  have hpage : PowerOfUse 4096 := .inr (.inl rfl)
  have hcommand : place wrap (scratchEnd (scratchpads caps)) 8192 8192 = .ok (a, a + 0x2000) :=
    place_eq hw hring haligned.1 haligned.2.1 haligned.2.2 (by omega) (by omega)
  have hevent : place wrap (a + 0x2000) 8192 8192 = .ok (a + 0x2000, a + 0x4000) :=
    place_eq hw hring (by omega) (Nat.le_refl _) (by omega) (by omega) (by omega)
  have herst : place wrap (a + 0x4000) 64 64 = .ok (a + 0x4000, a + 0x4040) :=
    place_eq hw (.inl rfl) (by omega) (Nat.le_refl _) (by omega) (by omega) (by omega)
  have hinput : place wrap (a + 0x4040) 4096 4096 = .ok (a + 0x5000, a + 0x6000) :=
    place_eq hw hpage (by omega) (by omega) (by omega) (by omega) (by omega)
  have houtput : place wrap (a + 0x6000) 4096 4096 = .ok (a + 0x6000, a + 0x7000) :=
    place_eq hw hpage (by omega) (Nat.le_refl _) (by omega) (by omega) (by omega)
  have hep0 : place wrap (a + 0x7000) 8192 8192 = .ok (a + 0x8000, a + 0xa000) :=
    place_eq hw hring (by omega) (by omega) (by omega) (by omega) (by omega)
  have hcontrol : place wrap (a + 0xa000) 4096 4096 = .ok (a + 0xa000, a + 0xb000) :=
    place_eq hw hpage (by omega) (Nat.le_refl _) (by omega) (by omega) (by omega)
  have hchildOutput : place wrap (a + 0xb000) 4096 4096 = .ok (a + 0xb000, a + 0xc000) :=
    place_eq hw hpage (by omega) (Nat.le_refl _) (by omega) (by omega) (by omega)
  have hchildEp0 : place wrap (a + 0xc000) 8192 8192 = .ok (a + 0xc000, a + 0xe000) :=
    place_eq hw hring (by omega) (Nat.le_refl _) (by omega) (by omega) (by omega)
  have hbulkIn : place wrap (a + 0xe000) 8192 8192 = .ok (a + 0xe000, a + 0x10000) :=
    place_eq hw hring (by omega) (Nat.le_refl _) (by omega) (by omega) (by omega)
  have hbulkOut : place wrap (a + 0x10000) 8192 8192 = .ok (a + 0x10000, a + 0x12000) :=
    place_eq hw hring (by omega) (Nat.le_refl _) (by omega) (by omega) (by omega)
  unfold layoutPlace layoutBytes layoutFor
  simp only [placeScratch_eq hw hscratch, hcommand, hevent, herst, hinput, houtput, hep0, hcontrol,
    hchildOutput, hchildEp0, hbulkIn, hbulkOut, bind, Except.bind, ha]
  split
  · rfl
  · rw [hw _ (by omega)]

/-- **The layout in closed form**: behind the gates it depends on the scratchpads, the size and the bus
base of the arena only. -/
theorem layoutMake_eq (hw : ∀ n < 2 ^ 64, wrap n = n) (h : Gates x) :
    layoutMake wrap x =
      if layoutBytes (scratchpads x.caps) > x.arena.size then .error .arena
      else if x.caps 3 % 2 = 0 ∧ x.arena.busBase + layoutBytes (scratchpads x.caps) > 2 ^ 32 then
        .error .address
      else .ok (layoutFor x.arena (scratchpads x.caps)) := by
  obtain ⟨hreset, ⟨hcaps, hslots, hports⟩, ⟨hpages, hreserved⟩, hsize, hphys, hbus⟩ := h
  unfold layoutMake
  rw [if_neg (by rw [hreset]; decide), if_neg (by rw [hcaps]; simp; omega), if_neg (by omega),
    if_neg (by omega), layoutPlace_eq hw _ _ hbus]

/-- Where a gate fails, no sum is taken. -/
theorem layoutMake_gated (h : ¬Gates x) :
    layoutMake wrap x = layoutMake id x ∧ ∀ l, layoutMake wrap x ≠ .ok l := by
  unfold layoutMake
  split
  · exact ⟨rfl, fun l => by simp⟩
  rename_i hreset
  split
  · exact ⟨rfl, fun l => by simp⟩
  rename_i hcaps
  split
  · exact ⟨rfl, fun l => by simp⟩
  rename_i hpages
  split
  · exact ⟨rfl, fun l => by simp⟩
  rename_i harena
  have hphys := x.arena.physBounded
  have hbus := x.arena.busBounded
  have hsize := x.arena.sizeBounded
  refine absurd ⟨?_, ⟨?_, ?_, ?_⟩, ⟨?_, ?_⟩, ?_, ?_, ?_⟩ h
  · simpa using hreset
  · simp only [not_or] at hcaps
    simpa using hcaps.1
  all_goals omega

theorem wrap64_of_lt : ∀ n < 2 ^ 64, wrap64 n = n := fun _ h => Nat.mod_eq_of_lt h

theorem id_of_lt : ∀ n < 2 ^ 64, id n = n := fun _ _ => rfl

/-! ## The regions -/

theorem firstRing_spec (scratch : ℕ) : firstRing scratch % 8192 = 0 ∧ scratchEnd scratch ≤ firstRing scratch := by
  unfold firstRing
  omega

/-- The regions of the scratchpads are behind the DCBAA and before the rings. -/
theorem scratchOffsets_spec {scratch : ℕ} (h : scratch ≠ 0) :
    (scratchOffsets scratch).1 = 64 ∧ 64 + 8 * scratch ≤ (scratchOffsets scratch).2 ∧
      (scratchOffsets scratch).2 % 4096 = 0 ∧
      (scratchOffsets scratch).2 + 4096 * scratch = scratchEnd scratch := by
  unfold scratchOffsets scratchEnd
  rw [if_neg h, if_neg h]
  dsimp only
  omega

theorem busRegion_eq (hw : ∀ n < 2 ^ 64, wrap n = n) {used size child : ℕ} (hused : used % 8192 = 0)
    (hsmall : used < 2 ^ 32) :
    busRegion wrap used size child =
      if child < 4 ∧ used + 4 * busDeviceBytes ≤ size then some (used + child * busDeviceBytes) else none := by
  unfold busRegion busDeviceBytes
  dsimp only
  rw [alignUp_eq hw (.inr (.inr rfl)) hused (Nat.le_refl _) (by omega) (by omega)]
  by_cases hfits : child < 4 ∧ used + 4 * 40960 ≤ size
  · rw [if_pos hfits, if_neg (by omega), hw _ (by omega)]
  · rw [if_neg hfits, if_pos (by omega)]

/-- What is needed is at most some megabytes, and a multiple of 8 KiB. -/
theorem layoutBytes_spec (caps : ℕ → ℕ) :
    layoutBytes (scratchpads caps) % 8192 = 0 ∧ layoutBytes (scratchpads caps) < 2 ^ 31 := by
  have hend := scratchEnd_lt (scratchpads_lt caps)
  unfold layoutBytes firstRing
  omega

/-- A region ends before another one. -/
def Region.Before (r r' : Region) : Prop := r.offset + r.bytes ≤ r'.offset

instance : IsTrans Region Region.Before where
  trans := by
    intro r r' r'' h h'
    unfold Region.Before at h h' ⊢
    omega

/-- The regions of a layout are behind each other, and inside of it. -/
theorem layoutFor_regions (arena : DmaPlan) (scratch : ℕ) :
    (layoutFor arena scratch).regions.Pairwise Region.Before ∧
      (∀ r ∈ (layoutFor arena scratch).regions, r.offset + r.bytes ≤ layoutBytes scratch) ∧
      ∀ r ∈ (layoutFor arena scratch).regions,
        r.offset % r.alignment = 0 ∧ 65536 % r.alignment = 0 := by
  obtain ⟨haligned, hfirst⟩ := firstRing_spec scratch
  rw [← List.isChain_iff_pairwise]
  unfold Layout.regions layoutBytes layoutFor Region.Before
  dsimp only
  by_cases hscratch : scratch = 0
  · have hend : scratchEnd scratch = 64 := if_pos hscratch
    rw [if_pos hscratch]
    simp only [List.nil_append, List.isChain_cons_cons, List.isChain_singleton, List.mem_cons,
      forall_eq_or_imp, List.not_mem_nil, false_imp_iff, implies_true, and_true, true_and]
    omega
  · obtain ⟨harray, hpages, hpagesAligned, hend⟩ := scratchOffsets_spec hscratch
    rw [if_neg hscratch]
    simp only [List.cons_append, List.nil_append, List.isChain_cons_cons, List.isChain_singleton,
      List.mem_cons, forall_eq_or_imp, List.not_mem_nil, false_imp_iff, implies_true, and_true,
      true_and]
    omega

/-- A ring of 4 KiB does not cross a boundary of 64 KiB. -/
theorem layoutFor_rings (arena : DmaPlan) (scratch : ℕ) : ∀ ring ∈ (layoutFor arena scratch).rings,
    (arena.busBase + ring) / 65536 = (arena.busBase + ring + 4095) / 65536 := by
  obtain ⟨haligned, -⟩ := firstRing_spec scratch
  have hbus := arena.busAligned
  unfold Layout.rings layoutFor
  dsimp only
  simp only [List.mem_cons, forall_eq_or_imp, List.not_mem_nil, false_imp_iff, implies_true, and_true]
  omega

/-! ## Safety -/

theorem layoutMake_ok (h : Gates x) {l : Layout} (hl : layoutMake wrap64 x = .ok l) :
    l = layoutFor x.arena (scratchpads x.caps) ∧ layoutBytes (scratchpads x.caps) ≤ x.arena.size ∧
      (x.caps 3 % 2 = 0 → x.arena.busBase + layoutBytes (scratchpads x.caps) ≤ 2 ^ 32) := by
  rw [layoutMake_eq wrap64_of_lt h] at hl
  split at hl
  · simp at hl
  split at hl
  · simp at hl
  rename_i hsize haddress
  refine ⟨(Except.ok.inj hl).symm, by omega, fun hac64 => ?_⟩
  by_contra hhigh
  exact haddress ⟨hac64, by omega⟩

/-- An accepted layout is safe if its children are not above 4 GiB. -/
theorem layoutFor_safe (h : Gates x) (hsize : layoutBytes (scratchpads x.caps) ≤ x.arena.size)
    (haddress : x.caps 3 % 2 = 0 → x.arena.busBase + layoutBytes (scratchpads x.caps) ≤ 2 ^ 32)
    (hchildren : ¬ChildrenHigh x) :
    LayoutSafe x.arena x.caps (layoutFor x.arena (scratchpads x.caps)) := by
  obtain ⟨hdisjoint, hinside, haligned⟩ := layoutFor_regions x.arena (scratchpads x.caps)
  obtain ⟨hmultiple, hsmall⟩ := layoutBytes_spec x.caps
  have hsmall' : layoutBytes (scratchpads x.caps) < 2 ^ 32 := by omega
  have hdevice : busDeviceBytes = 40960 := rfl
  have hregion : ∀ child, busRegion wrap64 (layoutFor x.arena (scratchpads x.caps)).usedBytes
      x.arena.size child = if child < 4 ∧ layoutBytes (scratchpads x.caps) + 4 * busDeviceBytes ≤ x.arena.size
        then some (layoutBytes (scratchpads x.caps) + child * busDeviceBytes) else none :=
    fun child => busRegion_eq wrap64_of_lt hmultiple hsmall'
  have hsome : ∀ child offset, busRegion wrap64 (layoutFor x.arena (scratchpads x.caps)).usedBytes
      x.arena.size child = some offset → child < 4 ∧
        layoutBytes (scratchpads x.caps) + 4 * busDeviceBytes ≤ x.arena.size ∧
        offset = layoutBytes (scratchpads x.caps) + child * busDeviceBytes := by
    intro child offset hoffset
    rw [hregion child] at hoffset
    split at hoffset
    · rename_i hfits
      exact ⟨hfits.1, hfits.2, (Option.some.inj hoffset).symm⟩
    · cases hoffset
  refine ⟨hdisjoint, hinside, hsize, ?_, layoutFor_rings _ _, ?_, ?_, ?_, ?_, ?_⟩
  · intro r hr
    obtain ⟨hoffset, halignment⟩ := haligned r hr
    have hbus := Nat.dvd_trans (Nat.dvd_of_mod_eq_zero halignment) (Nat.dvd_of_mod_eq_zero x.arena.busAligned)
    exact Nat.mod_eq_zero_of_dvd (Nat.dvd_add hbus (Nat.dvd_of_mod_eq_zero hoffset))
  · intro child
    exact (hregion child).trans (busRegion_eq id_of_lt hmultiple hsmall').symm
  · intro child offset hoffset
    obtain ⟨hchild, hfits, rfl⟩ := hsome child offset hoffset
    show layoutBytes (scratchpads x.caps) ≤ _ ∧ _
    rw [hdevice] at hfits ⊢
    omega
  · intro child child' offset offset' hlt hoffset hoffset'
    obtain ⟨-, -, rfl⟩ := hsome child offset hoffset
    obtain ⟨-, -, rfl⟩ := hsome child' offset' hoffset'
    rw [hdevice]
    omega
  · intro hac64 r hr
    have hlow := haddress hac64
    have hend : r.offset + r.bytes ≤ layoutBytes (scratchpads x.caps) := hinside r hr
    omega
  · intro hac64 child offset hoffset
    obtain ⟨hchild, hfits, rfl⟩ := hsome child offset hoffset
    by_contra hhigh
    refine hchildren ⟨h, hac64, hfits, haddress hac64, ?_⟩
    rw [hdevice] at hhigh ⊢
    omega

/-- Children above 4 GiB are handed out. -/
theorem childrenHigh_unsafe (h : ChildrenHigh x) : ¬DmaSafe x := by
  obtain ⟨hgates, hac64, hfits, haddress, hhigh⟩ := h
  intro hsafe
  obtain ⟨hmultiple, hsmall⟩ := layoutBytes_spec x.caps
  have hok : layoutMake wrap64 x = .ok (layoutFor x.arena (scratchpads x.caps)) := by
    rw [layoutMake_eq wrap64_of_lt hgates, if_neg (by omega), if_neg (by omega)]
  have hlast : busRegion wrap64 (layoutFor x.arena (scratchpads x.caps)).usedBytes x.arena.size 3 =
      some (layoutBytes (scratchpads x.caps) + 3 * busDeviceBytes) := by
    refine (busRegion_eq wrap64_of_lt hmultiple (hsmall.trans (by decide))).trans ?_
    exact if_pos ⟨by decide, hfits⟩
  have hlow := (hsafe.safe _ hok).childLow hac64 3 _ hlast
  omega

/-- **A layout is safe exactly if its children are not above 4 GiB** for a controller without 64-bit
addresses whose other regions are below it. -/
theorem dma_safe_iff (x : LayoutInput) : DmaSafe x ↔ ¬ChildrenHigh x := by
  refine ⟨fun hsafe hhigh => childrenHigh_unsafe hhigh hsafe, fun hchildren => ?_⟩
  by_cases hgates : Gates x
  · have hmake := layoutMake_eq wrap64_of_lt hgates
    refine ⟨?_, ?_, ?_, ?_⟩
    · rw [hmake, layoutMake_eq id_of_lt hgates]
    · intro _ hsmall
      rw [hmake, if_pos hsmall]
    · intro _ hsize hac64 hhigh
      rw [hmake, if_neg (by omega), if_pos ⟨hac64, hhigh⟩]
    · intro l hl
      obtain ⟨rfl, hsize, haddress⟩ := layoutMake_ok hgates hl
      exact layoutFor_safe hgates hsize haddress hchildren
  · obtain ⟨hexact, hnone⟩ := @layoutMake_gated wrap64 x hgates
    exact ⟨hexact, fun h => absurd h hgates, fun h => absurd h hgates,
      fun l hl => absurd hl (hnone l)⟩

/-- An arena of 1 MiB that ends above 4 GiB, and a controller without 64-bit addresses. -/
def highInput : LayoutInput where
  arena := ⟨0x3ffe0000, 0xfffe0000, 0x100000, by decide, by decide, by decide, by decide, by decide⟩
  caps := fun i => if i = 0 then 0x01000020 else if i = 1 then 0x01000010 else 0
  pageSize := 1
  usbcmd := 0
  usbsts := 1
  legacy := 0x01000000
  pciCommand := 2

theorem high_children_unsafe : ¬DmaSafe highInput := by
  refine childrenHigh_unsafe ⟨⟨by decide, ?_, by decide, ?_⟩, by decide, ?_, ?_, ?_⟩ <;> decide

end ZealBringup.Pi4
