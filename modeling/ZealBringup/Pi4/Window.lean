import ZealBringup.Boot.MemoryMap

/-!
# The register window of the controller

`pi4_xhci_outbound_window_decode`, `pi4_xhci_bar_plan` and `pi4_xhci_bar_offset_cpu` of
`pi4_xhci_probe.h`: from the live registers of the bridge and the base register of the controller to the
address at which the processor reaches a register.

* `OutboundWindow`, `BarPlan` — what they compute.
* `decode_bounds` — a window that is decoded is far from the end of the address space.
* `bar_access_safe` — an access that is let through stays in both ranges, and the two translations agree.
-/

namespace ZealBringup.Pi4

open ZealBringup.Boot (u64)
open ZealBringup.Fdt (ZealPi4Pcie uint64Max pi4PcieFdtPresent pi4PcieFdtEnabled pi4PcieFdtMem)

/-! ## The functions -/

/-- The fields of `struct zeal_handoff` that are read; the memory range is in `uint64_t` fields. -/
structure ZealHandoff where
  size : ℕ
  revision : ℕ
  pi4Pcie : ZealPi4Pcie
  words : pi4Pcie.memBusBase ≤ uint64Max ∧ pi4Pcie.memCpuBase ≤ uint64Max ∧ pi4Pcie.memSize ≤ uint64Max

/-- `offsetof(struct zeal_handoff, pi4_pcie) + sizeof(h->pi4_pcie)`, with the 256 entries of `mem`. -/
def pi4PcieEnd : ℕ := 104 + 16 + 256 * 24 + 16 + 8 + 72

/-- `struct pi4_xhci_outbound_window` -/
structure OutboundWindow where
  busBase : ℕ
  cpuBase : ℕ
  size : ℕ
  deriving DecidableEq

/-- `struct pi4_xhci_bar_plan` -/
structure BarPlan where
  busBase : ℕ
  cpuBase : ℕ
  deriving DecidableEq

/-- `PI4_XHCI_CAP_BYTES` -/
def pi4XhciCapBytes : ℕ := 0x20

/-- `pi4_xhci_outbound_window_decode` -/
def pi4XhciOutboundWindowDecode (busLo busHi baseLimit baseHi limitHi : UInt32) :
    Except ℤ OutboundWindow :=
  let mb : ℕ := 2 ^ 20
  if baseHi &&& ~~~0xff ≠ 0 ∨ limitHi &&& ~~~0xff ≠ 0 then .error (-1)
  else
    let baseMb := baseHi.toNat <<< 12 ||| (baseLimit &&& 0x0000fff0).toNat >>> 4
    let limitMb := limitHi.toNat <<< 12 ||| (baseLimit &&& 0xfff00000).toNat >>> 20
    if limitMb < baseMb then .error (-2)
    else
      let sizeMb := u64 (limitMb - baseMb + 1)
      if sizeMb > uint64Max / mb ∨ baseMb > uint64Max / mb then .error (-3)
      else
        let out : OutboundWindow :=
          ⟨busHi.toNat <<< 32 ||| busLo.toNat, u64 (baseMb * mb), u64 (sizeMb * mb)⟩
        if out.size = 0 ∨ out.busBase > uint64Max - (out.size - 1) ∨
            out.cpuBase > uint64Max - (out.size - 1) then .error (-4)
        else .ok out

/-- The flags that both translations require. -/
def pi4XhciRequired (h : ZealHandoff) : Bool :=
  let required := pi4PcieFdtPresent ||| pi4PcieFdtEnabled ||| pi4PcieFdtMem
  h.pi4Pcie.flags &&& required = required

/-- `pi4_xhci_bar_plan` -/
def pi4XhciBarPlan (h : ZealHandoff) (barLow barHigh : UInt32) (window : OutboundWindow) :
    Except ℤ BarPlan :=
  let fdt := h.pi4Pcie
  if h.revision < 5 ∨ h.size < pi4PcieEnd ∨ pi4XhciRequired h = false ∨ fdt.memSize = 0 ∨
      fdt.memBusBase > uint64Max - fdt.memSize ∨ fdt.memCpuBase > uint64Max - fdt.memSize ∨
      window.size = 0 ∨ window.busBase > uint64Max - (window.size - 1) ∨
      window.cpuBase > uint64Max - (window.size - 1) then .error (-1)
  else if barLow &&& 1 ≠ 0 ∨ barLow &&& 6 ≠ 4 then .error (-2)
  else
    let busBase := barHigh.toNat <<< 32 ||| (barLow &&& ~~~0x0f).toNat
    if busBase = 0 ∨ busBase &&& 3 ≠ 0 ∨ busBase < fdt.memBusBase then .error (-3)
    else
      let fdtDelta := busBase - fdt.memBusBase
      if fdtDelta > fdt.memSize ∨ pi4XhciCapBytes > fdt.memSize - fdtDelta ∨
          window.busBase < fdt.memBusBase ∨ window.busBase - fdt.memBusBase > fdt.memSize ∨
          window.size > fdt.memSize - (window.busBase - fdt.memBusBase) then .error (-4)
      else if busBase < window.busBase then .error (-4)
      else
        let windowDelta := busBase - window.busBase
        if windowDelta > window.size ∨ pi4XhciCapBytes > window.size - windowDelta ∨
            window.cpuBase > uint64Max - windowDelta then .error (-4)
        else
          let cpuBase := u64 (window.cpuBase + windowDelta)
          if cpuBase ≥ 2 ^ 48 ∨ pi4XhciCapBytes > 2 ^ 48 - cpuBase then .error (-5)
          else .ok ⟨busBase, cpuBase⟩

/-- `pi4_xhci_bar_offset_cpu` -/
def pi4XhciBarOffsetCpu (h : ZealHandoff) (barBus : ℕ) (window : OutboundWindow)
    (offset bytes : UInt32) : Except ℤ ℕ :=
  let fdt := h.pi4Pcie
  let offset := offset.toNat
  let bytes := bytes.toNat
  if bytes = 0 ∨ h.revision < 5 ∨ h.size < pi4PcieEnd ∨ pi4XhciRequired h = false ∨
      fdt.memSize = 0 ∨ window.size = 0 ∨ fdt.memBusBase > uint64Max - fdt.memSize ∨
      window.busBase > uint64Max - window.size ∨ window.cpuBase > uint64Max - window.size ∨
      barBus > uint64Max - offset ∨ barBus < fdt.memBusBase ∨ barBus < window.busBase then .error (-1)
  else
    let fdtDelta := barBus - fdt.memBusBase
    let windowDelta := barBus - window.busBase
    if fdtDelta > fdt.memSize ∨ offset > fdt.memSize - fdtDelta ∨
        bytes > fdt.memSize - fdtDelta - offset ∨ windowDelta > window.size ∨
        offset > window.size - windowDelta ∨ bytes > window.size - windowDelta - offset then
      .error (-3)
    else
      let accessDelta := u64 (windowDelta + offset)
      if window.cpuBase > uint64Max - accessDelta then .error (-4)
      else
        let cpuAddress := u64 (window.cpuBase + accessDelta)
        if cpuAddress ≥ 2 ^ 48 ∨ bytes > 2 ^ 48 - cpuAddress then .error (-5) else .ok cpuAddress

/-! ## What is decoded -/

theorem lt_of_high_zero {r : UInt32} (h : r &&& ~~~0xff = 0) : r.toNat < 2 ^ 8 := by
  have hmask : ∀ i < 32, 8 ≤ i → (0xffffff00).testBit i = true := by decide
  have hand : r.toNat &&& 0xffffff00 = 0 := congrArg UInt32.toNat h
  refine Nat.lt_pow_two_of_testBit _ fun i hi => ?_
  by_cases h32 : i < 32
  · have hbit := Nat.testBit_and r.toNat 0xffffff00 i
    rw [hand, Nat.zero_testBit, hmask i h32 hi, Bool.and_true] at hbit
    exact hbit.symm
  · exact Nat.testBit_lt_two_pow (lt_of_lt_of_le r.toNat_lt (Nat.pow_le_pow_right (by omega) (by omega)))

theorem megabytes_lt {hi : UInt32} {lo : ℕ} (hhi : hi &&& ~~~0xff = 0) (hlo : lo < 2 ^ 12) :
    hi.toNat <<< 12 ||| lo < 2 ^ 20 := by
  have h := lt_of_high_zero hhi
  refine Nat.or_lt_two_pow ?_ (by omega)
  rw [Nat.shiftLeft_eq]
  omega

theorem address_lt (hi : UInt32) {lo : ℕ} (hlo : lo < 2 ^ 32) : hi.toNat <<< 32 ||| lo < 2 ^ 64 := by
  have h := hi.toNat_lt
  refine Nat.or_lt_two_pow ?_ (by omega)
  rw [Nat.shiftLeft_eq]
  omega

/-- A window of at least one byte that ends below the end of the address spaces. -/
structure OutboundWindow.Bounded (w : OutboundWindow) : Prop where
  pos : 0 < w.size
  bus : w.busBase + w.size ≤ 2 ^ 64
  cpu : w.cpuBase + w.size ≤ 2 ^ 40

/-- **What is decoded** is far from the end of the processor's address space. -/
theorem decode_bounds {busLo busHi baseLimit baseHi limitHi : UInt32} {w : OutboundWindow}
    (h : pi4XhciOutboundWindowDecode busLo busHi baseLimit baseHi limitHi = .ok w) : w.Bounded := by
  unfold pi4XhciOutboundWindowDecode at h
  dsimp only at h
  split_ifs at h with hhigh horder hlarge hwrap
  simp only [not_or, ne_eq, not_not] at hhigh
  have hbase : (baseLimit &&& 0x0000fff0).toNat >>> 4 < 2 ^ 12 := by
    have hle : (baseLimit &&& 0x0000fff0).toNat ≤ 0x0000fff0 := Nat.and_le_right
    rw [Nat.shiftRight_eq_div_pow]
    omega
  have hlimit : (baseLimit &&& 0xfff00000).toNat >>> 20 < 2 ^ 12 := by
    have hlt := (baseLimit &&& 0xfff00000).toNat_lt
    rw [Nat.shiftRight_eq_div_pow]
    omega
  have hbaseMb := megabytes_lt hhigh.1 hbase
  have hlimitMb := megabytes_lt hhigh.2 hlimit
  have haddress := address_lt busHi busLo.toNat_lt
  generalize busHi.toNat <<< 32 ||| busLo.toNat = bus at haddress h hwrap
  generalize baseHi.toNat <<< 12 ||| (baseLimit &&& 0x0000fff0).toNat >>> 4 = base at *
  generalize limitHi.toNat <<< 12 ||| (baseLimit &&& 0xfff00000).toNat >>> 20 = limit at *
  obtain rfl := Except.ok.inj h
  simp only [u64, uint64Max] at hwrap ⊢
  refine ⟨?_, ?_, ?_⟩
  · dsimp only
    omega
  · dsimp only
    omega
  · dsimp only
    omega

/-! ## What is let through -/

/-- A range of addresses inside another one. -/
def Within (base size lo bytes : ℕ) : Prop := lo ≤ base ∧ base + size ≤ lo + bytes

variable {h : ZealHandoff} {w : OutboundWindow} {bar : BarPlan}

/-- What `pi4_xhci_bar_plan` establishes. -/
structure BarPlanned (h : ZealHandoff) (w : OutboundWindow) (bar : BarPlan) : Prop where
  handoff : ¬h.revision < 5 ∧ ¬h.size < pi4PcieEnd ∧ ¬pi4XhciRequired h = false ∧
    ¬h.pi4Pcie.memSize = 0 ∧ h.pi4Pcie.memBusBase ≤ uint64Max - h.pi4Pcie.memSize
  window : Within w.busBase w.size h.pi4Pcie.memBusBase h.pi4Pcie.memSize
  fdt : Within bar.busBase pi4XhciCapBytes h.pi4Pcie.memBusBase h.pi4Pcie.memSize
  header : Within bar.busBase pi4XhciCapBytes w.busBase w.size
  translated : bar.cpuBase + w.busBase = bar.busBase + w.cpuBase
  low : bar.cpuBase + pi4XhciCapBytes ≤ 2 ^ 48

theorem barPlan_spec {barLow barHigh : UInt32} (hw : w.Bounded)
    (hbar : pi4XhciBarPlan h barLow barHigh w = .ok bar) : BarPlanned h w bar := by
  obtain ⟨hpos, hbus, hcpu⟩ := hw
  unfold pi4XhciBarPlan at hbar
  dsimp only at hbar
  split_ifs at hbar with hgate htype hbase hfdt hbelow hwindow hlow
  obtain rfl := Except.ok.inj hbar
  generalize barHigh.toNat <<< 32 ||| (barLow &&& ~~~0x0f).toNat = base at *
  simp only [not_or, Nat.not_lt] at hgate hbase hfdt hbelow hwindow hlow
  obtain ⟨hrevision, hsize, hrequired, hmem, hmemBus, hmemCpu, -, -, -⟩ := hgate
  obtain ⟨hf₁, hf₂, hf₃, hf₄, hf₅⟩ := hfdt
  obtain ⟨hw₁, hw₂, hw₃⟩ := hwindow
  have hsum : u64 (w.cpuBase + (base - w.busBase)) = w.cpuBase + (base - w.busBase) := by
    unfold u64
    omega
  rw [hsum] at hlow ⊢
  have hcap : pi4XhciCapBytes = 32 := rfl
  refine ⟨⟨Nat.not_lt.mpr hrevision, Nat.not_lt.mpr hsize, hrequired, hmem, hmemBus⟩, ⟨hf₃, ?_⟩,
    ⟨hbase.2.2, ?_⟩, ⟨hbelow, ?_⟩, ?_, ?_⟩
  · omega
  · show base + _ ≤ _
    omega
  · show base + _ ≤ _
    omega
  · show w.cpuBase + (base - w.busBase) + w.busBase = base + w.cpuBase
    omega
  · show w.cpuBase + (base - w.busBase) + _ ≤ _
    omega

/-- What is true of an access of some bytes at an offset, and of the address that it gets. -/
structure AccessSafe (h : ZealHandoff) (w : OutboundWindow) (barBus offset bytes cpu : ℕ) : Prop where
  fdt : Within (barBus + offset) bytes h.pi4Pcie.memBusBase h.pi4Pcie.memSize
  window : Within (barBus + offset) bytes w.busBase w.size
  translated : cpu + w.busBase = barBus + offset + w.cpuBase
  low : cpu + bytes ≤ 2 ^ 48
  noWrap : barBus + offset + bytes ≤ 2 ^ 64

theorem barOffsetCpu_spec (hw : w.Bounded) {barBus cpu : ℕ} {offset bytes : UInt32}
    (hcpu : pi4XhciBarOffsetCpu h barBus w offset bytes = .ok cpu) :
    AccessSafe h w barBus offset.toNat bytes.toNat cpu := by
  obtain ⟨hpos, hbus, hend⟩ := hw
  unfold pi4XhciBarOffsetCpu at hcpu
  dsimp only at hcpu
  split_ifs at hcpu with hgate hrange hwrap hlow
  obtain rfl := Except.ok.inj hcpu
  simp only [not_or, Nat.not_lt] at hgate hrange hwrap hlow
  obtain ⟨-, -, -, -, -, -, -, -, -, -, hfdt, hwindow⟩ := hgate
  obtain ⟨hr₁, hr₂, hr₃, hr₄, hr₅, hr₆⟩ := hrange
  have hdelta : u64 (barBus - w.busBase + offset.toNat) = barBus - w.busBase + offset.toNat := by
    unfold u64
    omega
  rw [hdelta] at hwrap hlow ⊢
  have hsum : u64 (w.cpuBase + (barBus - w.busBase + offset.toNat)) =
      w.cpuBase + (barBus - w.busBase + offset.toNat) := by
    unfold u64
    omega
  rw [hsum] at hlow ⊢
  refine ⟨⟨?_, ?_⟩, ⟨?_, ?_⟩, ?_, ?_, ?_⟩ <;> omega

/-- **The capability header** is reached at the address of the plan. -/
theorem barOffsetCpu_header (hw : w.Bounded) (hplan : BarPlanned h w bar) {n : UInt32}
    (hpos : 0 < n.toNat) (hn : n.toNat ≤ pi4XhciCapBytes) :
    pi4XhciBarOffsetCpu h bar.busBase w 0 n = .ok bar.cpuBase := by
  obtain ⟨hsize, hbus, hcpu⟩ := hw
  obtain ⟨⟨hrevision, hhandoff, hrequired, hmem, hmemBus⟩, ⟨hw₁, hw₂⟩, ⟨hf₁, hf₂⟩, ⟨hh₁, hh₂⟩,
    htranslated, hlow⟩ := hplan
  obtain ⟨-, -, hword⟩ := h.words
  have hzero : (0 : UInt32).toNat = 0 := rfl
  unfold pi4XhciCapBytes at *
  unfold uint64Max at hmemBus hword
  unfold pi4XhciBarOffsetCpu
  dsimp only
  rw [hzero]
  simp only [uint64Max, Nat.add_zero, Nat.sub_zero]
  have hdelta : u64 (bar.busBase - w.busBase) = bar.busBase - w.busBase := by
    unfold u64
    omega
  have hsum : u64 (w.cpuBase + (bar.busBase - w.busBase)) = bar.cpuBase := by
    unfold u64
    omega
  rw [if_neg, if_neg, hdelta, if_neg, hsum, if_neg]
  · omega
  · omega
  · omega
  · simp only [not_or]
    refine ⟨?_, hrevision, hhandoff, hrequired, hmem, ?_, ?_, ?_, ?_, ?_, ?_, ?_⟩ <;> omega

/-- **Every access to a register stays inside the live window.** -/
structure BarSafe (h : ZealHandoff) (w : OutboundWindow) (bar : BarPlan) : Prop where
  access : ∀ (offset bytes : UInt32) cpu, pi4XhciBarOffsetCpu h bar.busBase w offset bytes = .ok cpu →
    AccessSafe h w bar.busBase offset.toNat bytes.toNat cpu
  header : ∀ n : UInt32, 0 < n.toNat → n.toNat ≤ pi4XhciCapBytes →
    pi4XhciBarOffsetCpu h bar.busBase w 0 n = .ok bar.cpuBase
  additive : ∀ (offset offset' bytes bytes' : UInt32) cpu cpu',
    pi4XhciBarOffsetCpu h bar.busBase w offset bytes = .ok cpu →
    pi4XhciBarOffsetCpu h bar.busBase w offset' bytes' = .ok cpu' →
    cpu' + offset.toNat = cpu + offset'.toNat
  refused : ∀ offset bytes : UInt32,
    ¬(Within (bar.busBase + offset.toNat) bytes.toNat h.pi4Pcie.memBusBase h.pi4Pcie.memSize ∧
      Within (bar.busBase + offset.toNat) bytes.toNat w.busBase w.size) →
    ∃ code, pi4XhciBarOffsetCpu h bar.busBase w offset bytes = .error code

theorem bar_access_safe {busLo busHi baseLimit baseHi limitHi barLow barHigh : UInt32}
    (hw : pi4XhciOutboundWindowDecode busLo busHi baseLimit baseHi limitHi = .ok w)
    (hbar : pi4XhciBarPlan h barLow barHigh w = .ok bar) : BarSafe h w bar := by
  have hbounded := decode_bounds hw
  have hplan := barPlan_spec hbounded hbar
  refine ⟨fun offset bytes cpu => barOffsetCpu_spec hbounded,
    fun n hpos hn => barOffsetCpu_header hbounded hplan hpos hn, ?_, ?_⟩
  · intro offset offset' bytes bytes' cpu cpu' hcpu hcpu'
    have htranslated := (barOffsetCpu_spec hbounded hcpu).translated
    have htranslated' := (barOffsetCpu_spec hbounded hcpu').translated
    omega
  · intro offset bytes hout
    cases hcpu : pi4XhciBarOffsetCpu h bar.busBase w offset bytes with
    | error code => exact ⟨code, rfl⟩
    | ok cpu =>
      have hsafe := barOffsetCpu_spec hbounded hcpu
      exact absurd ⟨hsafe.fdt, hsafe.window⟩ hout

/-- The window and the controller of a board. -/
theorem bar_access_safe_board :
    BarSafe ⟨pi4PcieEnd, 5, ⟨11, 0, 0, 0, 0xc0000000, 0x600000000, 0x40000000, 0, 0, 0⟩, by decide⟩
      ⟨0xf8000000, 0x600000000, 0x04000000⟩ ⟨0xf8000000, 0x600000000⟩ :=
  @bar_access_safe _ _ _ 0xf8000000 0 0x03f00000 6 6 0xf8000004 0 (by decide) (by decide)

end ZealBringup.Pi4
