import ZealBringup.Fdt.Parser
import ZealBringup.Lib.Regions

/-!
# The memory map that the booter hands to the kernel

`zealbooter.c` copies the map of Limine into a table of 256 entries, places the kernel, and takes
the kernel, a page-table pool and, on the Pi, a DMA arena out of the table.

* `allocPhysHhdm` — where the kernel image is placed.
* `handoffReserveKernel`, `handoffReservePtPool`, `pi4UsbDmaReserve` — the reservations.
* `bootMap` — the booter's sequence of them.
-/

namespace ZealBringup.Boot

open Regions
open ZealBringup.Fdt (ZealPi4Pcie uint64Max pi4PcieFdtPresent pi4PcieFdtEnabled pi4PcieFdtDma)

/-- `uint64_t` arithmetic. -/
def u64 (n : ℕ) : ℕ := n % 2 ^ 64

/-- `align_up`, for an `a` that is a power of two. -/
def alignUp (v a : ℕ) : ℕ := u64 (v + a - 1) / a * a

/-- `ZEAL_MEM_*`. -/
inductive ZealMemType where
  | usable
  | reserved
  | acpi
  | acpiNvs
  | bad
  | modules
  | reclaim
  | kernel
  | pagetable
  | usbDma
deriving DecidableEq, Repr

/-- `struct zeal_mem_entry`. -/
abbrev ZealMemEntry := Region ZealMemType

/-- `LIMINE_MEMMAP_*`; all codes that the booter does not name are `other`. -/
inductive LimineMemmapType where
  | usable
  | bootloaderReclaimable
  | acpiReclaimable
  | acpiNvs
  | badMemory
  | executableAndModules
  | other (code : ℕ)
deriving DecidableEq, Repr

/-- `struct limine_memmap_entry`. -/
abbrev LimineMemmapEntry := Region LimineMemmapType

/-- `limine_type_to_zeal`. -/
def limineTypeToZeal : LimineMemmapType → ZealMemType
  | .usable => .usable
  | .bootloaderReclaimable => .reclaim
  | .acpiReclaimable => .acpi
  | .acpiNvs => .acpiNvs
  | .badMemory => .bad
  | .executableAndModules => .modules
  | .other _ => .reserved

/-- `ZEAL_MEM_MAX`. -/
def zealMemMax : ℕ := 256

/-- One round of the copy loop. -/
def copyEntry (e : LimineMemmapEntry) : ZealMemEntry := ⟨e.base, e.length, limineTypeToZeal e.type⟩

/-- The copy loop: the entries that fit the table. -/
def copyMemmap (entries : List LimineMemmapEntry) : List ZealMemEntry :=
  (entries.take zealMemMax).map copyEntry

/-! ## The kernel -/

/-- Where the kernel would start in an entry. -/
def kernelBase (e : LimineMemmapEntry) (align : ℕ) : ℕ :=
  if alignUp e.base align < 0x400000 then alignUp 0x400000 align else alignUp e.base align

/-- The loop of `alloc_phys_hhdm`, from the `best` so far. -/
def allocLoop (size align : ℕ) : List LimineMemmapEntry → ℕ → ℕ
  | [], best => best
  | e :: entries, best =>
      if e.type ≠ .usable then allocLoop size align entries best
      else if kernelBase e align ≥ u64 (e.base + e.length) then allocLoop size align entries best
      else if u64 (e.base + e.length) - kernelBase e align < size then
        allocLoop size align entries best
      else if u64 (kernelBase e align + size) > u64 (best + size) ∨ best = 0 then
        allocLoop size align entries (kernelBase e align)
      else allocLoop size align entries best

/-- `alloc_phys_hhdm` on the entries of the map: `g_kernel_phys` and `g_kernel_size`. -/
def allocPhysHhdm (entries : List LimineMemmapEntry) (size align : ℕ) : Option (ℕ × ℕ) :=
  let size := alignUp size align
  let best := allocLoop size align entries 0
  if best = 0 then none else some (best, size)

/-- The body of the loop of `handoff_reserve_kernel` at entry `i`, for the kernel from `kb` to `ke`;
`true` where it returns. -/
def reserveKernelStep (kb ke size : ℕ) (mem : List ZealMemEntry) (i : ℕ) (entry : ZealMemEntry) :
    List ZealMemEntry × Bool :=
  let b := entry.base
  let e := u64 (b + entry.length)
  if entry.type ≠ .usable then (mem, false)
  else if ke ≤ b ∨ kb ≥ e then (mem, false)
  else if b < kb ∧ e > ke ∧ mem.length + 1 < zealMemMax then
    (mem.set i { entry with length := kb - b } ++ [⟨ke, e - ke, .usable⟩], false)
  else if b < kb ∧ e > kb ∧ e ≤ ke then (mem.set i { entry with length := kb - b }, false)
  else if b ≥ kb ∧ b < ke ∧ e > ke then
    (mem.set i { entry with base := ke, length := e - ke }, false)
  else if b ≥ kb ∧ e ≤ ke then (mem.set i ⟨kb, size, .kernel⟩, true)
  else (mem, false)

/-- The loop of `handoff_reserve_kernel` from entry `i` on, with so many entries to go. -/
def reserveKernelLoop (kb ke size : ℕ) : ℕ → ℕ → List ZealMemEntry → List ZealMemEntry × Bool
  | 0, _, mem => (mem, false)
  | left + 1, i, mem =>
      if mem.length < zealMemMax then
        match mem[i]? with
        | none => (mem, false)
        | some entry =>
            match reserveKernelStep kb ke size mem i entry with
            | (mem, true) => (mem, true)
            | (mem, false) => reserveKernelLoop kb ke size left (i + 1) mem
      else (mem, false)

/-- `handoff_reserve_kernel`. -/
def handoffReserveKernel (kernelPhys kernelSize : ℕ) (mem : List ZealMemEntry) :
    List ZealMemEntry :=
  if kernelPhys = 0 ∨ kernelSize = 0 ∨ mem.length ≥ zealMemMax then mem
  else
    match reserveKernelLoop kernelPhys (u64 (kernelPhys + kernelSize)) kernelSize mem.length 0 mem with
    | (mem, true) => mem
    | (mem, false) =>
        if mem.length < zealMemMax then mem ++ [⟨kernelPhys, kernelSize, .kernel⟩] else mem

/-! ## The page-table pool -/

/-- `pool_size`. -/
def poolSize : ℕ := 8 * 4096

/-- Where the pool ends in an entry, in a table of `count` entries; `none` where the loop of
`handoff_reserve_pt_pool` continues. -/
def ptPoolEnd (count : ℕ) (entry : ZealMemEntry) : Option ℕ :=
  if entry.type ≠ .usable ∨ entry.length < poolSize + 4096 then none
  else
    let stop := u64 (entry.base + entry.length)
    if stop < entry.base then none
    else
      let poolEnd := stop / 4096 * 4096
      let base := u64 (poolEnd + 2 ^ 64 - poolSize)
      if base < u64 (entry.base + 4096) ∨
          count + (if poolEnd < stop then 2 else 1) > zealMemMax then none
      else some poolEnd

/-- The loop of `handoff_reserve_pt_pool` from entry `i` on: the base of the pool, and the table. -/
def ptPoolLoop (mem : List ZealMemEntry) : ℕ → ℕ → Option (ℕ × List ZealMemEntry)
  | 0, _ => none
  | left + 1, i =>
      match mem[i]? with
      | none => none
      | some entry =>
          match ptPoolEnd mem.length entry with
          | none => ptPoolLoop mem left (i + 1)
          | some poolEnd =>
              let stop := u64 (entry.base + entry.length)
              let base := u64 (poolEnd + 2 ^ 64 - poolSize)
              let mem := mem.set i { entry with length := base - entry.base } ++
                [⟨base, poolSize, .pagetable⟩]
              some (base, if poolEnd < stop then mem ++ [⟨poolEnd, stop - poolEnd, .usable⟩] else mem)

/-- `handoff_reserve_pt_pool`; `none` where it returns -1. -/
def handoffReservePtPool (mem : List ZealMemEntry) : Option (ℕ × List ZealMemEntry) :=
  ptPoolLoop mem mem.length 0

/-! ## The DMA arena -/

/-- `PI4_USB_DMA_ARENA_BYTES`. -/
def pi4UsbDmaArenaBytes : ℕ := 1024 * 1024

/-- `PI4_USB_DMA_ARENA_ALIGN`. -/
def pi4UsbDmaArenaAlign : ℕ := 64 * 1024

/-- `PI4_USB_DMA_MIN_PHYS`. -/
def pi4UsbDmaMinPhys : ℕ := 4 * 1024 * 1024

/-- `PI4_USB_DMA_RESERVED`. -/
def pi4UsbDmaReserved : ℕ := 1

/-- `struct zeal_pi4_dma`. -/
structure ZealPi4Dma where
  flags : ℕ
  physBase : ℕ
  busBase : ℕ
  size : ℕ
deriving DecidableEq, Repr

/-- `low` in `pi4_usb_dma_reserve`. -/
def arenaLow (pcie : ZealPi4Pcie) (entry : ZealMemEntry) : ℕ :=
  max (max entry.base pcie.dmaCpuBase) pi4UsbDmaMinPhys

/-- Where the arena starts in an entry, and its bus address; `none` where the loop of
`pi4_usb_dma_reserve` continues. -/
def dmaArenaIn (pcie : ZealPi4Pcie) (entry : ZealMemEntry) : Option (ℕ × ℕ) :=
  if entry.type ≠ .usable ∨ entry.length = 0 ∨ entry.base > uint64Max - entry.length then none
  else if arenaLow pcie entry > uint64Max - (pi4UsbDmaArenaAlign - 1) then none
  else
    let base := (arenaLow pcie entry + pi4UsbDmaArenaAlign - 1) / pi4UsbDmaArenaAlign *
      pi4UsbDmaArenaAlign
    if base > uint64Max - pi4UsbDmaArenaBytes then none
    else if base + pi4UsbDmaArenaBytes >
          min (entry.base + entry.length) (pcie.dmaCpuBase + pcie.dmaSize) ∨
        base < entry.base then none
    else if pcie.dmaBusBase > uint64Max - (base - pcie.dmaCpuBase) then none
    else
      let bus := pcie.dmaBusBase + (base - pcie.dmaCpuBase)
      if bus > uint64Max - pi4UsbDmaArenaBytes ∨
          bus + pi4UsbDmaArenaBytes > pcie.dmaBusBase + pcie.dmaSize then none
      else some (base, bus)

/-- `extra`: how many entries the arena adds to the table. -/
def arenaExtra (entry : ZealMemEntry) (base : ℕ) : ℕ :=
  (if base > entry.base then 1 else 0) +
    (if base + pi4UsbDmaArenaBytes < entry.base + entry.length then 1 else 0)

/-- The table with the arena taken out of entry `i`. -/
def arenaTaken (mem : List ZealMemEntry) (i : ℕ) (entry : ZealMemEntry) (base : ℕ) :
    List ZealMemEntry :=
  let stop := base + pi4UsbDmaArenaBytes
  let arena : ZealMemEntry := ⟨base, pi4UsbDmaArenaBytes, .usbDma⟩
  let mem :=
    if base > entry.base then mem.set i { entry with length := base - entry.base } ++ [arena]
    else mem.set i arena
  if stop < entry.base + entry.length then mem ++ [⟨stop, entry.base + entry.length - stop, .usable⟩]
  else mem

/-- The loop of `pi4_usb_dma_reserve` from entry `i` on: a code, or the table and the arena. -/
def dmaLoop (pcie : ZealPi4Pcie) (mem : List ZealMemEntry) :
    ℕ → ℕ → Except ℤ (List ZealMemEntry × ZealPi4Dma)
  | 0, _ => .error (-3)
  | left + 1, i =>
      match mem[i]? with
      | none => .error (-3)
      | some entry =>
          match dmaArenaIn pcie entry with
          | none => dmaLoop pcie mem left (i + 1)
          | some (base, bus) =>
              if arenaExtra entry base > zealMemMax - mem.length then .error (-2)
              else
                .ok (arenaTaken mem i entry base,
                  ⟨pi4UsbDmaReserved, base, bus, pi4UsbDmaArenaBytes⟩)

/-- The conditions under which `pi4_usb_dma_reserve` looks for an arena. -/
def dmaWindowGiven (pcie : ZealPi4Pcie) (dma : ZealPi4Dma) : Prop :=
  let required := pi4PcieFdtPresent ||| pi4PcieFdtEnabled ||| pi4PcieFdtDma
  pcie.flags &&& required = required ∧ pcie.dmaSize ≠ 0 ∧ dma.flags = 0 ∧
    pcie.dmaCpuBase ≤ uint64Max - pcie.dmaSize ∧ pcie.dmaBusBase ≤ uint64Max - pcie.dmaSize

instance (pcie : ZealPi4Pcie) (dma : ZealPi4Dma) : Decidable (dmaWindowGiven pcie dma) :=
  inferInstanceAs (Decidable (_ ∧ _ ∧ _ ∧ _ ∧ _))

/-- `pi4_usb_dma_reserve`: its code where it fails, or the table and the arena. -/
def pi4UsbDmaReserve (pcie : ZealPi4Pcie) (dma : ZealPi4Dma) (mem : List ZealMemEntry) :
    Except ℤ (List ZealMemEntry × ZealPi4Dma) :=
  if mem.length > zealMemMax ∨ ¬dmaWindowGiven pcie dma then .error (-1)
  else dmaLoop pcie mem mem.length 0

/-! ## The sequence -/

/-- What has been handed over: the kernel, the pool and the arena, and the table after each step. -/
structure Booted where
  kernelPhys : ℕ
  kernelSize : ℕ
  afterKernel : List ZealMemEntry
  pool : Option ℕ
  afterPool : List ZealMemEntry
  dma : ZealPi4Dma
  mem : List ZealMemEntry

/-- `pi4_usb_dma` in the static hand-off. -/
def noDma : ZealPi4Dma := ⟨0, 0, 0, 0⟩

/-- The pool in the booter, which goes on without one. -/
def reservePool (mem : List ZealMemEntry) : Option ℕ × List ZealMemEntry :=
  match handoffReservePtPool mem with
  | none => (none, mem)
  | some (base, mem) => (some base, mem)

/-- The arena in the booter, which goes on without one. -/
def reserveDma (isPi : Bool) (pcie : ZealPi4Pcie) (mem : List ZealMemEntry) :
    List ZealMemEntry × ZealPi4Dma :=
  if isPi = true then
    match pi4UsbDmaReserve pcie noDma mem with
    | .error _ => (mem, noDma)
    | .ok (mem, dma) => (mem, dma)
  else (mem, noDma)

/-- The reservations, in the order of the booter, for a kernel that was placed. -/
def reserveAll (kernelPhys kernelSize : ℕ) (isPi : Bool) (pcie : ZealPi4Pcie)
    (copied : List ZealMemEntry) : Booted :=
  let afterKernel := handoffReserveKernel kernelPhys kernelSize copied
  let pool := reservePool afterKernel
  let dma := reserveDma isPi pcie pool.2
  ⟨kernelPhys, kernelSize, afterKernel, pool.1, pool.2, dma.2, dma.1⟩

/-- The booter from the copy loop on, for a kernel image of `imageEnd` bytes; `none` where it
halts. -/
def bootMap (entries : List LimineMemmapEntry) (imageEnd : ℕ) (isPi : Bool) (pcie : ZealPi4Pcie) :
    Option Booted :=
  let copied := copyMemmap entries
  match allocPhysHhdm entries imageEnd 0x10000 with
  | none => none
  | some (kernelPhys, kernelSize) => some (reserveAll kernelPhys kernelSize isPi pcie copied)

end ZealBringup.Boot
