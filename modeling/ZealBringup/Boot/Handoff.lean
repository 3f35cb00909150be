import ZealBringup.Boot.Reserve

/-!
# The map that is handed over

What the kernel may rely on in the table, and when the booter provides it.

* `Booted.HandedOff` — the table says of each byte what Limine said, except that the kernel image,
  the pool and the arena are not usable.
* `KernelHasRoom` — the table has room to take the kernel image out of its entry.
* `memory_map_iff` — the first holds exactly with the second.
-/

namespace ZealBringup.Boot

open Regions Region
open ZealBringup.Fdt (ZealPi4Pcie)

namespace Booted

/-- The bytes of the kernel image. -/
def kernelBytes (r : Booted) : Set ℕ := bytes r.kernelPhys r.kernelSize

/-- The bytes of the page-table pool, where there is one. -/
def poolBytes (r : Booted) : Set ℕ := {a | ∃ base, r.pool = some base ∧ a ∈ bytes base poolSize}

/-- The bytes of the DMA arena, where it is reported. -/
def arenaBytes (r : Booted) : Set ℕ := {a | r.dma.flags ≠ 0 ∧ a ∈ bytes r.dma.physBase r.dma.size}

/-- All bytes that were reserved. -/
def taken (r : Booted) : Set ℕ := r.kernelBytes ∪ r.poolBytes ∪ r.arenaBytes

/-- What the kernel may rely on, for the entries that were copied from Limine's map. -/
structure HandedOff (r : Booted) (pcie : ZealPi4Pcie) (copied : List ZealMemEntry) : Prop where
  /-- The entries are disjoint. -/
  apart : r.mem.Pairwise Apart
  /-- They cover the bytes that the copied entries cover. -/
  covered : ∀ a, Covered r.mem a ↔ Covered copied a
  /-- A byte that is not reserved keeps its type. -/
  kept : ∀ e ∈ copied, ∀ f ∈ r.mem, ∀ a, e.Has a → f.Has a → a ∉ r.taken → f.type = e.type
  /-- A byte that is reserved was usable. -/
  formerly : ∀ e ∈ copied, ∀ a, e.Has a → a ∈ r.taken → e.type = .usable
  /-- No usable entry has a byte that is reserved. -/
  clear : ∀ f ∈ r.mem, f.type = .usable → ∀ a, f.Has a → a ∉ r.taken
  /-- The arena is aligned, in one formerly usable entry and in the DMA window on both sides. -/
  arena : r.dma.flags ≠ 0 → r.dma.physBase % pi4UsbDmaArenaAlign = 0 ∧
    (∃ e ∈ copied, e.type = .usable ∧ e.base ≤ r.dma.physBase ∧
      r.dma.physBase + r.dma.size ≤ e.base + e.length) ∧
    pcie.dmaCpuBase ≤ r.dma.physBase ∧
    r.dma.physBase + r.dma.size ≤ pcie.dmaCpuBase + pcie.dmaSize ∧
    r.dma.busBase = pcie.dmaBusBase + (r.dma.physBase - pcie.dmaCpuBase) ∧
    r.dma.busBase + r.dma.size ≤ pcie.dmaBusBase + pcie.dmaSize
  /-- A reservation that fails changes nothing. -/
  poolFailed : r.pool = none → r.afterPool = r.afterKernel
  dmaFailed : r.dma.flags = 0 → r.mem = r.afterPool

end Booted

/-- The table has room for a kernel image at `kb`: of the usable entries that were copied none has a
byte of the image, or two more entries fit, or one more fits and the image begins or ends with its
entry. A full table will do only where the arena happens to take the whole entry. -/
def TableHasRoom (kb size : ℕ) (isPi : Bool) (pcie : ZealPi4Pcie) (copied : List ZealMemEntry) :
    Prop :=
  ∀ e ∈ copied, e.type = .usable → (∃ a, e.Has a ∧ a ∈ bytes kb size) →
    copied.length ≤ 254 ∨
    copied.length = 255 ∧ (e.base = kb ∨ e.base + e.length = kb + size) ∨
    copied.length = 256 ∧ isPi = true ∧ dmaWindowGiven pcie noDma ∧
      (copied.find? fun e => (dmaArenaIn pcie e).isSome) = some e ∧ e.length = pi4UsbDmaArenaBytes

/-- The table has room for the kernel image, at the highest place for it. -/
def KernelHasRoom (entries : List LimineMemmapEntry) (imageEnd : ℕ) (isPi : Bool)
    (pcie : ZealPi4Pcie) : Prop :=
  ∀ kb, KernelPlace entries (alignUp imageEnd 0x10000) kb →
    TableHasRoom kb (alignUp imageEnd 0x10000) isPi pcie (copyMemmap entries)

variable {pcie : ZealPi4Pcie} {isPi : Bool} {kernelPhys kernelSize : ℕ}
  {copied : List ZealMemEntry} {taken : Set ℕ}

/-! ## The pool and the arena -/

theorem reservePool_cases (mem : List ZealMemEntry) :
    handoffReservePtPool mem = none ∧ reservePool mem = (none, mem) ∨
      ∃ base mem', handoffReservePtPool mem = some (base, mem') ∧
        reservePool mem = (some base, mem') := by
  unfold reservePool
  cases handoffReservePtPool mem with
  | none => exact .inl ⟨rfl, rfl⟩
  | some p => exact .inr ⟨p.1, p.2, rfl, rfl⟩

theorem reserveDma_cases (isPi : Bool) (pcie : ZealPi4Pcie) (mem : List ZealMemEntry) :
    reserveDma isPi pcie mem = (mem, noDma) ∨
      isPi = true ∧ dmaWindowGiven pcie noDma ∧
        ∃ mem' dma i entry, reserveDma isPi pcie mem = (mem', dma) ∧
          ArenaAt pcie mem mem' dma i entry := by
  unfold reserveDma
  cases isPi with
  | false => exact .inl rfl
  | true =>
    rw [if_pos rfl]
    cases hdma : pi4UsbDmaReserve pcie noDma mem with
    | error code => exact .inl rfl
    | ok p =>
      obtain ⟨hgiven, i, entry, harena⟩ := pi4UsbDmaReserve_ok hdma
      exact .inr ⟨rfl, hgiven, p.1, p.2, i, entry, rfl, harena⟩

/-! ## A table with room -/

theorem noDma_flags : noDma.flags = 0 := rfl

theorem pi4UsbDmaReserved_ne : pi4UsbDmaReserved ≠ 0 := by decide

variable {r : Booted}

/-- Without an arena, the table after the pool is what is handed over. -/
theorem handedOff_noArena (hapart : copied.Pairwise Apart)
    (hcarved : Carved .usable taken copied r.afterPool) (htaken : r.kernelBytes ∪ r.poolBytes = taken)
    (hpoolFailed : r.pool = none → r.afterPool = r.afterKernel) (hmem : r.mem = r.afterPool)
    (hdma : r.dma = noDma) : r.HandedOff pcie copied := by
  have hflags : r.dma.flags = 0 := by rw [hdma, noDma_flags]
  have hempty : r.arenaBytes = ∅ := Set.eq_empty_of_forall_notMem fun a ha => ha.1 hflags
  have hall : r.taken = taken := by rw [Booted.taken, hempty, Set.union_empty, htaken]
  rw [← hall, ← hmem] at hcarved
  exact {
    apart := hcarved.apart
    covered := hcarved.covered
    kept := fun e he f hf a hea hfa ha => hcarved.kept hapart he hf hea hfa ha
    formerly := hcarved.formerly
    clear := fun f hf hfree a ha => hcarved.clear hf hfree ha
    arena := fun h => absurd hflags h
    poolFailed := hpoolFailed
    dmaFailed := fun _ => hmem }

variable {i : ℕ} {entry : ZealMemEntry}

/-- With an arena, what it takes is added to what was taken before. -/
theorem handedOff_arena (hapart : copied.Pairwise Apart)
    (hcarved : Carved .usable taken copied r.afterPool)
    (hpoolFailed : r.pool = none → r.afterPool = r.afterKernel)
    (harena : ArenaAt pcie r.afterPool r.mem r.dma i entry)
    (htaken : r.kernelBytes ∪ r.poolBytes ∪ bytes r.dma.physBase r.dma.size = taken ∪ bytes r.dma.physBase r.dma.size) :
    r.HandedOff pcie copied := by
  have hflags : r.dma.flags ≠ 0 := by
    rw [harena.flags]
    exact pi4UsbDmaReserved_ne
  obtain ⟨husable, hbase, hstop, halign, hlow, hhigh, hbus, hbusEnd⟩ := dmaArenaIn_some harena.fits
  rw [← harena.size] at hstop hhigh hbusEnd
  obtain ⟨whole, hwhole, hfree, hwithin⟩ :=
    hcarved.free_within (List.mem_of_getElem? harena.get) husable
  have hbytes : r.arenaBytes = bytes r.dma.physBase r.dma.size :=
    Set.ext fun a => ⟨And.right, fun ha => ⟨hflags, ha⟩⟩
  have hall : r.taken = taken ∪ bytes r.dma.physBase r.dma.size := by
    rw [Booted.taken, hbytes, htaken]
  have hfinal := harena.carved hcarved hapart
  rw [← hall] at hfinal
  exact {
    apart := hfinal.apart
    covered := hfinal.covered
    kept := fun e he f hf a hea hfa ha => hfinal.kept hapart he hf hea hfa ha
    formerly := hfinal.formerly
    clear := fun f hf hfree a ha => hfinal.clear hf hfree ha
    arena := fun _ => ⟨halign, ⟨whole, hwhole, hfree, hwithin.1.trans hbase, hstop.trans hwithin.2⟩,
      hlow, hhigh, hbus, hbusEnd⟩
    poolFailed := hpoolFailed
    dmaFailed := fun h => absurd h hflags }

/-- The pool and the arena are taken out of a table that has the kernel taken out. -/
theorem handedOff_of_kernel (hapart : copied.Pairwise Apart)
    (hwrap : ∀ e ∈ copied, e.base + e.length < 2 ^ 64)
    (hkernel : Carved .usable (bytes kernelPhys kernelSize) copied
      (handoffReserveKernel kernelPhys kernelSize copied)) :
    (reserveAll kernelPhys kernelSize isPi pcie copied).HandedOff pcie copied := by
  set r := reserveAll kernelPhys kernelSize isPi pcie copied with hr
  have hpool : Carved .usable (r.kernelBytes ∪ r.poolBytes) copied r.afterPool ∧
      (r.pool = none → r.afterPool = r.afterKernel) := by
    rcases reservePool_cases (handoffReserveKernel kernelPhys kernelSize copied) with
      ⟨-, hnone⟩ | ⟨base, mem', hsome, hpool⟩
    · have hempty : r.poolBytes = ∅ := by
        refine Set.eq_empty_of_forall_notMem fun a ⟨base, hbase, _⟩ => ?_
        rw [hr, reserveAll, hnone] at hbase
        cases hbase
      have hafter : r.afterPool = r.afterKernel := by rw [hr, reserveAll, hnone]
      rw [hempty, Set.union_empty, hafter]
      exact ⟨hkernel, fun _ => rfl⟩
    · have hbytes : r.poolBytes = bytes base poolSize := by
        refine Set.ext fun a => ⟨fun ⟨base', hbase, ha⟩ => ?_, fun ha => ⟨base, ?_, ha⟩⟩
        · rw [hr, reserveAll, hpool] at hbase
          obtain rfl := Option.some.inj hbase
          exact ha
        · rw [hr, reserveAll, hpool]
      have hafter : r.afterPool = mem' := by rw [hr, reserveAll, hpool]
      have hsome' : r.pool = some base := by rw [hr, reserveAll, hpool]
      rw [hbytes, hafter]
      exact ⟨(handoffReservePtPool_carved hkernel hapart hwrap hsome).1,
        fun hnone => by rw [hsome'] at hnone; cases hnone⟩
  obtain ⟨hcarved, hpoolFailed⟩ := hpool
  rcases reserveDma_cases isPi pcie r.afterPool with hnone | ⟨-, -, mem', dma, i, entry, hdma, harena⟩
  · exact handedOff_noArena hapart hcarved rfl hpoolFailed (congrArg Prod.fst hnone)
      (congrArg Prod.snd hnone)
  · have hmem : r.mem = mem' := congrArg Prod.fst hdma
    have hdma' : r.dma = dma := congrArg Prod.snd hdma
    rw [← hmem, ← hdma'] at harena
    exact handedOff_arena hapart hcarved hpoolFailed harena rfl

/-! ## The kernel and the table -/

variable {e : ZealMemEntry}

theorem copyMemmap_mem {entries : List LimineMemmapEntry} (h : e ∈ copyMemmap entries) :
    ∃ e₀ ∈ entries, e = copyEntry e₀ := by
  obtain ⟨e₀, he₀, rfl⟩ := List.mem_map.1 h
  exact ⟨e₀, List.mem_of_mem_take he₀, rfl⟩

theorem length_copyMemmap (entries : List LimineMemmapEntry) :
    (copyMemmap entries).length = min 256 entries.length := by
  rw [copyMemmap, List.length_map, List.length_take]
  rfl

theorem copyMemmap_apart {entries : List LimineMemmapEntry} (h : entries.Pairwise Apart) :
    (copyMemmap entries).Pairwise Apart :=
  List.pairwise_map.2 (h.sublist (List.take_sublist _ _))

/-- A full table stays as it is. -/
theorem handoffReserveKernel_full (h : copied.length ≥ zealMemMax) :
    handoffReserveKernel kernelPhys kernelSize copied = copied := if_pos (.inr (.inr h))

theorem handoffReserveKernel_empty (h : kernelSize = 0) :
    handoffReserveKernel kernelPhys kernelSize copied = copied := if_pos (.inr (.inl h))

/-- Only one entry has bytes of the image. -/
theorem whole_of_overlap {entries : List LimineMemmapEntry} (hapart : entries.Pairwise Apart)
    {whole : LimineMemmapEntry} (hwhole : whole ∈ entries) {kb size : ℕ} (hbase : whole.base ≤ kb)
    (hstop : kb + size ≤ whole.base + whole.length) (he : e ∈ copyMemmap entries) {a : ℕ}
    (hea : e.Has a) (ha : a ∈ bytes kb size) :
    e = copyEntry whole := by
  obtain ⟨e₀, he₀, rfl⟩ := copyMemmap_mem he
  obtain rfl : e₀ = whole :=
    eq_of_has hapart he₀ hwhole hea ⟨hbase.trans ha.1, lt_of_lt_of_le ha.2 hstop⟩
  rfl

/-! ## A full table -/

variable {mem : List ZealMemEntry}

/-- An arena in a full table is a whole entry. -/
theorem ArenaAt.whole {mem' : List ZealMemEntry} {dma : ZealPi4Dma}
    (h : ArenaAt pcie mem mem' dma i entry) (hfull : mem.length = zealMemMax) :
    dma.physBase = entry.base ∧ entry.length = pi4UsbDmaArenaBytes ∧
      mem'.Perm (⟨entry.base, entry.length, .usbDma⟩ :: mem.eraseIdx i) := by
  obtain ⟨husable, hbase, hstop, -⟩ := dmaArenaIn_some h.fits
  have hextra := h.extra
  rw [hfull, Nat.sub_self] at hextra
  unfold arenaExtra at hextra
  by_cases hlow : dma.physBase > entry.base
  · rw [if_pos hlow] at hextra
    omega
  by_cases hhigh : dma.physBase + pi4UsbDmaArenaBytes < entry.base + entry.length
  · rw [if_pos hhigh] at hextra
    omega
  have hphys : dma.physBase = entry.base := by omega
  have hlength : entry.length = pi4UsbDmaArenaBytes := by omega
  refine ⟨hphys, hlength, ?_⟩
  have hperm : (arenaTaken mem i entry dma.physBase).Perm _ := arenaTaken_perm h.get husable
  rw [around, if_neg (by omega), if_neg (by omega), List.nil_append] at hperm
  rw [h.table, hlength, ← hphys]
  exact hperm

/-- The entry of the arena is the first that has room for it. -/
theorem ArenaAt.find? {mem' : List ZealMemEntry} {dma : ZealPi4Dma}
    (h : ArenaAt pcie mem mem' dma i entry) :
    (mem.find? fun e => (dmaArenaIn pcie e).isSome) = some entry := by
  obtain ⟨hi, hget⟩ := List.getElem?_eq_some_iff.1 h.get
  refine List.find?_eq_some_iff_getElem.2 ⟨by rw [h.fits]; rfl, i, hi, hget, fun j hj => ?_⟩
  rw [h.first j hj _ (List.getElem?_eq_getElem (hj.trans hi))]
  rfl

/-- The arena is found where it needs no more entries. -/
theorem dmaLoop_of_find? (hlength : entry.length = pi4UsbDmaArenaBytes) {left : ℕ}
    (hleft : i + left = mem.length)
    (hfind : ((mem.drop i).find? fun e => (dmaArenaIn pcie e).isSome) = some entry) :
    ∃ p, dmaLoop pcie mem left i = .ok p := by
  induction left generalizing i with
  | zero =>
    rw [List.drop_of_length_le (by omega)] at hfind
    cases hfind
  | succ left ih =>
    have hi : i < mem.length := by omega
    rw [dmaLoop, List.getElem?_eq_getElem hi]
    rw [List.drop_eq_getElem_cons hi, List.find?_cons] at hfind
    dsimp only
    cases harena : dmaArenaIn pcie mem[i] with
    | none =>
      rw [harena] at hfind
      exact ih (by omega) hfind
    | some arena =>
      rw [harena] at hfind
      obtain ⟨base, bus⟩ := arena
      obtain rfl := Option.some.inj hfind
      obtain ⟨-, hbase, hstop, -⟩ := dmaArenaIn_some harena
      dsimp only
      rw [if_neg]
      · exact ⟨_, rfl⟩
      · unfold arenaExtra
        rw [if_neg (by omega), if_neg (by omega)]
        exact Nat.not_lt_zero _

/-- A full table passes the pool by. -/
theorem reservePool_full (hfull : copied.length = zealMemMax) : reservePool copied = (none, copied) := by
  rw [reservePool, handoffReservePtPool_full hfull]

theorem reserveAll_full (isPi : Bool) (pcie : ZealPi4Pcie)
    (hfull : (handoffReserveKernel kernelPhys kernelSize copied).length = zealMemMax) :
    let r := reserveAll kernelPhys kernelSize isPi pcie copied
    r.pool = none ∧ r.afterPool = handoffReserveKernel kernelPhys kernelSize copied := by
  dsimp only
  rw [reserveAll, reservePool_full hfull]
  exact ⟨rfl, rfl⟩

/-- Where the arena takes the whole entry of the image, the image is no longer usable either. -/
theorem handedOff_of_arena {kb size : ℕ} (hapart : copied.Pairwise Apart) (hbase : e.base ≤ kb)
    (hstop : kb + size ≤ e.base + e.length) (hfull : copied.length = 256)
    (hgiven : dmaWindowGiven pcie noDma)
    (hfind : (copied.find? fun e => (dmaArenaIn pcie e).isSome) = some e)
    (hlength : e.length = pi4UsbDmaArenaBytes) :
    (reserveAll kb size true pcie copied).HandedOff pcie copied := by
  have hkernel : handoffReserveKernel kb size copied = copied :=
    handoffReserveKernel_full (ge_of_eq hfull)
  obtain ⟨hpool, hafter⟩ := reserveAll_full true pcie
    (show (handoffReserveKernel kb size copied).length = zealMemMax by rw [hkernel, hfull]; rfl)
  set r := reserveAll kb size true pcie copied with hr
  rw [hkernel] at hafter
  have hok : ∃ p, pi4UsbDmaReserve pcie noDma copied = .ok p := by
    rw [pi4UsbDmaReserve, if_neg (by rw [hfull]; exact fun h => h.elim (by decide) fun h => h hgiven)]
    exact dmaLoop_of_find? hlength (Nat.zero_add _) (by rwa [List.drop_zero])
  obtain ⟨p, hp⟩ := hok
  obtain ⟨-, i, entry, harena⟩ := pi4UsbDmaReserve_ok hp
  have hdma : reserveDma true pcie r.afterPool = p := by
    rw [reserveDma, if_pos rfl, hafter, hp]
  have hmem : r.mem = p.1 := congrArg Prod.fst hdma
  have hdma' : r.dma = p.2 := congrArg Prod.snd hdma
  obtain rfl : entry = e := Option.some.inj (harena.find?.symm.trans hfind)
  obtain ⟨hphys, -, -⟩ := harena.whole hfull
  rw [← hafter, ← hmem, ← hdma'] at harena
  rw [← hdma'] at hphys
  have hpoolBytes : r.poolBytes = ∅ := by
    refine Set.eq_empty_of_forall_notMem fun a ⟨base, hbase, _⟩ => ?_
    rw [hpool] at hbase
    cases hbase
  have hinside : r.kernelBytes ⊆ bytes r.dma.physBase r.dma.size := fun a ha => by
    obtain ⟨hlow, hhigh⟩ := ha
    change kb ≤ a at hlow
    change a < kb + size at hhigh
    rw [harena.size, hphys, ← hlength]
    exact ⟨by omega, by omega⟩
  have hstart : Carved .usable ∅ copied r.afterPool := by
    rw [hafter]
    exact .refl hapart fun _ _ _ _ => Set.notMem_empty _
  refine handedOff_arena hapart hstart (fun _ => ?_) harena ?_
  · rw [hafter]
    exact hkernel.symm
  · rw [hpoolBytes, Set.union_empty, Set.empty_union, Set.union_eq_right.2 hinside]

/-! ## When the table is right -/

variable {entries : List LimineMemmapEntry} {kb size : ℕ}

/-- A usable entry with bytes of the image has all of them. -/
theorem placed_of_overlap (hapart : entries.Pairwise Apart) (hwrap : ∀ e ∈ entries, NoWrap e)
    (hplace : KernelPlace entries size kb) (hkb : kb ≠ 0) (he : e ∈ copyMemmap entries) {a : ℕ}
    (hea : e.Has a) (ha : a ∈ bytes kb size) :
    ∃ pre post, copyMemmap entries = pre ++ e :: post ∧ Placed pre post e kb size := by
  obtain ⟨whole, hwhole, husable, hbase, hstop⟩ := hplace.inside hwrap
  obtain rfl := whole_of_overlap hapart hwhole hbase hstop he hea ha
  obtain ⟨pre, post, hsplit⟩ := List.append_of_mem he
  exact ⟨pre, post, hsplit, {
    apart := hsplit ▸ copyMemmap_apart hapart
    stop_lt := fun e he => by
      rw [← hsplit] at he
      obtain ⟨e₀, he₀, rfl⟩ := copyMemmap_mem he
      exact (hwrap e₀ he₀).1
    usable := congrArg limineTypeToZeal husable
    base_le := hbase
    le_stop := hstop
    phys_ne := hkb
    size_ne := fun h0 => by
      obtain ⟨hlow, hhigh⟩ := ha
      omega }⟩

theorem handedOff_of_room (hapart : entries.Pairwise Apart) (hwrap : ∀ e ∈ entries, NoWrap e)
    (hplace : KernelPlace entries size kb) (hkb : kb ≠ 0)
    (hroom : TableHasRoom kb size isPi pcie (copyMemmap entries)) :
    (reserveAll kb size isPi pcie (copyMemmap entries)).HandedOff pcie (copyMemmap entries) := by
  have hcopied := copyMemmap_apart hapart
  have hstops : ∀ e ∈ copyMemmap entries, e.base + e.length < 2 ^ 64 := fun e he => by
    obtain ⟨e₀, he₀, rfl⟩ := copyMemmap_mem he
    exact (hwrap e₀ he₀).1
  by_cases hhit : ∃ e ∈ copyMemmap entries, ∃ a, e.Has a ∧ a ∈ bytes kb size
  · obtain ⟨e, he, a, hea, ha⟩ := hhit
    obtain ⟨pre, post, hsplit, hplaced⟩ := placed_of_overlap hapart hwrap hplace hkb he hea ha
    rcases hroom e he hplaced.usable ⟨a, hea, ha⟩ with hfit | hfit | ⟨hfull, rfl, hgiven, hfind, hlen⟩
    · refine handedOff_of_kernel hcopied hstops ?_
      rw [hsplit] at hfit ⊢
      exact hplaced.carved (.inl hfit)
    · refine handedOff_of_kernel hcopied hstops ?_
      rw [hsplit] at hfit ⊢
      exact hplaced.carved (.inr hfit)
    · exact handedOff_of_arena hcopied hplaced.base_le hplaced.le_stop hfull hgiven hfind hlen
  · -- the image is empty, or its entry was not copied
    have hsame : handoffReserveKernel kb size (copyMemmap entries) = copyMemmap entries := by
      obtain ⟨whole, hwhole, -, hbase, hstop⟩ := hplace.inside hwrap
      by_cases hsize : size = 0
      · exact handoffReserveKernel_empty hsize
      refine handoffReserveKernel_full (not_lt.1 fun hlt => hhit ?_)
      have hall : copyMemmap entries = entries.map copyEntry := by
        rw [length_copyMemmap] at hlt
        rw [copyMemmap, List.take_of_length_le]
        unfold zealMemMax at hlt ⊢
        omega
      rw [hall]
      exact ⟨copyEntry whole, List.mem_map_of_mem hwhole, kb, ⟨hbase, by
        have hstop' : kb + size ≤ (copyEntry whole).base + (copyEntry whole).length := hstop
        omega⟩, le_rfl, by omega⟩
    refine handedOff_of_kernel hcopied hstops ?_
    rw [hsame]
    exact .refl hcopied fun e he a hea ha => hhit ⟨e, he, a, hea, ha⟩

/-- Without room, some bytes of the image have two entries, or stay usable. -/
theorem room_of_handedOff (hapart : entries.Pairwise Apart) (hwrap : ∀ e ∈ entries, NoWrap e)
    (hplace : KernelPlace entries size kb) (hkb : kb ≠ 0)
    (h : (reserveAll kb size isPi pcie (copyMemmap entries)).HandedOff pcie (copyMemmap entries)) :
    TableHasRoom kb size isPi pcie (copyMemmap entries) := by
  intro e he husable ⟨a, hea, ha⟩
  obtain ⟨pre, post, hsplit, hplaced⟩ := placed_of_overlap hapart hwrap hplace hkb he hea ha
  have hle : (copyMemmap entries).length ≤ 256 := by
    rw [length_copyMemmap]
    omega
  by_contra hno
  obtain ⟨h254, hno⟩ := not_or.1 hno
  obtain ⟨h255, h256⟩ := not_or.1 hno
  by_cases hfull : (copyMemmap entries).length = 256
  · -- the full table is left alone: the entry stays usable
    have hkernel : handoffReserveKernel kb size (copyMemmap entries) = copyMemmap entries :=
      handoffReserveKernel_full (ge_of_eq hfull)
    obtain ⟨-, hafter⟩ := reserveAll_full isPi pcie
      (show (handoffReserveKernel kb size (copyMemmap entries)).length = zealMemMax by
        rw [hkernel, hfull]; rfl)
    set r := reserveAll kb size isPi pcie (copyMemmap entries) with hr
    rw [hkernel] at hafter
    have hmem : e ∈ r.mem := by
      rcases reserveDma_cases isPi pcie r.afterPool with
        hnone | ⟨hpi, hgiven, mem', dma, i, entry, hdma, harena⟩
      · have hsame : r.mem = r.afterPool := congrArg Prod.fst hnone
        rwa [hsame, hafter]
      · have hmem : r.mem = mem' := congrArg Prod.fst hdma
        rw [hafter] at harena
        obtain ⟨-, hlength, hperm⟩ := harena.whole hfull
        have hne : e ≠ entry := fun hee =>
          h256 ⟨hfull, hpi, hgiven, hee ▸ harena.find?, hee ▸ hlength⟩
        rw [hmem, hperm.mem_iff]
        exact List.mem_cons_of_mem _
          (((perm_getElem? harena.get).mem_iff.1 he |> List.mem_cons.1).resolve_left hne)
    exact h.clear e hmem husable a hea (.inl (.inl ha))
  · -- the image is added, and its entry stays
    have hlen : (copyMemmap entries).length = 255 := by omega
    have hborder := not_and.1 h255 hlen
    obtain ⟨hbase, hstop⟩ := not_or.1 hborder
    have hkernel := hplaced.overlapped (hsplit ▸ hlen) hbase hstop
    rw [← hsplit] at hkernel
    have hlen' : (handoffReserveKernel kb size (copyMemmap entries)).length = zealMemMax := by
      rw [hkernel, List.length_append, hlen]
      rfl
    obtain ⟨-, hafter⟩ := reserveAll_full isPi pcie hlen'
    set r := reserveAll kb size isPi pcie (copyMemmap entries) with hr
    have hkernelMem : (⟨kb, size, .kernel⟩ : ZealMemEntry) ∈ r.afterPool := by
      rw [hafter, hkernel]
      exact List.mem_append_right _ (List.mem_singleton.2 rfl)
    have hentryMem : e ∈ r.afterPool := by
      rw [hafter, hkernel]
      exact List.mem_append_left _ he
    have htwo : (⟨kb, size, .kernel⟩ : ZealMemEntry) ∈ r.mem ∧
        ∃ s ∈ r.mem, s.Has a ∧ s.type ≠ .kernel := by
      rcases reserveDma_cases isPi pcie r.afterPool with
        hnone | ⟨-, -, mem', dma, i, entry, hdma, harena⟩
      · have hsame : r.mem = r.afterPool := congrArg Prod.fst hnone
        rw [hsame]
        exact ⟨hkernelMem, e, hentryMem, hea, by rw [husable]; decide⟩
      · have hmem : r.mem = mem' := congrArg Prod.fst hdma
        obtain ⟨harenaUsable, -⟩ := dmaArenaIn_some harena.fits
        obtain ⟨-, -, hperm⟩ := harena.whole (by rw [hafter, hlen'])
        have hmid := perm_getElem? harena.get
        rw [hmem]
        refine ⟨hperm.mem_iff.2 (List.mem_cons_of_mem _
          ((List.mem_cons.1 (hmid.mem_iff.1 hkernelMem)).resolve_left fun hk => ?_)), ?_⟩
        · rw [← hk] at harenaUsable
          cases harenaUsable
        · rcases List.mem_cons.1 (hmid.mem_iff.1 hentryMem) with rfl | hrest
          · exact ⟨_, hperm.mem_iff.2 (List.mem_cons_self ..), hea, (nomatch ·)⟩
          · exact ⟨e, hperm.mem_iff.2 (List.mem_cons_of_mem _ hrest), hea, by rw [husable]; decide⟩
    obtain ⟨hk, s, hs, hsa, htype⟩ := htwo
    have heq := eq_of_has h.apart hs hk hsa ha
    exact htype (by rw [heq])

/-- **The map is handed over** as the kernel may rely on it exactly if the table has room to take the
kernel image out of its entry. -/
theorem memory_map_iff (hapart : entries.Pairwise Apart) (hwrap : ∀ e ∈ entries, NoWrap e)
    {imageEnd : ℕ} {r : Booted} (h : bootMap entries imageEnd isPi pcie = some r) :
    r.HandedOff pcie (copyMemmap entries) ↔ KernelHasRoom entries imageEnd isPi pcie := by
  unfold bootMap at h
  dsimp only at h
  cases halloc : allocPhysHhdm entries imageEnd 0x10000 with
  | none =>
    rw [halloc] at h
    cases h
  | some p =>
    obtain ⟨kb, size⟩ := p
    rw [halloc] at h
    obtain rfl := Option.some.inj h
    obtain ⟨hkb, rfl, hplace⟩ := allocPhysHhdm_place hwrap halloc
    constructor
    · intro hhanded kb' hplace'
      obtain rfl := hplace.unique hplace'
      exact room_of_handedOff hapart hwrap hplace hkb hhanded
    · intro hroom
      exact handedOff_of_room hapart hwrap hplace hkb (hroom kb hplace)

/-- No device tree. -/
def noPcie : ZealPi4Pcie := ⟨0, 0, 0, 0, 0, 0, 0, 0, 0, 0⟩

/-- One usable entry. -/
def plainMap : List LimineMemmapEntry := [⟨0x100000, 0x10000000, .usable⟩]

theorem memory_map_iff_plain :
    (reserveAll 0x400000 0x200000 false noPcie (copyMemmap plainMap)).HandedOff noPcie
        (copyMemmap plainMap) ↔ KernelHasRoom plainMap 0x200000 false noPcie :=
  memory_map_iff (List.pairwise_singleton ..)
    (fun e he => by rw [List.mem_singleton.1 he]; exact ⟨by decide, by decide⟩) rfl

/-- 255 reserved pages below one usable entry. -/
def crowdedMap : List LimineMemmapEntry :=
  (List.range 255).map (fun i => ⟨i * 4096, 4096, .other 1⟩) ++ plainMap

theorem crowdedMap_apart : crowdedMap.Pairwise Apart := by
  refine List.pairwise_append.2 ⟨List.pairwise_map.2 ?_, List.pairwise_singleton .., ?_⟩
  · refine List.pairwise_lt_range.imp fun {i j} hij => .inl ?_
    dsimp only
    omega
  · intro e he f hf
    obtain ⟨i, hi, rfl⟩ := List.mem_map.1 he
    obtain rfl := List.mem_singleton.1 hf
    have hlt := List.mem_range.1 hi
    left
    dsimp only
    omega

theorem crowdedMap_noWrap : ∀ e ∈ crowdedMap, NoWrap e := by
  intro e he
  rcases List.mem_append.1 he with he | he
  · obtain ⟨i, hi, rfl⟩ := List.mem_map.1 he
    have hlt := List.mem_range.1 hi
    exact ⟨by dsimp only; omega, by dsimp only; omega⟩
  · rw [List.mem_singleton.1 he]
    exact ⟨by decide, by decide⟩

/-- With 256 entries the kernel image stays usable. -/
theorem memory_map_crowded :
    crowdedMap.Pairwise Apart ∧ (∀ e ∈ crowdedMap, NoWrap e) ∧
      ∃ r, bootMap crowdedMap 0x200000 false noPcie = some r ∧
        ¬r.HandedOff noPcie (copyMemmap crowdedMap) := by
  have halloc : allocPhysHhdm crowdedMap 0x200000 0x10000 = some (0x400000, 0x200000) := by
    decide +kernel
  obtain ⟨-, -, hplace⟩ := allocPhysHhdm_place crowdedMap_noWrap halloc
  refine ⟨crowdedMap_apart, crowdedMap_noWrap,
    reserveAll 0x400000 0x200000 false noPcie (copyMemmap crowdedMap), ?_, fun h => ?_⟩
  · rw [bootMap, halloc]
  · have hroom := room_of_handedOff crowdedMap_apart crowdedMap_noWrap hplace (by decide) h
    have hlength : (copyMemmap crowdedMap).length = 256 := by decide +kernel
    have hentry : (⟨0x100000, 0x10000000, .usable⟩ : ZealMemEntry) ∈ copyMemmap crowdedMap := by
      decide +kernel
    rcases hroom _ hentry rfl ⟨0x400000, ⟨by decide, by decide⟩, ⟨by decide, by decide⟩⟩ with
      h254 | ⟨h255, -⟩ | ⟨-, hpi, -⟩
    · omega
    · omega
    · cases hpi

end ZealBringup.Boot
