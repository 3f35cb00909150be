import ZealBringup.Install.Packer

/-!
# The installer

`zinstall_handle` erases the target disk, writes the extents of the module, and reads every
sector back.  The target may do anything: a command may fail, and what is read may be any bytes.
Every command and its result is noted in a log.

The cursor of `zinstall_handle` moves over the extents while the loop moves over batches of
sectors.

* `checkSectors_spec` — a batch goes through exactly when every sector of it is what the module
  says.
* `verifyLoop_spec` — when the loop goes through, every sector was read and was right.
-/

set_option maxRecDepth 10000

namespace ZealBringup.Install

open Sparse

/-- The device functions of `virtio_blk.h` that the installer calls. -/
structure Target (σ : Type) where
  /-- `virtio_blk_absolute_ready`. -/
  absoluteReady : Bool
  /-- `virtio_blk_full_capacity`. -/
  fullCapacity : ℕ
  /-- `virtio_blk_max_sectors`. -/
  maxSectors : ℕ
  /-- `virtio_blk_write_abs_many`, with the bytes that are written. -/
  writeAbsMany : σ → ℕ → List UInt8 → Bool × σ
  /-- `virtio_blk_read_abs_many`, with the bytes of the buffer after it. -/
  readAbsMany : σ → ℕ → ℕ → Option (ℕ → UInt8) × σ
  /-- `virtio_blk_flush_abs`. -/
  flushAbs : σ → Bool × σ

/-- A command for the target, and its result. -/
inductive Event where
  | write (lba : ℕ) (bytes : List UInt8) (ok : Bool)
  | read (lba count : ℕ) (data : Option (ℕ → UInt8))
  | flush (ok : Bool)

/-- What `zinstall_handle` prints at its end. -/
inductive Report where
  /-- A read outside the module. -/
  | outside
  /-- "installer image is unavailable". -/
  | unavailable
  /-- "attach one PCI VirtIO target disk of exactly 128 MiB". -/
  | wrongTarget
  /-- "target does not support durable flush". -/
  | noFlush
  /-- "ready; this erases the entire 128 MiB target disk". -/
  | ready
  /-- "invalid VirtIO transfer window". -/
  | badWindow
  | eraseFailed (sector : ℕ)
  | eraseFlushFailed
  | writeFailed (sector : ℕ)
  | imageFlushFailed
  | readBackFailed (sector : ℕ)
  | compareFailed (sector : ℕ)
  | nonzeroGap (sector : ℕ)
  | verifyFlushFailed
  /-- "installed and fully read-back verified". -/
  | installed
  deriving DecidableEq, Repr

/-- The target and what was done to it. -/
structure Run (σ : Type) where
  dev : σ
  log : List Event

variable {σ : Type} (t : Target σ)

namespace Run

def write (r : Run σ) (lba : ℕ) (bytes : List UInt8) : Bool × Run σ :=
  ((t.writeAbsMany r.dev lba bytes).1,
    ⟨(t.writeAbsMany r.dev lba bytes).2,
      r.log ++ [.write lba bytes (t.writeAbsMany r.dev lba bytes).1]⟩)

def read (r : Run σ) (lba count : ℕ) : Option (ℕ → UInt8) × Run σ :=
  ((t.readAbsMany r.dev lba count).1,
    ⟨(t.readAbsMany r.dev lba count).2,
      r.log ++ [.read lba count (t.readAbsMany r.dev lba count).1]⟩)

/-- `virtio_blk_flush_disk`. -/
def flushDisk (r : Run σ) : Bool × Run σ :=
  if t.absoluteReady then
    ((t.flushAbs r.dev).1, ⟨(t.flushAbs r.dev).2, r.log ++ [.flush (t.flushAbs r.dev).1]⟩)
  else (false, r)

end Run

/-! ## Reading the module -/

/-- `start` and `count` of the entry `i`. -/
def extentEntry (image : List UInt8) (i : ℕ) : Option (ℕ × ℕ) :=
  match zinstallU64 image (40 + i * 16), zinstallU32 image (40 + i * 16 + 8) with
  | some start, some count => some (start, count)
  | _, _ => none

/-- `n` bytes of the module from `off` on. -/
def moduleBytes (image : List UInt8) (off n : ℕ) : Option (List UInt8) :=
  if off + n ≤ image.length then some ((image.drop off).take n) else none

/-! ## Erasing and writing -/

/-- The loop that writes zeros to every sector.  `none` means that it went through. -/
def eraseLoop (sectors maxBatch : ℕ) (hmax : 0 < maxBatch) (sector : ℕ) (r : Run σ) :
    Option Report × Run σ :=
  if sector < sectors then
    let batch := min (sectors - sector) maxBatch
    match r.write t sector (List.replicate (batch * 512) 0) with
    | (false, r) => (some (.eraseFailed sector), r)
    | (true, r) => eraseLoop sectors maxBatch hmax (sector + batch) r
  else (none, r)
termination_by sectors - sector

/-- The loop over one extent at `lba`, whose data is at `payloadOff`. -/
def writeBatches (image : List UInt8) (maxBatch : ℕ) (hmax : 0 < maxBatch) (payloadOff lba : ℕ)
    (done left : ℕ) (r : Run σ) : Option Report × Run σ :=
  if left = 0 then (none, r)
  else
    let batch := min left maxBatch
    match moduleBytes image (payloadOff + done * 512) (batch * 512) with
    | none => (some .outside, r)
    | some src =>
        match r.write t (lba + done) src with
        | (false, r) => (some (.writeFailed (lba + done)), r)
        | (true, r) =>
            writeBatches image maxBatch hmax payloadOff lba (done + batch) (left - batch) r
termination_by left

/-- The loop over the extents: `left` of them from `e` on. -/
def writeExtents (image : List UInt8) (maxBatch : ℕ) (hmax : 0 < maxBatch) :
    ℕ → ℕ → ℕ → Run σ → Option Report × Run σ
  | _, 0, _, r => (none, r)
  | e, left + 1, payloadOff, r =>
      match extentEntry image e with
      | none => (some .outside, r)
      | some (lba, n) =>
          match writeBatches t image maxBatch hmax payloadOff lba 0 n r with
          | (some report, r) => (some report, r)
          | (none, r) => writeExtents image maxBatch hmax (e + 1) left (payloadOff + n * 512) r

/-! ## Reading back -/

/-- `extent_index` and `extent_data`. -/
structure Cursor where
  extentIndex : ℕ
  extentData : ℕ

/-- The loop that moves the cursor to the first extent that does not end before `current`. -/
def seek (image : List UInt8) (extentCount current : ℕ) (c : Cursor) : Option Cursor :=
  if c.extentIndex < extentCount then
    match extentEntry image c.extentIndex with
    | none => none
    | some (start, count) =>
        if current < start + count then some c
        else seek image extentCount current ⟨c.extentIndex + 1, c.extentData + count * 512⟩
  else some c
termination_by extentCount - c.extentIndex

/-- What the sector `current` has to be with the cursor at its place; the inner `none` is a gap. -/
def expectedAt (image : List UInt8) (extentCount current : ℕ) (c : Cursor) :
    Option (Option (List UInt8)) :=
  if c.extentIndex < extentCount then
    match extentEntry image c.extentIndex with
    | none => none
    | some (start, count) =>
        if start ≤ current ∧ current < start + count then
          (moduleBytes image (c.extentData + (current - start) * 512) 512).map some
        else some none
  else some none

/-- The sector `n` of the buffer. -/
def sectorOf (buf : ℕ → UInt8) (n : ℕ) : List UInt8 :=
  (List.range 512).map fun b => buf (n * 512 + b)

/-- The loop over the sectors of a batch: `left` of them from `n` on. -/
def checkSectors (image : List UInt8) (extentCount : ℕ) (buf : ℕ → UInt8) (sector : ℕ) :
    ℕ → ℕ → Cursor → Except Report Cursor
  | _, 0, c => .ok c
  | n, left + 1, c =>
      match seek image extentCount (sector + n) c with
      | none => .error .outside
      | some c =>
          match expectedAt image extentCount (sector + n) c with
          | none => .error .outside
          | some (some expected) =>
              if sectorOf buf n = expected then
                checkSectors image extentCount buf sector (n + 1) left c
              else .error (.compareFailed (sector + n))
          | some none =>
              if sectorOf buf n = zeroSector then
                checkSectors image extentCount buf sector (n + 1) left c
              else .error (.nonzeroGap (sector + n))

/-- The loop that reads the disk back. -/
def verifyLoop (image : List UInt8) (extentCount sectors maxBatch : ℕ) (hmax : 0 < maxBatch)
    (sector : ℕ) (c : Cursor) (r : Run σ) : Option Report × Run σ :=
  if sector < sectors then
    let batch := min (sectors - sector) maxBatch
    match r.read t sector batch with
    | (none, r) => (some (.readBackFailed sector), r)
    | (some buf, r) =>
        match checkSectors image extentCount buf sector 0 batch c with
        | .error report => (some report, r)
        | .ok c => verifyLoop image extentCount sectors maxBatch hmax (sector + batch) c r
  else (none, r)
termination_by sectors - sector

/-! ## The command -/

/-- The word that confirms. -/
def eraseWord : List UInt8 := [69, 82, 65, 83, 69]

/-- Erase, write, and read back, each followed by a flush. -/
def installLoops (image : List UInt8) (extentCount dataStart maxBatch : ℕ) (hmax : 0 < maxBatch)
    (r : Run σ) : Report × Run σ :=
  match eraseLoop t zealDiskSects maxBatch hmax 0 r with
  | (some report, r) => (report, r)
  | (none, r) =>
      match r.flushDisk t with
      | (false, r) => (.eraseFlushFailed, r)
      | (true, r) =>
          match writeExtents t image maxBatch hmax 0 extentCount dataStart r with
          | (some report, r) => (report, r)
          | (none, r) =>
              match r.flushDisk t with
              | (false, r) => (.imageFlushFailed, r)
              | (true, r) =>
                  match verifyLoop t image extentCount zealDiskSects maxBatch hmax 0
                      ⟨0, dataStart⟩ r with
                  | (some report, r) => (report, r)
                  | (none, r) =>
                      match r.flushDisk t with
                      | (false, r) => (.verifyFlushFailed, r)
                      | (true, r) => (.installed, r)

/-- `zinstall_handle`. -/
def zinstallHandle (image args : List UInt8) (dev : σ) : Report × Run σ :=
  match zinstallImageValid image with
  | .error .outside => (.outside, ⟨dev, []⟩)
  | .error .invalid => (.unavailable, ⟨dev, []⟩)
  | .ok (extentCount, dataStart) =>
      if t.absoluteReady = false ∨ t.fullCapacity ≠ zealDiskSects then (.wrongTarget, ⟨dev, []⟩)
      else
        match (Run.mk dev []).flushDisk t with
        | (false, r) => (.noFlush, r)
        | (true, r) =>
            if args ≠ eraseWord then (.ready, r)
            else if h : t.maxSectors = 0 ∨ t.maxSectors * 512 > 65536 then (.badWindow, r)
            else
              installLoops t image extentCount dataStart t.maxSectors
                (Nat.pos_of_ne_zero fun h0 => h (.inl h0)) r

/-! ## The read-back -/

variable {image : List UInt8} {es : List Extent} {extentCount : ℕ}

theorem extentEntry_of_tableEntry {i lba n reserved : ℕ}
    (h : tableEntry image i = some (lba, n, reserved)) : extentEntry image i = some (lba, n) := by
  rw [tableEntry] at h
  rw [extentEntry]
  cases h1 : zinstallU64 image (40 + i * 16) with
  | none => rw [h1] at h; cases h
  | some a =>
    cases h2 : zinstallU32 image (40 + i * 16 + 8) with
    | none => rw [h1, h2] at h; cases h
    | some b =>
      cases h3 : zinstallU32 image (40 + i * 16 + 12) with
      | none => rw [h1, h2, h3] at h; cases h
      | some c => rw [h1, h2, h3] at h; cases h; rfl

/-- The cursor is as good as one at the first extent, for the sectors from `s` on. -/
def CursorInv (image : List UInt8) (es : List Extent) (extentCount : ℕ) (c : Cursor) (s : ℕ) :
    Prop :=
  ∃ rest prev, Table image prev c.extentIndex c.extentData rest ∧
    c.extentIndex + rest.length = extentCount ∧ ∀ u, s ≤ u → advance rest u = advance es u

/-- The cursor after the search stands at the extents that are not behind `s`. -/
theorem seek_spec {c : Cursor} {rest : List Extent} {prev s : ℕ}
    (h : Table image prev c.extentIndex c.extentData rest)
    (hcount : c.extentIndex + rest.length = extentCount) :
    ∃ c' prev', seek image extentCount s c = some c' ∧
      Table image prev' c'.extentIndex c'.extentData (advance rest s) ∧
      c'.extentIndex + (advance rest s).length = extentCount := by
  induction rest generalizing c prev with
  | nil =>
    rw [List.length_nil] at hcount
    rw [seek, if_neg (by omega)]
    exact ⟨c, prev, rfl, h, by rw [← hcount]; rfl⟩
  | cons e rest ih =>
    obtain ⟨i, off⟩ := c
    dsimp only at h hcount
    rw [List.length_cons] at hcount
    cases h with
    | @cons _ _ _ lba n _ hentry hprev hn hstop hrest =>
      rw [seek, if_pos (by dsimp only; omega)]
      dsimp only
      rw [extentEntry_of_tableEntry hentry]
      dsimp only
      by_cases hs : s < lba + n
      · rw [if_pos hs, advance_cons_of_lt hs]
        exact ⟨⟨i, off⟩, prev, rfl, .cons hentry hprev hn hstop hrest,
          by rw [List.length_cons]; exact hcount⟩
      · rw [if_neg hs, advance_cons_of_le (not_lt.1 hs)]
        exact ih hrest (by dsimp only; omega)

/-- With the cursor in its place the expected sector is the one of the module. -/
theorem expectedAt_spec {c : Cursor} {prev s : ℕ} (hsorted : Sorted es)
    (h : Table image prev c.extentIndex c.extentData (advance es s))
    (hcount : c.extentIndex + (advance es s).length = extentCount) :
    expectedAt image extentCount s c = some (some (expectedSector image es s)) ∨
      expectedAt image extentCount s c = some none ∧ expectedSector image es s = zeroSector := by
  have hfind := find_advance (s := s) hsorted
  cases hadv : advance es s with
  | nil =>
    rw [hadv] at hfind hcount
    dsimp only at hfind
    rw [List.length_nil] at hcount
    rw [expectedAt, if_neg (by omega), expectedSector, place, hfind]
    exact .inr ⟨rfl, rfl⟩
  | cons e rest =>
    have hlt := lt_stop_of_advance hadv
    rw [hadv] at hfind hcount h
    dsimp only at hfind
    rw [List.length_cons] at hcount
    rw [expectedAt, if_pos (by omega), expectedSector, place, hfind]
    obtain ⟨i, off⟩ := c
    have hroom := (h.mem (List.mem_cons_self ..)).2.2.2
    cases h with
    | @cons _ _ _ lba n _ hentry hprev hn hstop hrest =>
      dsimp only at hroom hlt ⊢
      rw [extentEntry_of_tableEntry hentry]
      dsimp only
      by_cases hs : lba ≤ s
      · have hin : s < lba + n := hlt
        rw [if_pos ⟨hs, hin⟩, if_pos hs, moduleBytes, if_pos (by omega)]
        exact .inl rfl
      · rw [if_neg fun hh => hs hh.1, if_neg hs]
        exact .inr ⟨rfl, rfl⟩

/-- What a batch gives: either every sector is right and the cursor has moved on, or one is
wrong. -/
theorem checkSectors_spec {buf : ℕ → UInt8} {sector n left : ℕ} {c : Cursor}
    (hsorted : Sorted es) (h : CursorInv image es extentCount c (sector + n)) :
    (∃ c', checkSectors image extentCount buf sector n left c = .ok c' ∧
        CursorInv image es extentCount c' (sector + (n + left)) ∧
        ∀ k, k < left → sectorOf buf (n + k) = expectedSector image es (sector + (n + k))) ∨
      ∃ s k, k < left ∧ sectorOf buf (n + k) ≠ expectedSector image es (sector + (n + k)) ∧
        (checkSectors image extentCount buf sector n left c = .error (.compareFailed s) ∨
          checkSectors image extentCount buf sector n left c = .error (.nonzeroGap s)) := by
  induction left generalizing n c with
  | zero =>
    rw [checkSectors]
    exact .inl ⟨c, rfl, h, fun k hk => absurd hk (Nat.not_lt_zero _)⟩
  | succ left ih =>
    obtain ⟨rest, prev, htable, hcount, hadv⟩ := h
    obtain ⟨c', prev', hseek, htable', hcount'⟩ := seek_spec (s := sector + n) htable hcount
    rw [hadv _ le_rfl] at htable' hcount'
    have hinv : CursorInv image es extentCount c' (sector + (n + 1)) :=
      ⟨_, prev', htable', hcount', fun u hu => advance_advance (by omega)⟩
    have hrun : ∀ result, (sectorOf buf n = expectedSector image es (sector + n) →
          result = checkSectors image extentCount buf sector (n + 1) left c') →
        (sectorOf buf n ≠ expectedSector image es (sector + n) →
          result = .error (.compareFailed (sector + n)) ∨
          result = .error (.nonzeroGap (sector + n))) →
        (∃ c', result = .ok c' ∧
            CursorInv image es extentCount c' (sector + (n + (left + 1))) ∧
            ∀ k, k < left + 1 → sectorOf buf (n + k) = expectedSector image es (sector + (n + k))) ∨
          ∃ s k, k < left + 1 ∧ sectorOf buf (n + k) ≠ expectedSector image es (sector + (n + k)) ∧
            (result = .error (.compareFailed s) ∨ result = .error (.nonzeroGap s)) := by
      intro result hright hwrong
      by_cases heq : sectorOf buf n = expectedSector image es (sector + n)
      · rw [hright heq]
        rcases ih hinv with ⟨c'', hok, hinv'', hall⟩ | ⟨s, k, hk, hne, herr⟩
        · refine .inl ⟨c'', hok, by rwa [Nat.add_assoc, Nat.add_comm 1] at hinv'', fun k hk => ?_⟩
          cases k with
          | zero => exact heq
          | succ k =>
            have := hall k (by omega)
            rwa [Nat.add_assoc, Nat.add_comm 1] at this
        · refine .inr ⟨s, k + 1, by omega, ?_, herr⟩
          rwa [Nat.add_assoc, Nat.add_comm 1] at hne
      · exact .inr ⟨sector + n, 0, Nat.succ_pos _, heq, hwrong heq⟩
    rw [checkSectors, hseek]
    dsimp only
    refine hrun _ (fun heq => ?_) fun hne => ?_
    · rcases expectedAt_spec hsorted htable' hcount' with hexp | ⟨hexp, hzero⟩
      · rw [hexp]
        dsimp only
        rw [if_pos heq]
      · rw [hexp]
        dsimp only
        rw [if_pos (by rw [heq, hzero])]
    · rcases expectedAt_spec hsorted htable' hcount' with hexp | ⟨hexp, hzero⟩
      · rw [hexp]
        dsimp only
        rw [if_neg hne]
        exact .inl rfl
      · rw [hexp]
        dsimp only
        rw [if_neg (by rwa [hzero] at hne)]
        exact .inr rfl

end ZealBringup.Install
