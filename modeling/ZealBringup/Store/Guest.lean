import ZealBringup.Lib.CrashDisk
import ZealBringup.Store.Format

/-!
# The native source partition: the guest's operations

The stateful half of `zc_source_store.h` over the block device of
`virtio_blk.h`.  A `Machine` is the device, what it holds, what was done to it
and the globals of the store; every operation returns its C result and the
machine it leaves behind.

The device answers each command by `outcome`: it may do what it was told, lose
a write, or carry it out and still report a failure.  `trace` collects what took
effect, in the form the power-cut semantics of `CrashDisk` reads.
-/

namespace ZealBringup.Store

open CrashDisk

/-! ## The device -/

/-- `ZEAL_SRC_LBA_BASE`. -/
def zealSrcLbaBase : ℕ := 131039

/-- `ZEAL_SRC_SECTS`. -/
def zealSrcSects : ℕ := 65536

/-- `ZEAL_SRC_SHADOW_LBA`. -/
def zealSrcShadowLba : ℕ := 196575

/-- `ZEAL_SRC_SHADOW_SECTS`. -/
def zealSrcShadowSects : ℕ := 65536

/-- What the device makes of a command. -/
inductive Outcome where
  /-- Carried out and reported so. -/
  | done
  /-- Not carried out, reported as a failure. -/
  | lost
  /-- Carried out, but reported as a failure. -/
  | landed
  deriving DecidableEq, Repr

/-- The fields of `g_vb` the store looks at. -/
structure VirtioBlk where
  ready : Bool
  pci : Bool
  fullCapacity : ℕ
  flushSupported : Bool

/-- The device, its contents and history, and the globals `g_zss_*`. -/
structure Machine where
  vb : VirtioBlk
  /-- The answer to the `n`-th command. -/
  outcome : ℕ → Outcome
  disk : Disk Sector
  /-- The writes that reached the device and the flushes that succeeded. -/
  trace : List (Event Sector)
  /-- Commands issued so far. -/
  commands : ℕ
  zssBase : ℕ
  zssSectors : ℕ
  zssGeneration : ℕ
  catalogRevision : ℕ
  catalogValid : Bool

/-- `virtio_blk_absolute_ready`. -/
def VirtioBlk.absoluteReady (vb : VirtioBlk) : Bool := vb.ready && vb.pci

/-- `virtio_blk_read_abs`. -/
def virtioBlkReadAbs (m : Machine) (lba : ℕ) : Option Sector :=
  if m.vb.absoluteReady ∧ lba < m.vb.fullCapacity then some (m.disk lba) else none

/-- `virtio_blk_write_abs`. -/
def virtioBlkWriteAbs (m : Machine) (lba : ℕ) (buf : Sector) : Bool × Machine :=
  if m.vb.absoluteReady ∧ lba < m.vb.fullCapacity then
    let next := m.commands + 1
    let written : Machine :=
      { m with disk := Function.update m.disk lba buf, trace := m.trace ++ [Event.write lba buf],
               commands := next }
    match m.outcome m.commands with
    | .done => (true, written)
    | .lost => (false, { m with commands := next })
    | .landed => (false, written)
  else (false, m)

/-- `virtio_blk_flush_abs`. -/
def virtioBlkFlushAbs (m : Machine) : Bool × Machine :=
  if m.vb.absoluteReady ∧ m.vb.flushSupported then
    match m.outcome m.commands with
    | .done => (true, { m with trace := m.trace ++ [Event.flush], commands := m.commands + 1 })
    | _ => (false, { m with commands := m.commands + 1 })
  else (false, m)

/-! ## Banks -/

/-- `zss_bank_read`. -/
def zssBankRead (m : Machine) (base sector : ℕ) : Option Sector := virtioBlkReadAbs m (base + sector)

/-- `zss_bank_write`. -/
def zssBankWrite (m : Machine) (base sector : ℕ) (buf : Sector) : Bool × Machine :=
  virtioBlkWriteAbs m (base + sector) buf

/-- `zss_sector_read`. -/
def zssSectorRead (m : Machine) (sector : ℕ) : Option Sector :=
  if sector < m.zssSectors then zssBankRead m m.zssBase sector else none

/-- `zss_sector_write`. -/
def zssSectorWrite (m : Machine) (sector : ℕ) (buf : Sector) : Bool × Machine :=
  if sector < m.zssSectors then zssBankWrite m m.zssBase sector buf else (false, m)

/-- `zss_terminate_log`. -/
def zssTerminateLog (m : Machine) (next : ℕ) : Bool × Machine :=
  if next ≥ m.zssSectors then (true, m) else zssSectorWrite m next zeroSector

/-- `"ZCSRC001"`. -/
def superMagic1 : List UInt8 := [90, 67, 83, 82, 67, 48, 48, 49]

/-- `"ZCSRC002"`. -/
def superMagic2 : List UInt8 := [90, 67, 83, 82, 67, 48, 48, 50]

/-- The superblock test of `zss_probe_bank`: the generation it announces. -/
@[irreducible] def superGeneration (sectors : ℕ) (sector : Sector) : Option ℕ :=
  if zssU32 sector 12 ≠ sectors then none
  else if zssEq sector superMagic1 ∧ zssU32 sector 8 = 1 then some 0
  else if zssEq sector superMagic2 ∧ zssU32 sector 8 = 2 ∧
      zssU32 sector 20 = (zssCrc (sector.slice 0 20)).toNat then
    if zssU32 sector 16 ≠ 0 then some (zssU32 sector 16) else none
  else none

/-- `zss_probe_bank`; the value is `*generation`. -/
def zssProbeBank (m : Machine) (base sectors : ℕ) : Option ℕ :=
  if m.vb.fullCapacity < base + sectors then none
  else
    match zssBankRead m base 0 with
    | none => none
    | some sector => superGeneration sectors sector

/-- `zss_available`: selects the bank with the newer superblock. -/
def zssAvailable (m : Machine) : Bool × Machine :=
  if ¬m.vb.absoluteReady then (false, m)
  else
    let a := zssProbeBank m zealSrcLbaBase zealSrcSects
    let b := zssProbeBank m zealSrcShadowLba zealSrcShadowSects
    match a, b with
    | none, none => (false, m)
    | none, some bGen =>
        (true, { m with zssBase := zealSrcShadowLba, zssSectors := zealSrcShadowSects,
                        zssGeneration := bGen })
    | some aGen, some bGen =>
        if bGen > aGen then
          (true, { m with zssBase := zealSrcShadowLba, zssSectors := zealSrcShadowSects,
                          zssGeneration := bGen })
        else
          (true, { m with zssBase := zealSrcLbaBase, zssSectors := zealSrcSects,
                          zssGeneration := aGen })
    | some aGen, none =>
        (true, { m with zssBase := zealSrcLbaBase, zssSectors := zealSrcSects,
                        zssGeneration := aGen })

/-! ## Scanning -/

/-- The result of `zss_find` and its out-parameters: 1 found, 0 absent, -1 damaged
or I/O, -2 unavailable, -3 tombstoned. -/
structure FindResult where
  status : ℤ
  /-- `*out`, once a record matched. -/
  out : Option ZssEntry
  /-- `*out_tail`. -/
  tail : ℕ
  /-- `*out_records`. -/
  records : ℕ

/-- The loop of `zss_find`.  `fuel` bounds the number of headers; a bank has fewer
headers than sectors. -/
def zssFindLoop (m : Machine) (name : Option (List UInt8)) :
    ℕ → ℕ → ℕ → ℤ → Option ZssEntry → FindResult
  | 0, pos, records, found, out => ⟨found, out, pos, records⟩
  | fuel + 1, pos, records, found, out =>
      if pos < m.zssSectors then
        match zssSectorRead m pos with
        | none => ⟨-1, out, 0, 0⟩
        | some sector =>
            if isEmptySector sector then ⟨found, out, pos, records⟩
            else
              match zssDecodeRecord m.zssSectors sector pos with
              | none => ⟨-1, out, 0, 0⟩
              | some r =>
                  if name = some r.name then
                    zssFindLoop m name fuel (pos + 1 + r.entry.blocks) (records + 1)
                      (if r.deleted then -3 else 1) (some r.entry)
                  else
                    zssFindLoop m name fuel (pos + 1 + r.entry.blocks) (records + 1) found out
      else ⟨found, out, pos, records⟩

/-- `zss_find`. -/
def zssFind (m : Machine) (name : Option (List UInt8)) : FindResult × Machine :=
  if name.any fun n => (zssNameOk n).isNone then (⟨-1, none, 0, 0⟩, m)
  else
    match zssAvailable m with
    | (false, m') => (⟨-2, none, 0, 0⟩, m')
    | (true, m') => (zssFindLoop m' name m'.zssSectors 1 0 0 none, m')

/-! ## Reading -/

/-- The loop shared by `zss_read` and `zss_verify`: `n` blocks from block `b` on. -/
def zssReadLoop (m : Machine) (e : ZssEntry) :
    ℕ → ℕ → ℕ → UInt32 → List UInt8 → Option (UInt32 × List UInt8)
  | 0, _, _, crc, dst => some (crc, dst)
  | n + 1, b, off, crc, dst =>
      let chunk := if e.length - off > 512 then 512 else e.length - off
      match zssSectorRead m (e.headerSector + 1 + b) with
      | none => none
      | some sector =>
          let bytes := sector.slice 0 chunk
          zssReadLoop m e n (b + 1) (off + chunk) (bytes.foldl zssCrcStep crc) (dst ++ bytes)

/-- `zss_read` into a buffer of `cap` bytes: the result and what was copied. -/
def zssRead (m : Machine) (e : ZssEntry) (cap : ℕ) : ℤ × List UInt8 :=
  if cap ≤ e.length then (-1, [])
  else
    match zssReadLoop m e e.blocks 0 0 0xffffffff [] with
    | none => (-1, [])
    | some (crc, dst) => (if (crc ^^^ 0xffffffff).toNat = e.checksum then 0 else -1, dst)

/-- `zss_verify`. -/
def zssVerify (m : Machine) (e : ZssEntry) : ℤ :=
  match zssReadLoop m e e.blocks 0 0 0xffffffff [] with
  | none => -1
  | some (crc, _) => if (crc ^^^ 0xffffffff).toNat = e.checksum then 0 else -1

/-! ## Appending -/

/-- `g_vb.flush_supported && !virtio_blk_flush_abs()`, as a success. -/
def zssFlush (m : Machine) : Bool × Machine :=
  if m.vb.flushSupported then virtioBlkFlushAbs m else (true, m)

/-- `g_zss_catalog_valid = 0; g_zss_catalog_revision++`. -/
def Machine.catalogChanged (m : Machine) : Machine :=
  { m with catalogValid := false, catalogRevision := m.catalogRevision + 1 }

/-- The header that makes a record visible, and the last flush. -/
def zssCommit (m : Machine) (tail : ℕ) (header : Sector) : ℤ × Machine :=
  match zssSectorWrite m tail header with
  | (false, m) => (-1, m)
  | (true, m) =>
      match zssFlush m.catalogChanged with
      | (false, m) => (-5, m)
      | (true, m) => (0, m)

/-- The end of `zss_put`, `zss_delete` and `zss_stream_finish`: the terminator after
the new record, a flush, and only then the header. -/
def zssPublish (m : Machine) (tail next : ℕ) (header : Sector) : ℤ × Machine :=
  match zssTerminateLog m next with
  | (false, m) => (-1, m)
  | (true, m) =>
      match zssFlush m with
      | (false, m) => (-1, m)
      | (true, m) => zssCommit m tail header

/-- The block loop of `zss_put`: `n` blocks from block `b` on, and the checksum. -/
def zssPutBlocks (src : List UInt8) (tail : ℕ) : ℕ → ℕ → UInt32 → Machine → Option UInt32 × Machine
  | 0, _, crc, m => (some crc, m)
  | n + 1, b, crc, m =>
      let bytes := (src.drop (b * 512)).take 512
      match zssSectorWrite m (tail + 1 + b) (padSector bytes) with
      | (false, m) => (none, m)
      | (true, m) => zssPutBlocks src tail n (b + 1) (bytes.foldl zssCrcStep crc) m

/-- `zss_put`: 0 saved, -2 unavailable, -3 full, -1 invalid or I/O. -/
def zssPut (m : Machine) (name src : List UInt8) : ℤ × Machine :=
  if src.length = 0 ∨ src.length > zssMaxFile ∨ (zssNameOk name).isNone then (-1, m)
  else
    match zssFind m none with
    | (scan, m) =>
        if scan.status < 0 then (scan.status, m)
        else
          let blocks := (src.length + 511) / 512
          if scan.tail + 1 + blocks > m.zssSectors then (-3, m)
          else
            match zssPutBlocks src scan.tail blocks 0 0xffffffff m with
            | (none, m) => (-1, m)
            | (some crc, m) =>
                zssPublish m scan.tail (scan.tail + 1 + blocks)
                  (fileHeader src.length (crc ^^^ 0xffffffff).toNat blocks name)

/-- `zss_delete`: 0 deleted, -2 unavailable, -3 full, -4 missing, -1 invalid/I/O. -/
def zssDelete (m : Machine) (name : List UInt8) : ℤ × Machine :=
  if (zssNameOk name).isNone then (-1, m)
  else
    match zssFind m (some name) with
    | (found, m) =>
        if found.status = 0 ∨ found.status = -3 then (-4, m)
        else if found.status < 0 then (found.status, m)
        else if found.tail ≥ m.zssSectors then (-3, m)
        else zssPublish m found.tail (found.tail + 1) (deleteHeader name)

/-! ## Streamed uploads -/

/-- `struct zss_stream`. -/
structure ZssStream where
  tail : ℕ
  length : ℕ
  written : ℕ
  expectedCrc : ℕ
  crc : UInt32
  name : List UInt8
  sector : Sector

/-- `zss_stream_begin`; on success the stream is set up. -/
def zssStreamBegin (m : Machine) (name : List UInt8) (length expectedCrc : ℕ) :
    ℤ × Option ZssStream × Machine :=
  if length = 0 ∨ length > zssMaxFile ∨ (zssNameOk name).isNone then (-1, none, m)
  else
    match zssFind m none with
    | (scan, m) =>
        if scan.status < 0 then (scan.status, none, m)
        else if scan.tail + 1 + (length + 511) / 512 > m.zssSectors then (-3, none, m)
        else (0, some ⟨scan.tail, length, 0, expectedCrc, 0xffffffff, name, zeroSector⟩, m)

/-- The byte loop of `zss_stream_write`: a sector goes out each time it is full. -/
def zssStreamBytes : List UInt8 → ZssStream → Machine → Bool × ZssStream × Machine
  | [], s, m => (true, s, m)
  | byte :: src, s, m =>
      let s : ZssStream :=
        { s with sector := fun i => if i.val = s.written % 512 then byte else s.sector i,
                 crc := zssCrcStep s.crc byte, written := s.written + 1 }
      if s.written % 512 = 0 then
        match zssSectorWrite m (s.tail + s.written / 512) s.sector with
        | (false, m) => (false, s, m)
        | (true, m) => zssStreamBytes src { s with sector := zeroSector } m
      else zssStreamBytes src s m

/-- `zss_stream_write`. -/
def zssStreamWrite (s : ZssStream) (src : List UInt8) (m : Machine) : ℤ × ZssStream × Machine :=
  if src.length > s.length - s.written then (-1, s, m)
  else
    match zssStreamBytes src s m with
    | (true, s, m) => (0, s, m)
    | (false, s, m) => (-1, s, m)

/-- `zss_stream_finish`: 0 saved, -4 checksum/length mismatch, -1 I/O. -/
def zssStreamFinish (s : ZssStream) (m : Machine) : ℤ × Machine :=
  if s.written ≠ s.length ∨ (s.crc ^^^ 0xffffffff).toNat ≠ s.expectedCrc then (-4, m)
  else
    let blocks := (s.length + 511) / 512
    let header := fileHeader s.length s.expectedCrc blocks s.name
    if s.written % 512 ≠ 0 then
      match zssSectorWrite m (s.tail + 1 + s.written / 512) s.sector with
      | (false, m) => (-1, m)
      | (true, m) => zssPublish m s.tail (s.tail + 1 + blocks) header
    else zssPublish m s.tail (s.tail + 1 + blocks) header

/-! ## Compaction -/

/-- `latest.header_sector == pos && status == (deleted ? -3 : 1)`. -/
def zssIsLatest (latest : FindResult) (pos : ℕ) (r : LogRecord) : Bool :=
  latest.out.any (fun e => e.headerSector == pos) &&
    decide (latest.status = if r.deleted then -3 else 1)

/-- The checking pass of `zss_compact`: the room needed and the records kept, or the
code to return. -/
def zssCompactCheck (targetSectors tail : ℕ) :
    ℕ → ℕ → ℕ → ℕ → Machine → Except ℤ (ℕ × ℕ) × Machine
  | 0, _, need, kept, m => (.ok (need, kept), m)
  | fuel + 1, pos, need, kept, m =>
      if pos < tail then
        match (zssSectorRead m pos).bind fun header => zssDecodeRecord m.zssSectors header pos with
        | none => (.error (-1), m)
        | some r =>
            match zssFind m (some r.name) with
            | (latest, m) =>
                if latest.status ≠ 1 ∧ latest.status ≠ -3 then (.error (-1), m)
                else if zssIsLatest latest pos r then
                  if r.deleted = false ∧ zssVerify m r.entry ≠ 0 then (.error (-1), m)
                  else if need + 1 + r.entry.blocks > targetSectors then (.error (-3), m)
                  else
                    zssCompactCheck targetSectors tail fuel (pos + 1 + r.entry.blocks)
                      (need + 1 + r.entry.blocks) (kept + 1) m
                else
                  zssCompactCheck targetSectors tail fuel (pos + 1 + r.entry.blocks) need kept m
      else (.ok (need, kept), m)

/-- The sectors of one record, copied to the other bank and read back: `n` of them
from the `b`-th on. -/
def zssCopyRecord (target pos next : ℕ) : ℕ → ℕ → Machine → Bool × Machine
  | 0, _, m => (true, m)
  | n + 1, b, m =>
      match zssSectorRead m (pos + b) with
      | none => (false, m)
      | some copied =>
          match zssBankWrite m target (next + b) copied with
          | (false, m) => (false, m)
          | (true, m) =>
              match zssBankRead m target (next + b) with
              | none => (false, m)
              | some check =>
                  if copied = check then zssCopyRecord target pos next n (b + 1) m else (false, m)

/-- The copying pass of `zss_compact`: where the new log ends, or the code to
return. -/
def zssCompactCopy (target tail : ℕ) : ℕ → ℕ → ℕ → Machine → Except ℤ ℕ × Machine
  | 0, _, next, m => (.ok next, m)
  | fuel + 1, pos, next, m =>
      if pos < tail then
        match (zssSectorRead m pos).bind fun header => zssDecodeRecord m.zssSectors header pos with
        | none => (.error (-1), m)
        | some r =>
            match zssFind m (some r.name) with
            | (latest, m) =>
                if latest.status ≠ 1 ∧ latest.status ≠ -3 then (.error (-1), m)
                else if zssIsLatest latest pos r then
                  match zssCopyRecord target pos next (r.entry.blocks + 1) 0 m with
                  | (false, m) => (.error (-1), m)
                  | (true, m) =>
                      zssCompactCopy target tail fuel (pos + 1 + r.entry.blocks)
                        (next + 1 + r.entry.blocks) m
                else zssCompactCopy target tail fuel (pos + 1 + r.entry.blocks) next m
      else (.ok next, m)

/-- The v2 superblock `zss_compact` commits. -/
def superblock2 (sectors generation : ℕ) : Sector :=
  let header := zssW32 (zssW32 (zssW32 (copyBytes zeroSector 0 superMagic2) 8 2) 12 sectors)
    16 generation
  zssW32 header 20 (zssCrc (header.slice 0 20)).toNat

/-- What `zss_compact` reports through its pointers: `*old_sectors`, `*new_sectors`
and `*kept_records`. -/
structure CompactReport where
  oldSectors : ℕ
  newSectors : ℕ
  keptRecords : ℕ

/-- The last part of `zss_compact`: the terminator of the new log, a flush, the
superblock that switches banks, a flush. -/
def zssCompactCommit (m : Machine) (target targetSectors tail next kept : ℕ) :
    ℤ × Option CompactReport × Machine :=
  match (if next < targetSectors then zssBankWrite m target next zeroSector else (true, m)) with
  | (false, m) => (-1, none, m)
  | (true, m) =>
      match virtioBlkFlushAbs m with
      | (false, m) => (-1, none, m)
      | (true, m) =>
          match zssBankWrite m target 0 (superblock2 targetSectors (m.zssGeneration + 1)) with
          | (false, m) => (-1, none, m)
          | (true, m) =>
              match virtioBlkFlushAbs m with
              | (false, m) => (-5, none, m)
              | (true, m) =>
                  match zssAvailable m with
                  | (available, m) =>
                      if ¬available ∨ m.zssBase ≠ target then (-1, none, m)
                      else (0, some ⟨tail, next, kept⟩, m)

/-- The part of `zss_compact` behind the checks: copy, and switch if everything that was
counted has been copied. -/
def zssCompactMove (m : Machine) (target targetSectors tail need kept : ℕ) :
    ℤ × Option CompactReport × Machine :=
  match zssCompactCopy target tail m.zssSectors 1 1 m with
  | (.error code, m) => (code, none, m)
  | (.ok next, m) =>
      if next ≠ need then (-1, none, m)
      else zssCompactCommit m target targetSectors tail next kept

/-- The bank the compacted log goes to. -/
def zssOtherBank (source : ℕ) : ℕ × ℕ :=
  if source = zealSrcLbaBase then (zealSrcShadowLba, zealSrcShadowSects)
  else (zealSrcLbaBase, zealSrcSects)

/-- `zss_compact`. -/
def zssCompact (m : Machine) : ℤ × Option CompactReport × Machine :=
  match zssFind m none with
  | (scan, m) =>
      if scan.status < 0 then (-2, none, m)
      else
        let target := (zssOtherBank m.zssBase).1
        let targetSectors := (zssOtherBank m.zssBase).2
        if m.vb.fullCapacity < target + targetSectors ∨ m.zssGeneration = 2 ^ 32 - 1 ∨
            ¬m.vb.flushSupported then (-4, none, m)
        else
          match virtioBlkFlushAbs m with
          | (false, m) => (-1, none, m)
          | (true, m) =>
              match zssCompactCheck targetSectors scan.tail m.zssSectors 1 1 0 m with
              | (.error code, m) => (code, none, m)
              | (.ok (need, kept), m) => zssCompactMove m target targetSectors scan.tail need kept

end ZealBringup.Store
