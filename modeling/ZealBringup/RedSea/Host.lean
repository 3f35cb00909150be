import ZealBringup.Lib.CrashDisk
import ZealBringup.RedSea.Format

/-!
# The RedSea root: the operations

The functions `rs_*` of `kernel_stub.c` that format a volume, put, load, delete and
rename a file of the root directory, on a block device whose writes may fail one by
one.  A write that fails leaves its sector alone.  The device is the RAM disk or the
virtio disk: both refuse a block beyond their capacity.

`rs_put_file` is split where it starts to write: `rsPutPlan` is what it finds out
and decides, `rsPutWrites` what it then does.
-/

set_option maxRecDepth 10000

namespace ZealBringup.RedSea

open Store CrashDisk

/-! ## The device -/

/-- The block device, and which of its writes fail. -/
structure Dev where
  capacity : ℕ
  disk : Disk Sector
  fails : ℕ → Bool
  writes : ℕ

/-- `hc_builtin_blkread` of one block. -/
def Dev.blkread (dev : Dev) (blk : ℕ) : Option Sector :=
  if dev.capacity < (blk + 1) % 2 ^ 64 then none else some (dev.disk blk)

/-- `hc_builtin_blkwrite` of one block. -/
def Dev.blkwrite (dev : Dev) (blk : ℕ) (s : Sector) : Bool × Dev :=
  if dev.capacity < (blk + 1) % 2 ^ 64 then (false, dev)
  else if dev.fails dev.writes then (false, { dev with writes := dev.writes + 1 })
  else (true, { dev with disk := Function.update dev.disk blk s, writes := dev.writes + 1 })

/-! ## The root directory -/

/-- Boot block and root directory. -/
structure Root where
  dir : Sector
  root : ℕ
  sects : ℕ

/-- The boot block: the root cluster and the size, or the error. -/
def bootRoot (br : Sector) : Except ℤ (ℕ × ℕ) :=
  if br.get 3 ≠ 0x88 ∨ br.get 510 ≠ 0x55 ∨ br.get 511 ≠ 0xAA then .error (-2)
  else if word64 br 24 = 0 then .error (-3)
  else .ok (word64 br 24, if 0 < word64 br 16 ∧ word64 br 16 ≤ 128 then word64 br 16 else 16)

/-- `rs_read_root`. -/
def rsReadRoot (dev : Dev) : Except ℤ Root :=
  match dev.blkread 0 with
  | none => .error (-1)
  | some br =>
      match bootRoot br with
      | .error e => .error e
      | .ok (root, sects) =>
          match dev.blkread root with
          | none => .error (-4)
          | some dir => .ok ⟨dir, root, sects⟩

/-- `e[2]`: a slot without a name is free. -/
def slotLive (dir : Sector) (i : Fin 8) : Bool := dir.get (i * 64 + 2) != 0

/-- `(const char *)(e + 2)`. -/
def slotName (dir : Sector) (i : Fin 8) : List UInt8 :=
  cString (dir.slice (i * 64 + 2) (510 - i * 64))

/-- The first cluster of a slot. -/
def slotBlk (dir : Sector) (i : Fin 8) : ℕ := word64 dir (i * 64 + 40)

/-- The length of a slot. -/
def slotLen (dir : Sector) (i : Fin 8) : ℕ := word64 dir (i * 64 + 48)

/-- `(len + 511) / 512`, in 64 bits. -/
def clusters (len : ℕ) : ℕ := (len + 511) % 2 ^ 64 / 512

/-- `rs_find_slot`. -/
def rsFindSlot (dir : Sector) (name : List UInt8) : Option (Fin 8) :=
  (List.finRange 8).find? fun i => slotLive dir i && strIeq (slotName dir i) name

/-- The first free slot. -/
def rsFreeSlot (dir : Sector) : Option (Fin 8) :=
  (List.finRange 8).find? fun i => !slotLive dir i

/-! ## Loading -/

/-- The loop of `rs_load_file`: `rest` bytes in `n` blocks. -/
def rsLoadBlocks (dev : Dev) : ℕ → ℕ → ℕ → Except ℤ (List UInt8)
  | _, _, 0 => .ok []
  | blk, rest, n + 1 =>
      match dev.blkread blk with
      | none => .error (-7)
      | some data =>
          match rsLoadBlocks dev (blk + 1) (rest - min rest 512) n with
          | .error e => .error e
          | .ok bytes => .ok (data.slice 0 (min rest 512) ++ bytes)

/-- `rs_load_file`. -/
def rsLoadFile (dev : Dev) (name : CStr) (cap : ℕ) : Except ℤ (List UInt8) :=
  if cap < 2 then .error (-1)
  else
    match rsReadRoot dev with
    | .error _ => .error (-2)
    | .ok r =>
        match rsFindSlot r.dir name.bytes with
        | none => .error (-6)
        | some i =>
            let fblk := slotBlk r.dir i
            let flen := slotLen r.dir i
            if fblk < 3 ∨ flen = 0 ∨ flen ≥ cap ∨ fblk > r.sects ∨
                clusters flen > r.sects - fblk then .error (-6)
            else rsLoadBlocks dev fblk flen ((flen + 511) / 512)

/-! ## Formatting -/

/-- The boot block of `rs_fmt_host`. -/
def bootBlock (sects uid : ℕ) : Sector :=
  let br := copyBytes zeroSector 3 [0x88]
  let br := setWord64 br 8 0
  let br := setWord64 br 16 sects
  let br := setWord64 br 24 2
  let br := setWord64 br 32 1
  let br := setWord64 br 40 uid
  copyBytes br 510 [0x55, 0xAA]

/-- The loop that clears the data clusters. -/
def rsClear (dev : Dev) : ℕ → ℕ → Bool × Dev
  | _, 0 => (true, dev)
  | i, n + 1 =>
      match dev.blkwrite i zeroSector with
      | (false, dev) => (false, dev)
      | (true, dev) => rsClear dev (i + 1) n

/-- `rs_fmt_host`. -/
def rsFmtHost (sects uid : ℕ) (dev : Dev) : ℤ × Dev :=
  if sects < 4 ∨ sects > 128 then (-1, dev)
  else
    match dev.blkwrite 0 (bootBlock sects uid) with
    | (false, dev) => (-2, dev)
    | (true, dev) =>
        match dev.blkwrite 1 (copyBytes zeroSector 0 [0x07]) with
        | (false, dev) => (-3, dev)
        | (true, dev) =>
            match dev.blkwrite 2 zeroSector with
            | (false, dev) => (-4, dev)
            | (true, dev) =>
                match rsClear dev 3 (sects - 3) with
                | (false, dev) => (-5, dev)
                | (true, dev) => (0, dev)

/-! ## Putting -/

/-- The first run of `n` free clusters. -/
def rsFindRun (map : Sector) (n sects : ℕ) : Option ℕ :=
  (List.range' 3 (sects - 2)).find? fun i =>
    decide (i + n ≤ sects) && (List.range n).all fun j => !mapBit map (i + j)

/-- What `rs_put_file` has decided when it starts to write. -/
structure PutPlan where
  root : Root
  oldMap : Sector
  map : Sector
  slot : Fin 8
  existing : Bool
  newRun : Bool
  fblk : ℕ
  nclus : ℕ
  oldBlk : ℕ
  oldNclus : ℕ

/-- The run for the data: that of the file if it fits, or a new one. -/
def rsPutRun (r : Root) (map : Sector) (slot : Fin 8) (existing : Bool)
    (nclus oldBlk oldNclus : ℕ) : Except ℤ PutPlan :=
  if existing = false ∨ nclus > oldNclus then
    match rsFindRun map nclus r.sects with
    | none => .error (-8)
    | some fblk =>
        .ok ⟨r, map, markRun map fblk nclus, slot, existing, true, fblk, nclus, oldBlk, oldNclus⟩
  else .ok ⟨r, map, map, slot, existing, false, oldBlk, nclus, oldBlk, oldNclus⟩

/-- The checks of `rs_put_file`. -/
def rsPutPlan (name : CStr) (src : List UInt8) (dev : Dev) : Except ℤ PutPlan :=
  if src.length = 0 ∨ name.bytes.length > 37 ∨ src.length > 65536 then .error (-1)
  else
    match rsReadRoot dev with
    | .error _ => .error (-2)
    | .ok r =>
        if r.sects < 4 ∨ r.sects > 128 then .error (-2)
        else
          match dev.blkread 1 with
          | none => .error (-7)
          | some map =>
              match rsFindSlot r.dir name.bytes with
              | some slot =>
                  let oldBlk := slotBlk r.dir slot
                  let oldNclus := clusters (slotLen r.dir slot)
                  if slotLen r.dir slot = 0 ∨ oldBlk < 3 ∨ (oldBlk + oldNclus) % 2 ^ 64 > r.sects then
                    .error (-3)
                  else rsPutRun r map slot true ((src.length + 511) / 512) oldBlk oldNclus
              | none =>
                  match rsFreeSlot r.dir with
                  | none => .error (-6)
                  | some slot => rsPutRun r map slot false ((src.length + 511) / 512) 0 0

/-- The loop that writes the data. -/
def rsWriteBlocks (dev : Dev) (fblk : ℕ) (src : List UInt8) : ℕ → ℕ → Bool × Dev
  | _, 0 => (true, dev)
  | j, n + 1 =>
      match dev.blkwrite (fblk + j) (dataBlock src j) with
      | (false, dev) => (false, dev)
      | (true, dev) => rsWriteBlocks dev fblk src (j + 1) n

/-- The name field of a slot. -/
def setName (dir : Sector) (i : Fin 8) (name : List UInt8) : Sector :=
  copyBytes dir (i * 64 + 2) (name ++ [0])

/-- A slot of zeros. -/
def clearSlot (dir : Sector) (i : Fin 8) : Sector :=
  copyBytes dir (i * 64) (List.replicate 64 0)

/-- Where the data of a slot is. -/
def setExtent (dir : Sector) (i : Fin 8) (blk len : ℕ) : Sector :=
  setWord64 (setWord64 (setWord64 dir (i * 64 + 40) blk) (i * 64 + 48) len) (i * 64 + 56) 0

/-- The directory that `rs_put_file` writes. -/
def PutPlan.newDir (p : PutPlan) (name : CStr) (len : ℕ) : Sector :=
  let named := if p.existing then p.root.dir
    else setName (copyBytes (clearSlot p.root.dir p.slot) (p.slot * 64) [0x20, 0x04]) p.slot
      name.bytes
  setExtent named p.slot p.fblk len

/-- The map after the old clusters have been released. -/
def PutPlan.freedMap (p : PutPlan) : Sector :=
  if p.newRun then freeRun p.map p.oldBlk p.oldNclus
  else freeRun p.map (p.oldBlk + p.nclus) (p.oldNclus - p.nclus)

/-- The writes of `rs_put_file`. -/
def rsPutWrites (p : PutPlan) (name : CStr) (src : List UInt8) (dev : Dev) : ℤ × Dev :=
  match rsWriteBlocks dev p.fblk src 0 p.nclus with
  | (false, dev) => (-12, dev)
  | (true, dev) =>
      match if p.newRun then dev.blkwrite 1 p.map else (true, dev) with
      | (false, dev) => (-9, dev)
      | (true, dev) =>
          match dev.blkwrite p.root.root (p.newDir name src.length) with
          | (false, dev) => (-10, if p.newRun then (dev.blkwrite 1 p.oldMap).2 else dev)
          | (true, dev) =>
              if p.existing = true ∧ (p.newRun = true ∨ p.nclus < p.oldNclus) then
                match dev.blkwrite 1 p.freedMap with
                | (false, dev) => (-13, dev)
                | (true, dev) => (0, dev)
              else (0, dev)

/-- `rs_put_file`. -/
def rsPutFile (name : CStr) (src : List UInt8) (dev : Dev) : ℤ × Dev :=
  match rsPutPlan name src dev with
  | .error e => (e, dev)
  | .ok p => rsPutWrites p name src dev

/-! ## Deleting and renaming -/

/-- `"."` or `".."`. -/
def isDots (name : CStr) : Bool := strIeq name.bytes [46] || strIeq name.bytes [46, 46]

/-- `rs_del_file`. -/
def rsDelFile (name : CStr) (dev : Dev) : ℤ × Dev :=
  if isDots name then (-1, dev)
  else
    match rsReadRoot dev with
    | .error _ => (-2, dev)
    | .ok r =>
        match rsFindSlot r.dir name.bytes with
        | none => (-3, dev)
        | some slot =>
            if slotBlk r.dir slot = 0 then (-3, dev)
            else
              match dev.blkread 1 with
              | none => (-4, dev)
              | some map =>
                  let nclus := max 1 (clusters (slotLen r.dir slot)) % 2 ^ 32
                  match dev.blkwrite 1 (freeRun map (slotBlk r.dir slot) nclus) with
                  | (false, dev) => (-5, dev)
                  | (true, dev) =>
                      match dev.blkwrite r.root (clearSlot r.dir slot) with
                      | (false, dev) => (-6, dev)
                      | (true, dev) => (0, dev)

/-- `rs_rename_file`. -/
def rsRenameFile (oldn newn : CStr) (dev : Dev) : ℤ × Dev :=
  if isDots oldn then (-1, dev)
  else if newn.bytes.length = 0 ∨ newn.bytes.length > 37 then (-1, dev)
  else
    match rsReadRoot dev with
    | .error _ => (-2, dev)
    | .ok r =>
        match rsFindSlot r.dir oldn.bytes with
        | none => (-3, dev)
        | some slot =>
            if strIeq oldn.bytes newn.bytes = false ∧ (rsFindSlot r.dir newn.bytes).isSome then
              (-4, dev)
            else
              let blank := copyBytes r.dir (slot * 64 + 2) (List.replicate 38 0)
              match dev.blkwrite r.root (setName blank slot newn.bytes) with
              | (false, dev) => (-5, dev)
              | (true, dev) => (0, dev)

end ZealBringup.RedSea
