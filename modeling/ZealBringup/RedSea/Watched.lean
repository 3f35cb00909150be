import ZealBringup.Lib.Checked
import ZealBringup.RedSea.Host
import ZealBringup.Store.Guest

/-!
# The RedSea root: the operations, every access watched

The functions `rs_*` once more, this time with what they touch.  A run ends with a `Fault` at
the first byte of `map[]`, `dir[]` or `dst[]` outside of its array, at the first sector outside
of the device, at the first sum of 64 bits that is not the sum, and where a counter of 32 bits
would have to reach a count it cannot reach.

* `blkread`, `blkwrite` — the bound check of `hc_builtin_blkread` is on such a sum.
* `rsLoadFile`, `rsPutFile`, `rsDelFile`, `rsRenameFile`, `zealRedseaFileAt` — the operations.
-/

namespace ZealBringup.RedSea.Watched

open Store

/-! ## What is watched -/

/-- What must not happen. -/
inductive Fault where
  | sector (blk : ℕ)
  | map (i : ℕ)
  | dir (i : ℕ)
  | dst (i : ℕ)
  | wrap (a b : ℕ)
  | endless (count : ℕ)
  deriving DecidableEq, Repr

/-- What went wrong in a run. -/
def faultOf {α : Type} : Except Fault α → Option Fault
  | .ok _ => none
  | .error f => some f

/-- To go on only under a condition. -/
def need (c : Prop) [Decidable c] (f : Fault) : Except Fault Unit := if c then .ok () else .error f

/-- A sum of 64 bits. -/
def add64 (a b : ℕ) : Except Fault ℕ := if a + b < 2 ^ 64 then .ok (a + b) else .error (.wrap a b)

/-- `hc_builtin_blkread` of one block. -/
def blkread (dev : Dev) (blk : ℕ) : Except Fault (Option Sector) := do
  let last ← add64 blk 1
  if dev.capacity < last then .ok none
  else do
    need (blk + 1 ≤ dev.capacity) (.sector blk)
    .ok (dev.blkread blk)

/-- `hc_builtin_blkwrite` of one block. -/
def blkwrite (dev : Dev) (blk : ℕ) (s : Sector) : Except Fault (Bool × Dev) := do
  let last ← add64 blk 1
  if dev.capacity < last then .ok (false, dev)
  else do
    need (blk + 1 ≤ dev.capacity) (.sector blk)
    .ok (dev.blkwrite blk s)

/-- `dir[i]`. -/
def dirGet (dir : Sector) (i : ℕ) : Except Fault UInt8 :=
  if i < 512 then .ok (dir.get i) else .error (.dir i)

/-- A word of `dir[]`. -/
def dirWord (dir : Sector) (off : ℕ) : Except Fault ℕ :=
  if off + 8 ≤ 512 then .ok (word64 dir off) else .error (.dir (off + 7))

/-- Consecutive bytes of `dir[]` are written. -/
def dirPut (dir : Sector) (off : ℕ) (bytes : List UInt8) : Except Fault Sector :=
  if off + bytes.length ≤ 512 then .ok (copyBytes dir off bytes)
  else .error (.dir (off + bytes.length - 1))

/-- A word of `dir[]` is written. -/
def dirPutWord (dir : Sector) (off v : ℕ) : Except Fault Sector :=
  if off + 8 ≤ 512 then .ok (setWord64 dir off v) else .error (.dir (off + 7))

/-- `map[b >> 3] & (1u << (b & 7))`. -/
def mapTest (map : Sector) (b : ℕ) : Except Fault Bool :=
  if b / 8 < 512 then .ok (mapBit map b) else .error (.map (b / 8))

/-- `map[b >> 3] |= 1u << (b & 7)`. -/
def mapSet (map : Sector) (b : ℕ) : Except Fault Sector :=
  if b / 8 < 512 then .ok (setBit map b) else .error (.map (b / 8))

/-- `map[b >> 3] &= ~(1u << (b & 7))`. -/
def mapClear (map : Sector) (b : ℕ) : Except Fault Sector :=
  if b / 8 < 512 then .ok (clearBit map b) else .error (.map (b / 8))

/-! ## The root directory -/

/-- `rs_read_root`. -/
def rsReadRoot (dev : Dev) : Except Fault (Except ℤ Root) := do
  match ← blkread dev 0 with
  | none => .ok (.error (-1))
  | some br =>
      match bootRoot br with
      | .error e => .ok (.error e)
      | .ok (root, sects) => do
          match ← blkread dev root with
          | none => .ok (.error (-4))
          | some dir => .ok (.ok ⟨dir, root, sects⟩)

/-- `str_ieq` of the bytes of `dir[]` from `off` on with a name.  A byte of the directory is
looked at before it is known whether the name has ended. -/
def strIeqAt (dir : Sector) (off : ℕ) : List UInt8 → Except Fault Bool
  | [] => do
      let a ← dirGet dir off
      .ok (a == 0)
  | b :: bs => do
      let a ← dirGet dir off
      if a = 0 then .ok false
      else if strLower a ≠ strLower b then .ok false
      else strIeqAt dir (off + 1) bs

/-- The loop of `rs_find_slot`. -/
def findLoop (dir : Sector) (name : List UInt8) :
    List (Fin 8) → Except Fault (Option (Fin 8 × ℕ × ℕ))
  | [] => .ok none
  | i :: slots => do
      let first ← dirGet dir (i * 64 + 2)
      if first = 0 then findLoop dir name slots
      else do
        let same ← strIeqAt dir (i * 64 + 2) name
        if same = false then findLoop dir name slots
        else do
          let blk ← dirWord dir (i * 64 + 40)
          let len ← dirWord dir (i * 64 + 48)
          .ok (some (i, blk, len))

/-- `rs_find_slot`. -/
def rsFindSlot (dir : Sector) (name : List UInt8) : Except Fault (Option (Fin 8 × ℕ × ℕ)) :=
  findLoop dir name (List.finRange 8)

/-- The loop of `rs_put_file` that looks for a free slot. -/
def freeSlotLoop (dir : Sector) : List (Fin 8) → Except Fault (Option (Fin 8))
  | [] => .ok none
  | i :: slots => do
      let first ← dirGet dir (i * 64 + 2)
      if first = 0 then .ok (some i) else freeSlotLoop dir slots

/-! ## Loading -/

/-- The loop of `rs_load_file`: `while (off < flen)`. -/
def loadLoop (dev : Dev) (cap flen off blk : ℕ) (dst : List UInt8) :
    Except Fault (Except ℤ (List UInt8)) :=
  if off < flen then do
    match ← blkread dev blk with
    | none => .ok (.error (-7))
    | some data => do
        need (∀ i < min (flen - off) 512, off + i < cap) (.dst (off + min (flen - off) 512 - 1))
        loadLoop dev cap flen (off + min (flen - off) 512) (blk + 1)
          (dst ++ data.slice 0 (min (flen - off) 512))
  else .ok (.ok dst)
termination_by flen - off

/-- `rs_load_file`. -/
def rsLoadFile (dev : Dev) (name : CStr) (cap : ℕ) : Except Fault (Except ℤ (List UInt8)) :=
  if cap < 2 then .ok (.error (-1))
  else do
    match ← rsReadRoot dev with
    | .error _ => .ok (.error (-2))
    | .ok r => do
        match ← rsFindSlot r.dir name.bytes with
        | none => .ok (.error (-6))
        | some (_, fblk, flen) =>
            -- `||` stops here: the sum is only formed when these are false.
            if fblk < 3 ∨ flen = 0 ∨ flen ≥ cap ∨ fblk > r.sects then .ok (.error (-6))
            else do
              let total ← add64 flen 511
              if total / 512 > r.sects - fblk then .ok (.error (-6))
              else do
                match ← loadLoop dev cap flen 0 fblk [] with
                | .error e => .ok (.error e)
                | .ok bytes => do
                    need (flen < cap) (.dst flen)
                    .ok (.ok bytes)

/-! ## Putting -/

/-- The inner loop of the search for a run: `n` more clusters from the `j`-th on. -/
def freeFrom (map : Sector) (i : ℕ) : ℕ → ℕ → Except Fault Bool
  | _, 0 => .ok true
  | j, n + 1 => do
      let taken ← mapTest map (i + j)
      if taken then .ok false else freeFrom map i (j + 1) n

/-- The search for a run: `i + nclus <= sects`. -/
def runLoop (map : Sector) (nclus sects i : ℕ) : Except Fault (Option ℕ) :=
  if i + nclus ≤ sects then do
    let free ← freeFrom map i 0 nclus
    if free then .ok (some i) else runLoop map nclus sects (i + 1)
  else .ok none
termination_by sects + 1 - i

/-- The loop that marks `n` clusters. -/
def markLoop (map : Sector) (first : ℕ) : ℕ → Except Fault Sector
  | 0 => .ok map
  | n + 1 => do
      let map ← markLoop map first n
      mapSet map (first + n)

/-- The loop that frees `n` clusters. -/
def freeLoop (map : Sector) (first : ℕ) : ℕ → Except Fault Sector
  | 0 => .ok map
  | n + 1 => do
      let map ← freeLoop map first n
      let b ← add64 first n
      mapClear map (b % 2 ^ 32)

/-- The run for the data. -/
def rsPutRun (r : Root) (map : Sector) (slot : Fin 8) (existing : Bool)
    (nclus oldBlk oldNclus : ℕ) : Except Fault (Except ℤ PutPlan) :=
  if existing = false ∨ nclus > oldNclus then do
    match ← runLoop map nclus r.sects 3 with
    | none => .ok (.error (-8))
    | some fblk => do
        let marked ← markLoop map fblk nclus
        .ok (.ok ⟨r, map, marked, slot, existing, true, fblk, nclus, oldBlk, oldNclus⟩)
  else .ok (.ok ⟨r, map, map, slot, existing, false, oldBlk, nclus, oldBlk, oldNclus⟩)

/-- The checks of `rs_put_file`. -/
def rsPutPlan (name : CStr) (src : List UInt8) (dev : Dev) : Except Fault (Except ℤ PutPlan) :=
  if src.length = 0 ∨ name.bytes.length > 37 ∨ src.length > 65536 then .ok (.error (-1))
  else do
    match ← rsReadRoot dev with
    | .error _ => .ok (.error (-2))
    | .ok r =>
        if r.sects < 4 ∨ r.sects > 128 then .ok (.error (-2))
        else do
          match ← blkread dev 1 with
          | none => .ok (.error (-7))
          | some map => do
              match ← rsFindSlot r.dir name.bytes with
              | some (slot, oldBlk, oldLen) => do
                  let total ← add64 oldLen 511
                  if oldLen = 0 ∨ oldBlk < 3 then .ok (.error (-3))
                  else do
                    let last ← add64 oldBlk (total / 512)
                    if last > r.sects then .ok (.error (-3))
                    else rsPutRun r map slot true ((src.length + 511) / 512) oldBlk (total / 512)
              | none => do
                  match ← freeSlotLoop r.dir (List.finRange 8) with
                  | none => .ok (.error (-6))
                  | some slot => rsPutRun r map slot false ((src.length + 511) / 512) 0 0

/-- The loop that writes the data. -/
def writeLoop (dev : Dev) (fblk : ℕ) (src : List UInt8) : ℕ → ℕ → Except Fault (Bool × Dev)
  | _, 0 => .ok (true, dev)
  | j, n + 1 => do
      let blk ← add64 fblk j
      match ← blkwrite dev blk (dataBlock src j) with
      | (false, dev) => .ok (false, dev)
      | (true, dev) => writeLoop dev fblk src (j + 1) n

/-- The map is written if a run was marked in it. -/
def writeMarked (p : PutPlan) (dev : Dev) : Except Fault (Bool × Dev) :=
  if p.newRun then blkwrite dev 1 p.map else .ok (true, dev)

/-- A new slot is given its name. -/
def nameSlot (p : PutPlan) (name : CStr) : Except Fault Sector :=
  if p.existing then .ok p.root.dir
  else do
    let cleared ← dirPut p.root.dir (p.slot * 64) (List.replicate 64 0)
    let kind ← dirPut cleared (p.slot * 64) [0x20, 0x04]
    dirPut kind (p.slot * 64 + 2) (name.bytes ++ [0])

/-- The slot is written. -/
def newDir (p : PutPlan) (name : CStr) (len : ℕ) : Except Fault Sector := do
  let named ← nameSlot p name
  let dir ← dirPutWord named (p.slot * 64 + 40) p.fblk
  let dir ← dirPutWord dir (p.slot * 64 + 48) len
  dirPutWord dir (p.slot * 64 + 56) 0

/-- The old clusters are released; the counter of the loop has 32 bits, the count has 64. -/
def freedMap (p : PutPlan) : Except Fault Sector :=
  if p.newRun then do
    need (p.oldNclus < 2 ^ 32) (.endless p.oldNclus)
    freeLoop p.map p.oldBlk p.oldNclus
  else do
    let first ← add64 p.oldBlk p.nclus
    need (p.oldNclus - p.nclus < 2 ^ 32) (.endless (p.oldNclus - p.nclus))
    freeLoop p.map first (p.oldNclus - p.nclus)

/-- The writes of `rs_put_file`. -/
def rsPutWrites (p : PutPlan) (name : CStr) (src : List UInt8) (dev : Dev) :
    Except Fault (ℤ × Dev) := do
  match ← writeLoop dev p.fblk src 0 p.nclus with
  | (false, dev) => .ok (-12, dev)
  | (true, dev) => do
      match ← writeMarked p dev with
      | (false, dev) => .ok (-9, dev)
      | (true, dev) => do
          let dir ← newDir p name src.length
          match ← blkwrite dev p.root.root dir with
          | (false, dev) =>
              if p.newRun then do
                let undone ← blkwrite dev 1 p.oldMap
                .ok (-10, undone.2)
              else .ok (-10, dev)
          | (true, dev) =>
              if p.existing = true ∧ (p.newRun = true ∨ p.nclus < p.oldNclus) then do
                let map ← freedMap p
                match ← blkwrite dev 1 map with
                | (false, dev) => .ok (-13, dev)
                | (true, dev) => .ok (0, dev)
              else .ok (0, dev)

/-- `rs_put_file`. -/
def rsPutFile (name : CStr) (src : List UInt8) (dev : Dev) : Except Fault (ℤ × Dev) := do
  match ← rsPutPlan name src dev with
  | .error e => .ok (e, dev)
  | .ok p => rsPutWrites p name src dev

/-! ## Deleting and renaming -/

/-- `rs_del_file`. -/
def rsDelFile (name : CStr) (dev : Dev) : Except Fault (ℤ × Dev) :=
  if isDots name then .ok (-1, dev)
  else do
    match ← rsReadRoot dev with
    | .error _ => .ok (-2, dev)
    | .ok r => do
        match ← rsFindSlot r.dir name.bytes with
        | none => .ok (-3, dev)
        | some (slot, fblk, flen) =>
            if fblk = 0 then .ok (-3, dev)
            else do
              let total ← add64 flen 511
              match ← blkread dev 1 with
              | none => .ok (-4, dev)
              | some map => do
                  let map ← freeLoop map fblk (max 1 (total / 512) % 2 ^ 32)
                  match ← blkwrite dev 1 map with
                  | (false, dev) => .ok (-5, dev)
                  | (true, dev) => do
                      let dir ← dirPut r.dir (slot * 64) (List.replicate 64 0)
                      match ← blkwrite dev r.root dir with
                      | (false, dev) => .ok (-6, dev)
                      | (true, dev) => .ok (0, dev)

/-- Whether the new name is taken: it is not looked for when it is the old one, case aside. -/
def nameTaken (dir : Sector) (oldn newn : CStr) : Except Fault Bool :=
  if strIeq oldn.bytes newn.bytes then .ok false
  else do
    let found ← rsFindSlot dir newn.bytes
    .ok found.isSome

/-- `rs_rename_file`. -/
def rsRenameFile (oldn newn : CStr) (dev : Dev) : Except Fault (ℤ × Dev) :=
  if isDots oldn then .ok (-1, dev)
  else if newn.bytes.length = 0 ∨ newn.bytes.length > 37 then .ok (-1, dev)
  else do
    match ← rsReadRoot dev with
    | .error _ => .ok (-2, dev)
    | .ok r => do
        match ← rsFindSlot r.dir oldn.bytes with
        | none => .ok (-3, dev)
        | some (slot, _, _) => do
            let taken ← nameTaken r.dir oldn newn
            if taken then .ok (-4, dev)
            else do
              let blank ← dirPut r.dir (slot * 64 + 2) (List.replicate 38 0)
              let dir ← dirPut blank (slot * 64 + 2) (newn.bytes ++ [0])
              match ← blkwrite dev r.root dir with
              | (false, dev) => .ok (-5, dev)
              | (true, dev) => .ok (0, dev)

/-! ## Listing -/

/-- The loop that measures a name: `while (name_len < 38 && entry[2 + name_len])`. -/
def nameLenLoop (dir : Sector) (i : Fin 8) (nameLen : ℕ) : Except Fault ℕ :=
  if nameLen < 38 then do
    let c ← dirGet dir (i * 64 + 2 + nameLen)
    if c = 0 then .ok nameLen else nameLenLoop dir i (nameLen + 1)
  else .ok nameLen
termination_by 38 - nameLen

/-- The bytes of a name, `n` of them from the `j`-th on. -/
def nameBytes (dir : Sector) (i : Fin 8) : ℕ → ℕ → Except Fault (List UInt8)
  | _, 0 => .ok []
  | j, n + 1 => do
      let c ← dirGet dir (i * 64 + 2 + j)
      let rest ← nameBytes dir i (j + 1) n
      .ok (c :: rest)

/-- What the listing says of one slot: nothing, or the name and the length of a file that can
be read and that no record of the native store hides. -/
def fileAtSlot (sectors : ℕ) (dir : Sector) (i : Fin 8) (m : Machine) :
    Except Fault (Option (List UInt8 × ℕ) × Machine) := do
  let kind ← dirGet dir (i * 64)
  let first ← dirGet dir (i * 64 + 2)
  if first = 0 ∨ kind &&& 0x10 ≠ 0 then .ok (none, m)
  else do
    let nameLen ← nameLenLoop dir i 0
    if nameLen = 0 ∨ nameLen ≥ 38 then .ok (none, m)
    else do
      let name ← nameBytes dir i 0 nameLen
      if 47 ∈ name ∨ 92 ∈ name then .ok (none, m)
      else do
        let blk ← dirWord dir (i * 64 + 40)
        let length ← dirWord dir (i * 64 + 48)
        if length = 0 ∨ length > 65536 ∨ blk < 3 ∨ blk ≥ sectors then .ok (none, m)
        else do
          let total ← add64 length 511
          if total / 512 > sectors - blk then .ok (none, m)
          else
            match zssFind m (some name) with
            | (r, m) => if r.status = -3 then .ok (none, m) else .ok (some (name, length), m)

/-- The loop of `zeal_redsea_file_at`: `wanted` more files are to be passed over. -/
def fileAtLoop (sectors : ℕ) (dir : Sector) (cap : ℕ) :
    List (Fin 8) → ℕ → Machine → Except Fault (Option (List UInt8 × ℕ) × Machine)
  | [], _, m => .ok (none, m)
  | i :: slots, wanted, m => do
      match ← fileAtSlot sectors dir i m with
      | (none, m) => fileAtLoop sectors dir cap slots wanted m
      | (some (name, length), m) =>
          match wanted with
          | wanted + 1 => fileAtLoop sectors dir cap slots wanted m
          | 0 =>
              if name.length + 1 > cap then .ok (none, m)
              else do
                need (∀ j < name.length + 1, j < cap) (.dst name.length)
                .ok (some (name, length), m)

/-- `zeal_redsea_file_at`. -/
def zealRedseaFileAt (dev : Dev) (index cap : ℕ) (m : Machine) :
    Except Fault (Option (List UInt8 × ℕ) × Machine) :=
  if m.vb.ready = false ∨ cap < 2 then .ok (none, m)
  else do
    match ← rsReadRoot dev with
    | .error _ => .ok (none, m)
    | .ok r => fileAtLoop r.sects r.dir cap (List.finRange 8) index m

end ZealBringup.RedSea.Watched
