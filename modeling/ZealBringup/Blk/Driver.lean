import Mathlib.Data.Nat.Notation
import Mathlib.Logic.Function.Basic
import ZealBringup.Lib.Fifo

/-!
# The block driver and its device

`virtio_blk_rw_sectors`, `virtio_blk_flush_abs` and the calls over them, of `virtio_blk.h`, beside a
device that shares the memory of the chain and works at any speed.

* `VbStore`, `rwStores`, `flushStores` — what a request writes, store by store.
* `VbCall.plan` — the next request of a call.
* `VbJob`, `VbAct`, `vbStep` — the device and the driver, step by step.
-/

namespace ZealBringup.Blk

open Fifo

/-! ## The shared memory -/

/-- `VB_SECT` bytes. -/
abbrev Sector := Fin 512 → UInt8

/-- A `uint16_t` counter of a ring. -/
abbrev VbIndex := Fin 65536

/-- What a descriptor points to. -/
inductive VbPlace where
  | hdr
  | status
  | data
  deriving DecidableEq

/-- A descriptor; `next` stands for `VB_DESC_F_NEXT`, `write` for `VB_DESC_F_WRITE`. -/
structure VbDesc where
  addr : VbPlace
  len : ℕ
  next : Option (Fin 3)
  write : Bool
  deriving DecidableEq

/-- The chain, the header, the status byte, the data window and the two counters; every entry of the
available ring is the head of the one chain. -/
structure VbMem where
  desc : Fin 3 → VbDesc
  type : UInt32
  sector : ℕ
  status : UInt8
  data : ℕ → UInt8
  availIdx : VbIndex
  usedIdx : VbIndex

/-- A store of the driver. -/
inductive VbStore where
  | type (t : UInt32)
  | sector (lba : ℕ)
  | status (v : UInt8)
  | data (i : ℕ) (b : UInt8)
  | desc (k : Fin 3) (d : VbDesc)
  | availIdx (n : VbIndex)

def VbStore.apply (m : VbMem) : VbStore → VbMem
  | .type t => { m with type := t }
  | .sector lba => { m with sector := lba }
  | .status v => { m with status := v }
  | .data i b => { m with data := Function.update m.data i b }
  | .desc k d => { m with desc := Function.update m.desc k d }
  | .availIdx n => { m with availIdx := n }

/-! ## The driver -/

/-- `struct vb_dev`; `up` is whether a transport is mapped, `dataCapacity` the bytes from `d->data` to
the end of the window. -/
structure VbDev where
  pci : Bool
  up : Bool
  ready : Bool
  flushSupported : Bool
  capacity : ℕ
  fullCapacity : ℕ
  lbaBase : ℕ
  dataCapacity : ℕ

/-- A request: sectors to read, sectors to write with their bytes, or a flush. -/
inductive VbReq where
  | read (lba count : ℕ)
  | write (lba count : ℕ) (src : ℕ → UInt8)
  | flush

/-- A request to read, or to write some bytes. -/
def VbReq.rw (lba count : ℕ) : Option (ℕ → UInt8) → VbReq
  | some src => .write lba count src
  | none => .read lba count

/-- The loop that copies the bytes of a write. -/
def dataStores (count : ℕ) : Option (ℕ → UInt8) → List VbStore
  | some src => (List.range (count * 512)).map fun i => .data i (src i)
  | none => []

/-- The stores of `virtio_blk_rw_sectors`. -/
def rwStores (lba count : ℕ) (src : Option (ℕ → UInt8)) (next : VbIndex) : List VbStore :=
  [.type (if src.isSome then 1 else 0), .sector lba, .status 0xff] ++ dataStores count src ++
    [.desc 0 ⟨.hdr, 16, some 1, false⟩, .desc 1 ⟨.data, count * 512, some 2, src.isNone⟩,
      .desc 2 ⟨.status, 1, none, true⟩, .availIdx next]

/-- The stores of `virtio_blk_flush_abs`. -/
def flushStores (next : VbIndex) : List VbStore :=
  [.type 4, .sector 0, .status 0xff, .desc 0 ⟨.hdr, 16, some 1, false⟩,
    .desc 1 ⟨.status, 1, none, true⟩, .availIdx next]

def VbReq.stores (next : VbIndex) : VbReq → List VbStore
  | .read lba count => rwStores lba count none next
  | .write lba count src => rwStores lba count (some src) next
  | .flush => flushStores next

/-- The checks of `virtio_blk_rw_sectors`: a request, or the answer 0. -/
def rwRequest (d : VbDev) (sector count : ℕ) (src : Option (ℕ → UInt8)) (absolute : Bool) :
    Option VbReq :=
  let limit := if absolute then d.fullCapacity else d.capacity
  if (d.ready = false ∧ d.up = false) ∨ count = 0 ∨ sector ≥ limit ∨ count > limit - sector then none
  else if d.capacity = 0 then none
  else if count > d.dataCapacity / 512 then none
  else
    some (.rw (if absolute then sector else d.lbaBase + sector) count src)

/-- A call of the driver. -/
inductive VbCall where
  | read (sector count : ℕ)
  | write (src : ℕ → UInt8) (sector count : ℕ)
  | readAbs (sector : ℕ)
  | writeAbs (src : ℕ → UInt8) (sector : ℕ)
  | readAbsMany (sector count : ℕ)
  | writeAbsMany (src : ℕ → UInt8) (sector count : ℕ)
  | flushAbs

/-- What a call does next: it is over, or it sends a request. -/
inductive VbPlan where
  | done (ok : Bool)
  | send (req : VbReq)

/-- A request that was checked, or the end of the call. -/
def VbPlan.of (req : Option VbReq) : VbPlan := req.elim (.done false) .send

/-- The next round of the loop of `virtio_blk_read` and `virtio_blk_write`. -/
def batchPlan (d : VbDev) (sector count : ℕ) (src : Option (ℕ → UInt8)) (i : ℕ) : VbPlan :=
  if i < count then
    let max := d.dataCapacity / 512
    if max = 0 then .done false
    else
      let remaining := count - i
      let batch := if remaining > max then max else remaining
      .of (rwRequest d (sector + i) batch (src.map fun p x => p (i * 512 + x)) false)
  else .done true

/-- The one request of an absolute call. -/
def absPlan (d : VbDev) (sector count : ℕ) (src : Option (ℕ → UInt8)) (i : ℕ) : VbPlan :=
  if i ≠ 0 then .done true
  else if d.ready = false ∨ d.pci = false ∨ count = 0 then .done false
  else .of (rwRequest d sector count src true)

/-- What a call does when `i` sectors are through; a flush counts as one. -/
def VbCall.plan (d : VbDev) (i : ℕ) : VbCall → VbPlan
  | .read sector count => batchPlan d sector count none i
  | .write src sector count => batchPlan d sector count (some src) i
  | .readAbs sector => absPlan d sector 1 none i
  | .writeAbs src sector => absPlan d sector 1 (some src) i
  | .readAbsMany sector count => absPlan d sector count none i
  | .writeAbsMany src sector count => absPlan d sector count (some src) i
  | .flushAbs =>
    if i ≠ 0 then .done true
    else if d.ready = false ∨ d.pci = false ∨ d.flushSupported = false then .done false
    else .send .flush

/-- The sectors of a request. -/
def VbReq.count : VbReq → ℕ
  | .read _ count => count
  | .write _ count _ => count
  | .flush => 1

/-- How often the used index is looked at. -/
def VbReq.spins : VbReq → ℕ
  | .flush => 20000000
  | _ => 20000001

/-! ## The device -/

/-- An entry that the device has taken: what it has fetched so far, the sectors that it has moved,
whether it has flushed, and the status that it wrote. -/
structure VbJob where
  chain : Option (List VbDesc)
  hdr : Option (UInt32 × ℕ)
  moved : ℕ
  flushed : Bool
  status : Option UInt8

/-- The descriptors of a chain. -/
def chainFrom (desc : Fin 3 → VbDesc) : ℕ → Fin 3 → List VbDesc
  | 0, _ => []
  | fuel + 1, k =>
    desc k :: match (desc k).next with
      | some k' => chainFrom desc fuel k'
      | none => []

/-- The sectors of the data descriptor and its direction. -/
def dataOf : List VbDesc → Option (ℕ × Bool)
  | [h, d, s] =>
    if h.addr = .hdr ∧ h.write = false ∧ d.addr = .data ∧ s.addr = .status ∧ s.write then
      some (d.len / 512, d.write)
    else none
  | _ => none

/-- The transfer that a job is asked for: sectors, and whether the disk is written. -/
def VbJob.transfer (j : VbJob) : Option (ℕ × ℕ × Bool) :=
  match j.chain.bind dataOf, j.hdr with
  | some (n, true), some (0, lba) => some (lba, n, false)
  | some (n, false), some (1, lba) => some (lba, n, true)
  | _, _ => none

/-- The job asks for a flush. -/
def VbJob.flushes (j : VbJob) : Bool :=
  match j.chain, j.hdr with
  | some [_, _], some (4, _) => true
  | _, _ => false

/-- The operation of the job is done. -/
def VbJob.complete (j : VbJob) : Bool :=
  match j.transfer with
  | some (_, n, _) => j.moved = n
  | none => j.flushed

/-- A sector of the data window. -/
def sectorOf (data : ℕ → UInt8) (k : ℕ) : Sector := fun x => data (k * 512 + x.val)

/-- The data window with a sector laid into it. -/
def layIn (data : ℕ → UInt8) (k : ℕ) (s : Sector) : ℕ → UInt8 := fun x =>
  if x / 512 = k then s ⟨x % 512, Nat.mod_lt x (by decide)⟩ else data x

/-! ## The system -/

/-- Where the driver is. -/
inductive VbPhase where
  | idle
  | storing (req : VbReq) (todo : List VbStore)
  | waiting (req : VbReq) (spin : ℕ)

/-- A call that runs: the sectors that are through, the buffer of its caller, and the disk when it
began. -/
structure VbFrame where
  call : VbCall
  i : ℕ
  buf : ℕ → UInt8
  before : ℕ → Sector

/-- A call that is over. -/
structure VbDone where
  call : VbCall
  ok : Bool
  buf : ℕ → UInt8
  before : ℕ → Sector
  after : ℕ → Sector
  durable : ℕ → Sector

/-- The driver, the memory, the device and the disk, with the calls so far, those that are over, and
the sectors that the device has stored. -/
structure VbSys where
  drv : VbDev
  availIdx : VbIndex
  mem : VbMem
  taken : VbIndex
  jobs : List VbJob
  disk : ℕ → Sector
  durable : ℕ → Sector
  phase : VbPhase
  frame : VbFrame
  calls : List VbCall
  ended : List VbDone
  stored : List (ℕ × Sector)

/-- The running call is over. -/
def VbSys.finish (s : VbSys) (ok : Bool) : VbSys :=
  { s with
    phase := .idle
    ended := s.ended ++ [⟨s.frame.call, ok, s.frame.buf, s.frame.before, s.disk, s.durable⟩] }

/-- The running call goes on. -/
def VbSys.go (s : VbSys) : VbSys :=
  match s.frame.call.plan s.drv s.frame.i with
  | .done ok => s.finish ok
  | .send req => { s with phase := .storing req (req.stores (s.availIdx + 1)) }

/-- The buffer of the caller after a request. -/
def VbReq.copyOut (req : VbReq) (i : ℕ) (data buf : ℕ → UInt8) : ℕ → UInt8 :=
  match req with
  | .read _ count => fun x =>
    if i * 512 ≤ x ∧ x < i * 512 + count * 512 then data (x - i * 512) else buf x
  | _ => buf

/-- A step of the driver: a store, or a look at the used index. -/
def VbSys.run (s : VbSys) : VbSys :=
  match s.phase with
  | .idle => s
  | .storing req [] => { s with phase := .waiting req 0 }
  | .storing req (st :: todo) =>
    { s with
      mem := st.apply s.mem
      availIdx := if todo = [] then s.availIdx + 1 else s.availIdx
      phase := if todo = [] then .waiting req 0 else .storing req todo }
  | .waiting req spin =>
    if s.mem.usedIdx = s.availIdx then
      if s.mem.status ≠ 0 then s.finish false
      else
        VbSys.go { s with frame := { s.frame with
          i := s.frame.i + req.count
          buf := req.copyOut s.frame.i s.mem.data s.frame.buf } }
    else if spin + 1 < req.spins then { s with phase := .waiting req (spin + 1) }
    else s.finish false

/-- What may happen next: a call begins, the driver does a step, or the device does one with the
job `k`. -/
inductive VbAct where
  | call (c : VbCall) (buf : ℕ → UInt8)
  | run
  | take
  | fetchChain (k : ℕ)
  | fetchHdr (k : ℕ)
  | move (k : ℕ)
  | flush (k : ℕ)
  | status (k : ℕ) (v : UInt8)
  | complete (k : ℕ)

def VbSys.setJob (s : VbSys) (k : ℕ) (j : VbJob) : VbSys := { s with jobs := s.jobs.set k j }

/-- The next sector of a transfer. -/
def VbSys.moveSector (s : VbSys) (k : ℕ) (j : VbJob) : VbSys :=
  match j.transfer with
  | none => s
  | some (lba, n, write) =>
    if j.moved < n then
      let s := s.setJob k { j with moved := j.moved + 1 }
      if write then
        let bytes := sectorOf s.mem.data j.moved
        { s with
          disk := Function.update s.disk (lba + j.moved) bytes
          stored := s.stored ++ [(lba + j.moved, bytes)] }
      else { s with mem := { s.mem with data := layIn s.mem.data j.moved (s.disk (lba + j.moved)) } }
    else s

/-- A step that the system cannot do leaves it as it is. A device works on an entry until it writes
the status byte; it writes 0 only when the operation is done, and then moves the used index on. -/
def vbStep (s : VbSys) : VbAct → VbSys
  | .call c buf =>
    match s.phase with
    | .idle => VbSys.go { s with frame := ⟨c, 0, buf, s.disk⟩, calls := s.calls ++ [c] }
    | _ => s
  | .run => s.run
  | .take =>
    if s.taken = s.mem.availIdx then s
    else { s with taken := s.taken + 1, jobs := s.jobs ++ [⟨none, none, 0, false, none⟩] }
  | .fetchChain k =>
    match s.jobs[k]? with
    | none => s
    | some j =>
      if j.chain = none then s.setJob k { j with chain := some (chainFrom s.mem.desc 3 0) } else s
  | .fetchHdr k =>
    match s.jobs[k]? with
    | none => s
    | some j =>
      if j.chain ≠ none ∧ j.hdr = none then
        s.setJob k { j with hdr := some (s.mem.type, s.mem.sector) }
      else s
  | .move k =>
    match s.jobs[k]? with
    | none => s
    | some j => if j.status = none then s.moveSector k j else s
  | .flush k =>
    match s.jobs[k]? with
    | none => s
    | some j =>
      if j.status = none ∧ j.flushes then
        { s.setJob k { j with flushed := true } with durable := s.disk }
      else s
  | .status k v =>
    match s.jobs[k]? with
    | none => s
    | some j =>
      if j.status = none ∧ j.chain ≠ none ∧ (v = 0 → j.complete) then
        { s.setJob k { j with status := some v } with mem := { s.mem with status := v } }
      else s
  | .complete k =>
    match s.jobs[k]? with
    | none => s
    | some j =>
      if j.status = none then s
      else
        { s with
          jobs := s.jobs.eraseIdx k
          mem := { s.mem with usedIdx := s.mem.usedIdx + 1 } }

def vbRun (s : VbSys) (acts : List VbAct) : VbSys := acts.foldl vbStep s

/-- The system after a start of the driver. -/
def vbStart (drv : VbDev) (disk : ℕ → Sector) : VbSys where
  drv := drv
  availIdx := 0
  mem := ⟨fun _ => ⟨.hdr, 0, none, false⟩, 0, 0, 0, fun _ => 0, 0, 0⟩
  taken := 0
  jobs := []
  disk := disk
  durable := disk
  phase := .idle
  frame := ⟨.flushAbs, 0, fun _ => 0, disk⟩
  calls := []
  ended := []
  stored := []

end ZealBringup.Blk
