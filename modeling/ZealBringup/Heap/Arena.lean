import Mathlib

/-!
# The heap of the runtime

Two static arenas, one for data and one for compiled code, are each cut into blocks.  A header of
eight words stands before the bytes of a block and links it to its neighbours; a block that is free
keeps the links of a second list, of the free blocks, where a block in use has its owner and the
place of the call.  A control record counts the bytes its owner has in use, and a guest task sees a
copy of that count.

* `release`, `free` — one block given back and merged with its free neighbours.
* `reclaimGuestHeap`, `heapCtrlDel` — every block of an owner given back.
* `arenaAlloc`, `mAlloc` — the first free block that is large enough, cut to size.
-/

namespace ZealBringup.Heap

/-- `DATA_BYTES` -/
def dataBytes : ℕ := 96 * 1024 * 1024

/-- `CODE_BYTES` -/
def codeBytes : ℕ := 16 * 1024 * 1024

/-- `BLOCK_MAGIC` -/
def blockMagic : ℕ := 0x5a43424c4f434b31

/-- Where `used_u8s` is in a control record. -/
def usedOff : ℕ := 32

/-- The words of a `struct block`. -/
inductive Field where
  | magic | size | requested | prev | next | owner | used | pad
  deriving DecidableEq, Repr

/-- Where a word is in a header. -/
def Field.offset : Field → ℕ
  | magic => 0
  | size => 8
  | requested => 16
  | prev => 24
  | next => 32
  | owner => 40
  | used => 48
  | pad => 56

/-- What the heap asks of a `struct guest_fiber`: the control record in it, whether it is in use and
where the guest's own copy of the count is. -/
structure Fiber where
  heapOwner : ℕ
  inUse : Bool
  heapUsed : ℕ

/-- The static data around the heap. -/
structure Machine where
  dataArena : ℕ
  codeArena : ℕ
  guestTaskBound : Bool
  guestFibers : List Fiber
  data_pos : 0 < dataArena
  data_aligned : dataArena % 16 = 0
  code_pos : 0 < codeArena
  code_aligned : codeArena % 4096 = 0
  apart : dataArena + dataBytes ≤ codeArena ∨ codeArena + codeBytes ≤ dataArena
  data_fits : dataArena + dataBytes < 2 ^ 64
  code_fits : codeArena + codeBytes < 2 ^ 64
  fibers_apart : ∀ f ∈ guestFibers,
    (f.heapUsed < dataArena ∨ dataArena + dataBytes ≤ f.heapUsed) ∧
      (f.heapUsed < codeArena ∨ codeArena + codeBytes ≤ f.heapUsed)

/-- The words of the memory by their addresses, and `arena_free_heads`. -/
structure State where
  word : ℕ → ℕ
  freeHeads : Fin 2 → ℕ

/-- What ends an operation early: a loop that goes on after so many rounds, or `zc_fail`. -/
inductive Halt where
  | rounds
  | fail (msg : String)
  deriving DecidableEq, Repr

/-! ## Words -/

def State.put (s : State) (at_ v : ℕ) : State := { s with word := Function.update s.word at_ v }

def State.get (s : State) (b : ℕ) (f : Field) : ℕ := s.word (b + f.offset)

def State.set (s : State) (b : ℕ) (f : Field) (v : ℕ) : State := s.put (b + f.offset) v

def State.setHead (s : State) (a : Fin 2) (v : ℕ) : State :=
  { s with freeHeads := Function.update s.freeHeads a v }

/-- `if (b) b->f = v;` -/
def State.link (s : State) (b : ℕ) (f : Field) (v : ℕ) : State := if b ≠ 0 then s.set b f v else s

/-- `if (b) b->f = v; else arena_free_heads[a] = v;` -/
def State.linkOrHead (s : State) (a : Fin 2) (b : ℕ) (f : Field) (v : ℕ) : State :=
  if b ≠ 0 then s.set b f v else s.setHead a v

/-- A whole header at once. -/
def State.setBlock (s : State) (b size prev next : ℕ) : State :=
  ((((((((s.set b .magic blockMagic).set b .size size).set b .requested 0).set b .prev prev).set b
    .next next).set b .owner 0).set b .used 0).set b .pad 0)

/-! ## The arenas -/

/-- `arenas[a]` -/
def Machine.arenas (m : Machine) (a : Fin 2) : ℕ := if a = 0 then m.dataArena else m.codeArena

def arenaBytes (a : Fin 2) : ℕ := if a = 0 then dataBytes else codeBytes

def Machine.arenaInit (m : Machine) (a : Fin 2) (s : State) : State :=
  (s.setBlock (m.arenas a) (arenaBytes a - 64) 0 0).setHead a (m.arenas a)

/-- The arena of a block, as `release` finds it. -/
def Machine.arenaOf (m : Machine) (b : ℕ) : Fin 2 :=
  if m.codeArena ≤ b ∧ b < m.codeArena + codeBytes then 1 else 0

def freePrev (s : State) (b : ℕ) : ℕ := s.get b .owner

def freeNext (s : State) (b : ℕ) : ℕ := s.get b .pad

def freeListRemove (a : Fin 2) (b : ℕ) (s : State) : State :=
  let prev := freePrev s b
  let next := freeNext s b
  let s := s.linkOrHead a prev .pad next
  let s := s.link next .owner prev
  (s.set b .owner 0).set b .pad 0

def freeListReplace (a : Fin 2) (old replacement : ℕ) (s : State) : State :=
  let prev := freePrev s old
  let next := freeNext s old
  let s := (s.set replacement .owner prev).set replacement .pad next
  let s := s.linkOrHead a prev .pad replacement
  s.link next .owner replacement

/-- The walk of `free_list_insert` to the place of an address. -/
def insertLoop (s : State) (address : ℕ) : ℕ → ℕ → ℕ → Except Halt (ℕ × ℕ)
  | 0, _, _ => .error .rounds
  | limit + 1, prev, next =>
    if next ≠ 0 ∧ next < address then insertLoop s address limit next (freeNext s next)
    else .ok (prev, next)

def freeListInsert (limit : ℕ) (a : Fin 2) (b : ℕ) (s : State) : Except Halt State := do
  let (prev, next) ← insertLoop s b limit 0 (s.freeHeads a)
  let s := (s.set b .owner prev).set b .pad next
  let s := s.linkOrHead a prev .pad b
  return s.link next .owner b

/-! ## The counts -/

/-- The fiber that a control record belongs to. -/
def Machine.fiberOf (m : Machine) (owner : ℕ) : Option Fiber :=
  if m.guestTaskBound then m.guestFibers.find? fun f => f.heapOwner == owner && f.inUse else none

def Machine.syncGuestHeap (m : Machine) (owner : ℕ) (s : State) : State :=
  match m.fiberOf owner with
  | some f => s.put f.heapUsed (s.word (owner + usedOff))
  | none => s

/-- `owner->used_u8s -= n` of a signed word, and the guest's copy. -/
def Machine.subUsed (m : Machine) (owner n : ℕ) (s : State) : State :=
  m.syncGuestHeap owner
    (s.put (owner + usedOff) ((s.word (owner + usedOff) + (2 ^ 64 - n % 2 ^ 64)) % 2 ^ 64))

/-- `owner->used_u8s += n`, and the guest's copy. -/
def Machine.addUsed (m : Machine) (owner n : ℕ) (s : State) : State :=
  m.syncGuestHeap owner (s.put (owner + usedOff) ((s.word (owner + usedOff) + n) % 2 ^ 64))

/-! ## A block taken -/

/-- Where `is_code_heap` is in a control record. -/
def codeOff : ℕ := 12

/-- `Fs`, `Fs->heap` and the address of `data_heap`. -/
structure Caller where
  fs : ℕ
  heap : ℕ
  dataHeap : ℕ

def Caller.heapFor (c : Caller) (t : ℕ) : ℕ :=
  if t = 0 ∨ t = c.fs then if c.fs ≠ 0 ∧ c.heap ≠ 0 then c.heap else c.dataHeap else t

/-- The arena that an owner's blocks come from. -/
def arenaFor (s : State) (owner : ℕ) : Fin 2 := if s.word (owner + codeOff) ≠ 0 then 1 else 0

/-- The bytes that are looked for. -/
def rounded (count : ℕ) : ℕ :=
  if (count + 15) / 16 * 16 = 0 then 16 else (count + 15) / 16 * 16

/-- The walk of `arena_alloc` along the free list; at its end there is no block. -/
def fitLoop (s : State) (n : ℕ) : ℕ → ℕ → Except Halt ℕ
  | 0, _ => .error .rounds
  | limit + 1, b =>
    if b = 0 then .ok 0
    else if s.get b .size < n then fitLoop s n limit (freeNext s b)
    else .ok b

/-- A block is cut in two, and its second half takes its place in the free list. -/
def cut (a : Fin 2) (b n : ℕ) (s : State) : State :=
  let tail := b + 64 + n
  let next := s.get b .next
  let s := s.setBlock tail (s.get b .size - n - 64) b next
  let s := s.link next .prev tail
  freeListReplace a b tail ((s.set b .next tail).set b .size n)

/-- A block leaves the free list, or what is left of it when a header and sixteen bytes are. -/
def takeBlock (a : Fin 2) (b n : ℕ) (s : State) : State :=
  if n + 64 + 16 ≤ s.get b .size then cut a b n s else freeListRemove a b s

/-- The header of a block in use. -/
def State.claim (s : State) (b count owner pc : ℕ) : State :=
  (((s.set b .used 1).set b .requested count).set b .owner owner).set b .pad pc

/-- The sum, the largest and the number of the free blocks, as a failure reports them. -/
def freeTotals (s : State) : ℕ → ℕ → ℕ × ℕ × ℕ → ℕ × ℕ × ℕ
  | 0, _, t => t
  | rounds + 1, b, (total, largest, count) =>
    if b = 0 then (total, largest, count)
    else freeTotals s rounds (freeNext s b)
      (total + s.get b .size, max largest (s.get b .size), count + 1)

def outOfRange (count : ℤ) : String :=
  "allocation size out of range (" ++ toString count ++ ")" ++
    if count % 2 ^ 64 / 2 ^ 48 = 0xfff8 then " nan-bits" else ""

def exhausted (s : State) (a : Fin 2) (count : ℤ) (n owner : ℕ) : String :=
  let used := s.word (owner + usedOff)
  let (total, largest, blocks) := freeTotals s 65536 (s.freeHeads a) (0, 0, 0)
  (if a = 1 then "code arena exhausted" else "data arena exhausted") ++
    " (request=" ++ toString count ++ " aligned=" ++ toString n ++ " owner_used=" ++
    toString (if used < 2 ^ 63 then (used : ℤ) else used - 2 ^ 64) ++ " free=" ++ toString total ++
    " largest=" ++ toString largest ++ " blocks=" ++ toString blocks ++ ")"

/-- `arena_alloc` for an owner that `heap_for` has found. -/
def Machine.arenaAlloc (m : Machine) (limit : ℕ) (count : ℤ) (owner pc : ℕ) (s : State) :
    Except Halt (State × ℕ) :=
  if count < 0 ∨ (dataBytes : ℤ) < count then .error (.fail (outOfRange count))
  else do
    let a := arenaFor s owner
    let n := rounded count.toNat
    let b ← fitLoop s n limit (s.freeHeads a)
    if b = 0 then .error (.fail (exhausted s a count n owner))
    else
      let s := (takeBlock a b n s).claim b count.toNat owner pc
      .ok (m.addUsed owner (s.get b .size) s, b + 64)

/-- `__AIWNIOS_MAlloc` -/
def Machine.mAlloc (m : Machine) (limit : ℕ) (c : Caller) (count : ℤ) (t pc : ℕ) (s : State) :
    Except Halt (State × ℕ) :=
  m.arenaAlloc limit count (c.heapFor t) pc s

/-! ## A block given back -/

/-- The two merges of `release`: the second block leaves the free list and the chain, and its bytes
and its header go to the first. -/
def absorb (a : Fin 2) (b n : ℕ) (s : State) : State :=
  let s := freeListRemove a n s
  let s := s.set b .size ((s.get b .size + (64 + s.get n .size)) % 2 ^ 64)
  let s := s.set b .next (s.get n .next)
  let s := s.set n .magic 0
  s.link (s.get b .next) .prev b

/-- A header that has no owner any more. -/
def State.clear (s : State) (b : ℕ) : State :=
  (((s.set b .used 0).set b .owner 0).set b .requested 0).set b .pad 0

/-- What `release` does before the free list. -/
def Machine.markFree (m : Machine) (b : ℕ) (s : State) : State :=
  (m.subUsed (s.get b .owner) (s.get b .size) s).clear b

/-- A free successor is absorbed. -/
def absorbNext (a : Fin 2) (b : ℕ) (s : State) : State :=
  let n := s.get b .next
  if n ≠ 0 ∧ s.get n .used = 0 then absorb a b n s else s

/-- A free predecessor absorbs the block, and the block that is left. -/
def absorbPrev (a : Fin 2) (b : ℕ) (s : State) : State × ℕ :=
  let p := s.get b .prev
  if p ≠ 0 ∧ s.get p .used = 0 then (absorb a p b s, p) else (s, b)

def Machine.release (m : Machine) (limit b : ℕ) (s : State) : Except Halt (State × ℕ) := do
  let a := m.arenaOf b
  let s ← freeListInsert limit a b (m.markFree b s)
  return absorbPrev a b (absorbNext a b s)

def Machine.getBlock (m : Machine) (p : ℕ) (s : State) : Except Halt ℕ :=
  if (m.dataArena + 64 ≤ p ∧ p < m.dataArena + dataBytes ∨
      m.codeArena + 64 ≤ p ∧ p < m.codeArena + codeBytes) ∧ p % 16 = 0 then
    if s.get (p - 64) .magic ≠ blockMagic ∨ s.get (p - 64) .used = 0 then
      .error (.fail "invalid or duplicate free")
    else .ok (p - 64)
  else .error (.fail "invalid heap pointer")

/-- `__AIWNIOS_Free` -/
def Machine.free (m : Machine) (limit p : ℕ) (s : State) : Except Halt State :=
  if p = 0 then .ok s
  else do
    let b ← m.getBlock p s
    let (s, _) ← m.release limit b s
    return s

/-! ## An owner torn down -/

/-- The loop over the blocks of an arena, from one of them on. -/
def Machine.sweep (m : Machine) (limit h : ℕ) : ℕ → ℕ → State → Except Halt State
  | 0, _, _ => .error .rounds
  | rounds + 1, b, s =>
    if b = 0 then .ok s
    else if s.get b .used ≠ 0 ∧ s.get b .owner = h then
      match m.release limit b s with
      | .ok (s, r) => m.sweep limit h rounds (s.get r .next) s
      | .error e => .error e
    else m.sweep limit h rounds (s.get b .next) s

def Machine.reclaimGuestHeap (m : Machine) (limit h : ℕ) (s : State) : Except Halt State := do
  let s ← m.sweep limit h limit (m.arenas 0) s
  m.sweep limit h limit (m.arenas 1) s

/-- `HeapCtrlDel` makes the same two sweeps and then frees the control record. -/
def Machine.heapCtrlDel (m : Machine) (limit h : ℕ) (s : State) : Except Halt State := do
  let s ← m.sweep limit h limit (m.arenas 0) s
  let s ← m.sweep limit h limit (m.arenas 1) s
  m.free limit h s

end ZealBringup.Heap
