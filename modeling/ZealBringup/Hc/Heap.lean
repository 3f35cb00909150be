import Mathlib
import ZealBringup.Lib.Regions
import ZealBringup.Hc.Print

/-!
# The demo heap

The demo compiler's programs share a heap of 64 KiB.  It grows at its top; the last chunk can be
given back, and `Free(0)` gives back everything.  Chunks are asked for by `MAlloc`, by `StrNew` for a
copy of a string and by `MStrPrint`, which formats into a chunk of 128 bytes.

* `hcBuiltinMalloc`, `hcBuiltinFree` — the heap.
* `catText` — what `MStrPrint` writes.
* `demo_heap_sound_iff` — the runs in which no two chunks overlap and nothing is written outside.
-/

namespace ZealBringup.Hc

open Regions

/-- `HC_HEAP_BYTES` -/
def hcHeapBytes : ℕ := 64 * 1024

/-- Where the heap stands. -/
structure HeapBase where
  addr : ℕ
  pos : 0 < addr
  aligned : addr % 16 = 0
  fits : addr + hcHeapBytes < 2 ^ 64

/-- `g_hc_heap_top` and `g_hc_heap_last` -/
structure DemoHeap where
  top : BitVec 64
  last : BitVec 64
  deriving DecidableEq, Repr

/-- `g_hc_heap + off` as a word -/
def HeapBase.ptr (base : HeapBase) (off : BitVec 64) : BitVec 64 := BitVec.ofNat 64 base.addr + off

def hcHeapReset : DemoHeap := ⟨0, 0⟩

/-- `n` bytes, at least one and rounded up.  The mask `~15u` is a word of 32 bits that is widened
afterwards, so that the upper half of the sum goes as well. -/
def chunkBytes (n : BitVec 64) : BitVec 64 :=
  ((if n = 0 then 1 else n) + 15) &&& (~~~(15 : BitVec 32)).setWidth 64

def hcBuiltinMalloc (base : HeapBase) (n : BitVec 64) (h : DemoHeap) : BitVec 64 × DemoHeap :=
  let n := chunkBytes n
  if (h.top + n).toNat > hcHeapBytes then (0, h)
  else (base.ptr h.top, ⟨h.top + n, h.top⟩)

def hcBuiltinFree (base : HeapBase) (p : BitVec 64) (h : DemoHeap) : DemoHeap :=
  if p = 0 then hcHeapReset
  else if p = base.ptr h.last then { h with top := h.last }
  else h

/-- `hc_builtin_strlen`, where no text stands for a null pointer. -/
def hcBuiltinStrlen (s : Option (List UInt8)) : ℕ :=
  match s with
  | none => 0
  | some s => s.length

/-! ## Formatting -/

/-- A conversion of `hc_builtin_catprint`. -/
def catConvert (args : Args) (av : BitVec 64) : List UInt8 → List UInt8 × List UInt8
  | [] => ([percent], [])
  | c :: f =>
    if c = 0x64 then (hcFmtI64 av false, f)
    else if c = upperX ∨ c = lowerX then (hcFmtI64 av true, f)
    else if c = 0x63 then ([UInt8.ofBitVec (av.setWidth 8)], f)
    else if c = 0x73 then (if av = 0 then [] else args.string av, f)
    else ([percent, c], f)

/-- The loop of `hc_builtin_catprint`.  A round takes at least one character of the format. -/
def catLoop (args : Args) : ℕ → List UInt8 → ℕ → List UInt8
  | 0, _, _ => []
  | _ + 1, [], _ => []
  | rounds + 1, c :: f, ai =>
    if c ≠ percent then c :: catLoop args rounds f ai
    else if f.head? = some percent then percent :: catLoop args rounds f.tail ai
    else if ai ≥ 2 then []
    else
      let (text, f) := catConvert args (args.argv ai) f
      text ++ catLoop args rounds f (ai + 1)

/-- The text that `hc_builtin_catprint` appends, before its NUL. -/
def catText (args : Args) (fmt : List UInt8) : List UInt8 := catLoop args fmt.length fmt 0

/-! ## Runs -/

/-- What a program can ask for. -/
inductive Op where
  | malloc (n : BitVec 64)
  | free (p : BitVec 64)
  | strNew (s : Option (List UInt8))
  | mStrPrint (args : Args) (fmt : List UInt8)

/-- A chunk that has been handed out: where it is, how many bytes were asked for, and how many bytes
from there on the builtin has written itself. -/
structure Chunk where
  p : BitVec 64
  asked : ℕ
  written : ℕ

def Chunk.range (c : Chunk) : Region Unit := ⟨c.p.toNat, c.asked, ()⟩

/-- The heap and the ranges that have been returned and not been released. -/
structure World where
  heap : DemoHeap
  live : List (Region Unit)

def World.init : World := ⟨hcHeapReset, []⟩

/-- A chunk of so many bytes, of which so many are written. -/
def World.take (base : HeapBase) (w : World) (asked written : ℕ) : Option Chunk × World :=
  let (p, heap) := hcBuiltinMalloc base (BitVec.ofNat 64 asked) w.heap
  if p = 0 then (none, { w with heap })
  else
    let c : Chunk := ⟨p, asked, written⟩
    (some c, ⟨heap, c.range :: w.live⟩)

/-- One call. -/
def Op.run (base : HeapBase) (w : World) : Op → Option Chunk × World
  | malloc n => w.take base n.toNat 0
  | strNew s => w.take base (hcBuiltinStrlen s + 1) (hcBuiltinStrlen s + 1)
  | mStrPrint args fmt => w.take base 128 ((catText args fmt).length + 1)
  | free p =>
    (none, ⟨hcBuiltinFree base p w.heap,
      if p = 0 then [] else w.live.filter fun r => r.base ≠ p.toNat⟩)

/-- The states of a run, each with the call that is made in it. -/
def steps (base : HeapBase) : World → List Op → List (World × Op)
  | _, [] => []
  | w, op :: ops => (w, op) :: steps base (op.run base w).2 ops

/-! ## The size of a chunk -/

/-- What the mask leaves of a word of 32 bits. -/
theorem clear_low (x : BitVec 32) : (x &&& ~~~(15 : BitVec 32)).toNat = x.toNat / 16 * 16 := by
  have hmask : ∀ i, (15 : BitVec 32).getLsbD i = decide (i < 4) := by
    intro i
    have h : (15 : BitVec 32).getLsbD i = Nat.testBit (2 ^ 4 - 1) i := rfl
    rw [h, Nat.testBit_two_pow_sub_one]
  have heq : x &&& ~~~(15 : BitVec 32) = (x >>> 4) <<< 4 := by
    refine BitVec.eq_of_getLsbD_eq fun i hi => ?_
    rw [BitVec.getLsbD_and, BitVec.getLsbD_not, hmask, BitVec.getLsbD_shiftLeft,
      BitVec.getLsbD_ushiftRight]
    by_cases h4 : i < 4
    · simp [h4]
    · simp [h4, hi, Nat.add_sub_cancel' (Nat.not_lt.mp h4)]
  have hx := x.isLt
  rw [heq, BitVec.toNat_shiftLeft, BitVec.toNat_ushiftRight, Nat.shiftRight_eq_div_pow,
    Nat.shiftLeft_eq, Nat.mod_eq_of_lt]
  omega

/-- A wide word under a narrow mask. -/
theorem and_narrow (x : BitVec 64) (m : BitVec 32) :
    x &&& m.setWidth 64 = ((x.setWidth 32) &&& m).setWidth 64 := by
  refine BitVec.eq_of_getLsbD_eq fun i hi => ?_
  by_cases h : i < 32
  · simp [h, hi]
  · have hm : m.getLsbD i = false := BitVec.getLsbD_of_ge m i (Nat.not_lt.mp h)
    simp [hm]

/-- The bytes that a request for `n` takes. -/
def taken (n : ℕ) : ℕ := if n % 2 ^ 64 = 0 then 16 else (n + 15) % 2 ^ 32 / 16 * 16

theorem chunkBytes_toNat (n : ℕ) : (chunkBytes (BitVec.ofNat 64 n)).toNat = taken n := by
  have hzero : BitVec.ofNat 64 n = 0 ↔ n % 2 ^ 64 = 0 := by
    rw [← BitVec.toNat_inj, BitVec.toNat_ofNat]
    rfl
  rw [chunkBytes, and_narrow, BitVec.toNat_setWidth, clear_low, BitVec.toNat_setWidth, BitVec.toNat_add,
    taken]
  by_cases h : n % 2 ^ 64 = 0
  · rw [if_pos (hzero.mpr h), if_pos h]
    rfl
  · rw [if_neg (hzero.not.mpr h), if_neg h, BitVec.toNat_ofNat]
    have h15 : (15 : BitVec 64).toNat = 15 := rfl
    rw [h15]
    omega

theorem taken_mod (n : ℕ) : taken n % 16 = 0 := by
  rw [taken]
  split <;> omega

theorem taken_lt (n : ℕ) : taken n < 2 ^ 32 := by
  rw [taken]
  split <;> omega

theorem le_taken {n : ℕ} (h : n + 15 < 2 ^ 32) : n ≤ taken n := by
  rw [taken]
  split <;> omega

/-! ## What a call keeps -/

/-- The heap of a world: its top and its mark are at multiples of 16, and each live range ends at the
mark, or begins there and ends at the top. -/
structure World.Sound (base : HeapBase) (w : World) : Prop where
  top : w.heap.top.toNat ≤ hcHeapBytes
  topMod : w.heap.top.toNat % 16 = 0
  lastMod : w.heap.last.toNat % 16 = 0
  last : w.heap.last.toNat ≤ w.heap.top.toNat
  low : ∀ r ∈ w.live, base.addr ≤ r.base
  high : ∀ r ∈ w.live, r.stop ≤ base.addr + w.heap.top.toNat
  mark : ∀ r ∈ w.live, r.base = base.addr + w.heap.last.toNat ∨
    r.stop ≤ base.addr + w.heap.last.toNat

/-- A chunk is aligned, lies in the heap, is apart from the live ranges, and nothing is written behind
it. -/
structure Chunk.Good (base : HeapBase) (live : List (Region Unit)) (c : Chunk) : Prop where
  aligned : c.p.toNat % 16 = 0
  inside : c.range.Within ⟨base.addr, hcHeapBytes, ()⟩
  apart : ∀ r ∈ live, c.range.Apart r
  kept : c.written ≤ c.asked

/-- What a call returns is good. -/
def GoodStep (base : HeapBase) (s : World × Op) : Prop :=
  ∀ c, (s.2.run base s.1).1 = some c → c.Good base s.1.live

/-- The request for `n` bytes is below 4 GiB, or what is left of it is refused. -/
def DemoHeap.Serves (h : DemoHeap) (n : ℕ) : Prop :=
  n + 15 < 2 ^ 32 ∨ hcHeapBytes < h.top.toNat + taken n

/-- Sizes are below 4 GiB or refused, and a formatted text has room in 128 bytes or no chunk. -/
def MeetsStep (s : World × Op) : Prop :=
  match s.2 with
  | .malloc n => s.1.heap.Serves n.toNat
  | .free _ => True
  | .strNew t => s.1.heap.Serves (hcBuiltinStrlen t + 1)
  | .mStrPrint args fmt =>
    (catText args fmt).length < 128 ∨ hcHeapBytes < s.1.heap.top.toNat + 128

theorem init_sound (base : HeapBase) : World.init.Sound base where
  top := Nat.zero_le _
  topMod := rfl
  lastMod := rfl
  last := le_rfl
  low := fun _ h => absurd h (List.not_mem_nil)
  high := fun _ h => absurd h (List.not_mem_nil)
  mark := fun _ h => absurd h (List.not_mem_nil)

section Steps

variable {base : HeapBase} {w : World}

theorem ptr_toNat (base : HeapBase) {off : BitVec 64} (h : off.toNat ≤ hcHeapBytes) :
    (base.ptr off).toNat = base.addr + off.toNat := by
  have hfits := base.fits
  rw [HeapBase.ptr, BitVec.toNat_add, BitVec.toNat_ofNat]
  omega

theorem ptr_ne_zero (base : HeapBase) {off : BitVec 64} (h : off.toNat ≤ hcHeapBytes) : base.ptr off ≠ 0 := by
  intro hzero
  have hp := congrArg BitVec.toNat hzero
  have hpos := base.pos
  rw [ptr_toNat base h] at hp
  have h0 : (0 : BitVec 64).toNat = 0 := rfl
  omega

theorem top_add (hw : w.Sound base) (n : ℕ) :
    (w.heap.top + chunkBytes (BitVec.ofNat 64 n)).toNat = w.heap.top.toNat + taken n := by
  have htop := hw.top
  have hn := taken_lt n
  rw [BitVec.toNat_add, chunkBytes_toNat]
  rw [hcHeapBytes] at htop
  omega

theorem take_refused (hw : w.Sound base) {asked : ℕ} (h : hcHeapBytes < w.heap.top.toNat + taken asked)
    (written : ℕ) : w.take base asked written = (none, w) := by
  have hadd := top_add hw asked
  rw [World.take, hcBuiltinMalloc]
  simp only [hadd, gt_iff_lt, h, if_true]

theorem take_granted (hw : w.Sound base) {asked : ℕ}
    (h : w.heap.top.toNat + taken asked ≤ hcHeapBytes) (written : ℕ) :
    w.take base asked written =
      (some ⟨base.ptr w.heap.top, asked, written⟩,
        ⟨⟨w.heap.top + chunkBytes (BitVec.ofNat 64 asked), w.heap.top⟩,
          (⟨base.ptr w.heap.top, asked, written⟩ : Chunk).range :: w.live⟩) := by
  have hadd := top_add hw asked
  have hp := ptr_ne_zero base hw.top
  rw [World.take, hcBuiltinMalloc]
  simp only [hadd, gt_iff_lt, Nat.not_lt.mpr h, if_false, hp]

/-- A request is answered well exactly when its size is kept and what is written has room. -/
theorem take_good_iff (hw : w.Sound base) (asked written : ℕ) :
    (∀ c, (w.take base asked written).1 = some c → c.Good base w.live) ↔
      hcHeapBytes < w.heap.top.toNat + taken asked ∨ asked + 15 < 2 ^ 32 ∧ written ≤ asked := by
  rcases Nat.lt_or_ge hcHeapBytes (w.heap.top.toNat + taken asked) with h | h
  · rw [take_refused hw h]
    exact ⟨fun _ => Or.inl h, fun _ c hc => nomatch hc⟩
  · rw [take_granted hw h]
    have hptr := ptr_toNat base hw.top
    constructor
    · intro hgood
      obtain ⟨_, hin, _, hkept⟩ := hgood _ rfl
      refine Or.inr ⟨?_, hkept⟩
      have hstop := hin.2
      simp only [Chunk.range, hptr, hcHeapBytes] at hstop
      omega
    · rintro (hrefused | ⟨hsmall, hkept⟩) c hc
      · omega
      obtain rfl := Option.some.inj hc
      have hle := le_taken hsmall
      have hbase := base.aligned
      have htop := hw.topMod
      refine ⟨?_, ⟨?_, ?_⟩, fun r hr => ?_, hkept⟩
      · simp only [hptr]
        omega
      · simp only [Chunk.range, hptr]
        omega
      · simp only [Chunk.range, hptr]
        omega
      · refine Or.inr ?_
        have hhigh := hw.high r hr
        simp only [Chunk.range, hptr]
        exact hhigh

/-- A call that meets its condition keeps the heap sound. -/
theorem take_sound (hw : w.Sound base) {asked : ℕ} (written : ℕ) (h : w.heap.Serves asked) :
    (w.take base asked written).2.Sound base := by
  rcases Nat.lt_or_ge hcHeapBytes (w.heap.top.toNat + taken asked) with hfull | hroom
  · rw [take_refused hw hfull]
    exact hw
  · have hle : asked ≤ taken asked := le_taken (h.resolve_right (Nat.not_lt.mpr hroom))
    have hadd := top_add hw asked
    have hptr := ptr_toNat base hw.top
    have hmod := taken_mod asked
    have htop := hw.topMod
    rw [take_granted hw hroom]
    refine ⟨?_, ?_, htop, ?_, fun r hr => ?_, fun r hr => ?_, fun r hr => ?_⟩
    · simp only [hadd]
      exact hroom
    · simp only [hadd]
      omega
    · simp only [hadd]
      omega
    · rcases List.mem_cons.mp hr with rfl | hr
      · simp only [Chunk.range, hptr]
        omega
      · exact hw.low r hr
    · simp only [hadd]
      rcases List.mem_cons.mp hr with rfl | hr
      · simp only [Region.stop, Chunk.range, hptr]
        omega
      · have hhigh := hw.high r hr
        omega
    · rcases List.mem_cons.mp hr with rfl | hr
      · exact Or.inl hptr
      · exact Or.inr (hw.high r hr)

theorem free_sound (hw : w.Sound base) (p : BitVec 64) : ((Op.free p).run base w).2.Sound base := by
  simp only [Op.run]
  by_cases hp : p = 0
  · simp only [hcBuiltinFree, hp, if_true]
    exact init_sound base
  simp only [hcBuiltinFree, hp, if_false]
  by_cases hlast : p = base.ptr w.heap.last
  · have hptr : p.toNat = base.addr + w.heap.last.toNat := by
      rw [hlast]
      exact ptr_toNat base (hw.last.trans hw.top)
    simp only [← hlast, if_true, hptr]
    -- what does not begin at the mark ends there
    have hends : ∀ r ∈ w.live.filter (fun r => r.base ≠ base.addr + w.heap.last.toNat),
        r.stop ≤ base.addr + w.heap.last.toNat := by
      intro r hr
      obtain ⟨hr, hne⟩ := List.mem_filter.mp hr
      exact (hw.mark r hr).resolve_left (of_decide_eq_true hne)
    refine ⟨hw.last.trans hw.top, hw.lastMod, hw.lastMod, le_rfl, fun r hr => ?_, hends,
      fun r hr => Or.inr (hends r hr)⟩
    exact hw.low r (List.mem_filter.mp hr).1
  · simp only [hlast, if_false]
    have hsub : ∀ r ∈ w.live.filter (fun r => r.base ≠ p.toNat), r ∈ w.live :=
      fun r hr => (List.mem_filter.mp hr).1
    exact ⟨hw.top, hw.topMod, hw.lastMod, hw.last, fun r hr => hw.low r (hsub r hr),
      fun r hr => hw.high r (hsub r hr), fun r hr => hw.mark r (hsub r hr)⟩

theorem good_step_iff (hw : w.Sound base) (op : Op) : GoodStep base (w, op) ↔ MeetsStep (w, op) := by
  have h128 : taken 128 = 128 := rfl
  cases op with
  | malloc n =>
    refine (take_good_iff hw n.toNat 0).trans ?_
    simp only [MeetsStep, DemoHeap.Serves, Nat.zero_le, and_true]
    exact or_comm
  | free p => exact ⟨fun _ => trivial, fun _ c hc => nomatch hc⟩
  | strNew t =>
    refine (take_good_iff hw (hcBuiltinStrlen t + 1) (hcBuiltinStrlen t + 1)).trans ?_
    simp only [MeetsStep, DemoHeap.Serves, le_refl, and_true]
    exact or_comm
  | mStrPrint args fmt =>
    refine (take_good_iff hw 128 ((catText args fmt).length + 1)).trans ?_
    simp only [MeetsStep, h128]
    omega

theorem step_sound (hw : w.Sound base) {op : Op} (h : MeetsStep (w, op)) :
    (op.run base w).2.Sound base := by
  cases op with
  | malloc n => exact take_sound hw 0 h
  | free p => exact free_sound hw p
  | strNew t => exact take_sound hw _ h
  | mStrPrint args fmt => exact take_sound hw _ (Or.inl (by omega))

end Steps

/-- The same from any sound state. -/
theorem steps_good_iff {base : HeapBase} {w : World} (hw : w.Sound base) (ops : List Op) :
    (∀ s ∈ steps base w ops, GoodStep base s) ↔ ∀ s ∈ steps base w ops, MeetsStep s := by
  induction ops generalizing w with
  | nil => exact ⟨fun _ _ h => absurd h List.not_mem_nil, fun _ _ h => absurd h List.not_mem_nil⟩
  | cons op ops ih =>
    simp only [steps, List.forall_mem_cons]
    constructor
    · rintro ⟨hgood, hrest⟩
      have hmeets := (good_step_iff hw op).mp hgood
      exact ⟨hmeets, (ih (step_sound hw hmeets)).mp hrest⟩
    · rintro ⟨hmeets, hrest⟩
      exact ⟨(good_step_iff hw op).mpr hmeets, (ih (step_sound hw hmeets)).mpr hrest⟩

/-- **The demo heap.**  In a run, each chunk lies in the heap, apart from the live ones, and the
builtins write only into it, exactly when each size is below 4 GiB or refused and each formatted text
has room in its chunk. -/
theorem demo_heap_sound_iff (base : HeapBase) (ops : List Op) :
    (∀ s ∈ steps base World.init ops, GoodStep base s) ↔
      ∀ s ∈ steps base World.init ops, MeetsStep s :=
  steps_good_iff (init_sound base) ops

/-- A heap at 64 KiB. -/
def lowBase : HeapBase := ⟨0x10000, by decide, rfl, by decide⟩

def noArgs : Args := ⟨fun _ => 0, fun _ => []⟩

/-- A request for 4 GiB gets a chunk of no bytes, and a text of 128 characters gets its NUL written
behind its chunk. -/
theorem demo_heap_overruns :
    (¬∀ (base : HeapBase) (n : BitVec 64),
      ∀ s ∈ steps base World.init [.malloc n], GoodStep base s) ∧
    ¬∀ (base : HeapBase) (args : Args) (fmt : List UInt8),
      ∀ s ∈ steps base World.init [.mStrPrint args fmt], GoodStep base s := by
  constructor
  · intro h
    have hstep := h lowBase (BitVec.ofNat 64 (2 ^ 32)) _ List.mem_cons_self
    have hmeets := (good_step_iff (init_sound lowBase) _).mp hstep
    revert hmeets
    simp only [MeetsStep, DemoHeap.Serves]
    decide +kernel
  · intro h
    have hstep := h lowBase noArgs (List.replicate 128 0x61) _ List.mem_cons_self
    have hmeets := (good_step_iff (init_sound lowBase) _).mp hstep
    revert hmeets
    simp only [MeetsStep]
    decide +kernel

end ZealBringup.Hc
