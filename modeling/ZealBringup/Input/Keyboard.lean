import Mathlib.Data.List.Basic
import ZealBringup.Lib.Fifo

/-!
# The keyboard

`virtio_kbd.h`: key events become bytes for the shell and messages for the programs, each in a ring
of its own; `virtio_kbd_take_ctrl_c` takes the escape of the demo out of the byte ring.

* `vkRingPush`, `vkRingPop`, `virtioKbdTakeCtrlC` — the calls on the byte ring.
* `vkDecodeKey`, `vkPoll` — what an event of the device pushes.
* `Keys` — the same keyboard with a bounded queue in place of the ring.
* `keyRing_refines` — the ring answers as the queue, over every run, from every place of the ring.
-/

namespace ZealBringup.Input

open Fifo

/-! ## The rings -/

/-- `struct vk_msg`. -/
structure VkMsg where
  type : UInt8
  a1 : UInt64
  a2 : UInt64
  deriving DecidableEq

/-- `struct vk_event`. -/
structure VkEvent where
  type : UInt16
  code : UInt16
  value : UInt32
  deriving DecidableEq

/-- The part of `struct vk_dev` that the decoder reads, and `g_vk_input_suppressed`. -/
structure VkDev where
  shift : UInt8
  ctrl : UInt8
  alt : UInt8
  ready : Bool
  suppressed : Bool
  deriving DecidableEq

/-- `g_vk*`: bytes are written at `rh` and read at `rt`, messages at `mh` and `mt`. -/
structure Kbd where
  dev : VkDev
  ring : Fin 64 → UInt8
  rh : Fin 64
  rt : Fin 64
  msg : Fin 32 → VkMsg
  mh : Fin 32
  mt : Fin 32
  keyEventCount : UInt64
  lastKeyCode : UInt16
  lastKeyValue : UInt32

def vkRingPush (k : Kbd) (b : UInt8) : Kbd :=
  let n := k.rh + 1
  if n != k.rt then { k with ring := Function.update k.ring k.rh b, rh := n } else k

def vkRingPop (k : Kbd) : ℤ × Kbd :=
  if k.rh == k.rt then (-1, k)
  else
    let b := k.ring k.rt
    (b.toNat, { k with rt := k.rt + 1 })

def vkMsgPush (k : Kbd) (type : UInt8) (a1 a2 : UInt64) : Kbd :=
  let n := k.mh + 1
  if n != k.mt then { k with msg := Function.update k.msg k.mh ⟨type, a1, a2⟩, mh := n } else k

/-! ## The decoder -/

/-- The scan code of a key that has no character. -/
def vkLinuxToSc (code : UInt16) : Option UInt64 :=
  if code = 102 then some 0x47
  else if code = 104 then some 0x49
  else if code = 107 then some 0x4f
  else if code = 109 then some 0x51
  else if code = 110 then some 0x52
  else if code = 111 then some 0x53
  else if code = 103 then some 0x48
  else if code = 108 then some 0x50
  else if code = 105 then some 0x4b
  else if code = 106 then some 0x4d
  else if 59 ≤ code && code ≤ 68 then some (0x3b + (code - 59).toUInt64)
  else if code = 87 then some 0x57
  else if code = 88 then some 0x58
  else none

/-- A key code with its character and its character under Shift. -/
structure KeyChar where
  c : UInt16
  base : UInt8
  sh : UInt8

/-- A row of the table, by its characters. -/
def keyRow (code : UInt16) (base sh : Char) : KeyChar := ⟨code, base.toUInt8, sh.toUInt8⟩

/-- `map`. -/
def keyMap : List KeyChar :=
  [⟨1, 0x1b, 0x1c⟩,
    keyRow 2 '1' '!', keyRow 3 '2' '@', keyRow 4 '3' '#', keyRow 5 '4' '$', keyRow 6 '5' '%',
    keyRow 7 '6' '^', keyRow 8 '7' '&', keyRow 9 '8' '*', keyRow 10 '9' '(', keyRow 11 '0' ')',
    keyRow 12 '-' '_', keyRow 13 '=' '+', ⟨14, 8, 8⟩, ⟨15, 9, 9⟩,
    keyRow 16 'q' 'Q', keyRow 17 'w' 'W', keyRow 18 'e' 'E', keyRow 19 'r' 'R', keyRow 20 't' 'T',
    keyRow 21 'y' 'Y', keyRow 22 'u' 'U', keyRow 23 'i' 'I', keyRow 24 'o' 'O', keyRow 25 'p' 'P',
    keyRow 26 '[' '{', keyRow 27 ']' '}', ⟨28, 10, 10⟩,
    keyRow 30 'a' 'A', keyRow 31 's' 'S', keyRow 32 'd' 'D', keyRow 33 'f' 'F', keyRow 34 'g' 'G',
    keyRow 35 'h' 'H', keyRow 36 'j' 'J', keyRow 37 'k' 'K', keyRow 38 'l' 'L', keyRow 39 ';' ':',
    ⟨40, 39, 34⟩, ⟨41, 96, 126⟩, ⟨43, 92, 124⟩,
    keyRow 44 'z' 'Z', keyRow 45 'x' 'X', keyRow 46 'c' 'C', keyRow 47 'v' 'V', keyRow 48 'b' 'B',
    keyRow 49 'n' 'N', keyRow 50 'm' 'M', keyRow 51 ',' '<', keyRow 52 '.' '>', keyRow 53 '/' '?',
    keyRow 57 ' ' ' ']

/-- The character of a key; Ctrl makes a control code of a letter. -/
def vkKeycodeAscii (code : UInt16) (shift ctrl : Bool) : Option UInt8 :=
  (keyMap.find? fun row => row.c == code).map fun row =>
    let ch := if shift then row.sh else row.base
    if ctrl && 97 ≤ ch && ch ≤ 122 then ch - 97 + 1
    else if ctrl && 65 ≤ ch && ch ≤ 90 then ch - 65 + 1
    else ch

/-- A bit of a held modifier. -/
def holdBit (held bit : UInt8) (pressed : Bool) : UInt8 :=
  if pressed then held ||| bit else held &&& ~~~bit

/-- `SCF_SHIFT`, `SCF_CTRL` and `SCF_ALT` of the held modifiers. -/
def VkDev.flags (d : VkDev) : UInt64 :=
  (if d.shift != 0 then 0x200 else 0) ||| (if d.ctrl != 0 then 0x400 else 0) |||
    (if d.alt != 0 then 0x800 else 0)

def vkDecodeKey (k : Kbd) (ev : VkEvent) : Kbd :=
  let d := k.dev
  let pressed := ev.value != 0
  if ev.code == 42 || ev.code == 54 then
    { k with dev := { d with shift := holdBit d.shift (if ev.code == 42 then 1 else 2) pressed } }
  else if ev.code == 29 || ev.code == 97 then
    { k with dev := { d with ctrl := holdBit d.ctrl (if ev.code == 29 then 1 else 2) pressed } }
  else if ev.code == 56 || ev.code == 100 then
    { k with dev := { d with alt := holdBit d.alt (if ev.code == 56 then 1 else 2) pressed } }
  else
    match vkLinuxToSc ev.code with
    | some sc => vkMsgPush k (if pressed then 2 else 3) 0 (sc ||| d.flags)
    | none =>
      match vkKeycodeAscii ev.code (d.shift != 0) (d.ctrl != 0) with
      | none => k
      | some ch =>
        if pressed then vkMsgPush (vkRingPush k ch) 2 ch.toUInt64 d.flags
        else vkMsgPush k 3 ch.toUInt64 d.flags

/-- `VK_EV_KEY` is the only type that counts. -/
def vkHandle (k : Kbd) (ev : VkEvent) : Kbd :=
  if ev.type != 1 then k
  else
    let k := { k with
      keyEventCount := k.keyEventCount + 1, lastKeyCode := ev.code, lastKeyValue := ev.value }
    if k.dev.suppressed then k else vkDecodeKey k ev

/-- `evs` are the events of the used ring from `last_used` up to its index. -/
def vkPoll (k : Kbd) (evs : List VkEvent) : Kbd := if k.dev.ready then evs.foldl vkHandle k else k

/-! ## The calls -/

/-- The loop that moves the later bytes back by one, from the slot `j` on. -/
def shiftBack (ring : Fin 64 → UInt8) (rh j : Fin 64) : Fin 64 → UInt8 :=
  let next := j + 1
  if next = rh then ring else shiftBack (Function.update ring j (ring next)) rh next
termination_by (rh - (j + 1)).val
decreasing_by
  have hne : j + 1 ≠ rh := by assumption
  rw [val_sub_eq_succ hne]
  exact Nat.lt_succ_self _

/-- The search of `virtio_kbd_take_ctrl_c` from the slot `i` on. -/
def takeFrom (k : Kbd) (i : Fin 64) : ℤ × Kbd :=
  if i = k.rh then (0, k)
  else if k.ring i == 3 then (1, { k with ring := shiftBack k.ring k.rh i, rh := k.rh + 63 })
  else takeFrom k (i + 1)
termination_by (k.rh - i).val
decreasing_by
  have hne : i ≠ k.rh := by assumption
  rw [val_sub_eq_succ hne]
  exact Nat.lt_succ_self _

def virtioKbdTakeCtrlC (k : Kbd) (evs : List VkEvent) : ℤ × Kbd :=
  let k := vkPoll k evs
  takeFrom k k.rt

/-- A call on the byte ring; `evs` are the events the device has for the poll. -/
inductive RingCall where
  | push (b : UInt8)
  | pop
  | takeCtrlC (evs : List VkEvent)

/-- A call with what it returns. -/
def Kbd.call (k : Kbd) : RingCall → Option ℤ × Kbd
  | .push b => (none, vkRingPush k b)
  | .pop => (some (vkRingPop k).1, (vkRingPop k).2)
  | .takeCtrlC evs => (some (virtioKbdTakeCtrlC k evs).1, (virtioKbdTakeCtrlC k evs).2)

/-- What the calls of a run return, and the keyboard after them. -/
def Kbd.run (k : Kbd) : List RingCall → List (Option ℤ) × Kbd
  | [] => ([], k)
  | c :: cs => ((k.call c).1 :: ((k.call c).2.run cs).1, ((k.call c).2.run cs).2)

/-! ## A bounded queue in place of the ring -/

/-- The keyboard with the bytes in a queue of at most 63. -/
structure Keys where
  dev : VkDev
  queue : Bounded UInt8 63

/-- The queue of the ring. -/
def Kbd.queue (k : Kbd) : Bounded UInt8 63 :=
  ⟨contents k.ring k.rt k.rh, Nat.le_of_lt_succ length_contents_lt⟩

def Kbd.keys (k : Kbd) : Keys := ⟨k.dev, k.queue⟩

/-- The modifiers after an event. -/
def VkDev.hold (d : VkDev) (ev : VkEvent) : VkDev :=
  let pressed := ev.value != 0
  if ev.code == 42 || ev.code == 54 then
    { d with shift := holdBit d.shift (if ev.code == 42 then 1 else 2) pressed }
  else if ev.code == 29 || ev.code == 97 then
    { d with ctrl := holdBit d.ctrl (if ev.code == 29 then 1 else 2) pressed }
  else if ev.code == 56 || ev.code == 100 then
    { d with alt := holdBit d.alt (if ev.code == 56 then 1 else 2) pressed }
  else d

/-- The codes of the modifiers. -/
def isModifier (code : UInt16) : Bool := code ∈ [42, 54, 29, 97, 56, 100]

/-- The byte that an event types. -/
def VkDev.typed (d : VkDev) (ev : VkEvent) : Option UInt8 :=
  if isModifier ev.code || (vkLinuxToSc ev.code).isSome || ev.value == 0 then none
  else vkKeycodeAscii ev.code (d.shift != 0) (d.ctrl != 0)

/-- An event that the keyboard tells and nothing suppresses. -/
def Keys.event (s : Keys) (ev : VkEvent) : Keys :=
  if ev.type != 1 || s.dev.suppressed then s
  else ⟨s.dev.hold ev, (s.dev.typed ev).elim s.queue s.queue.push⟩

def Keys.poll (s : Keys) (evs : List VkEvent) : Keys :=
  if s.dev.ready then evs.foldl Keys.event s else s

/-- A call on the queue. -/
def Keys.call (s : Keys) : RingCall → Option ℤ × Keys
  | .push b => (none, { s with queue := s.queue.push b })
  | .pop =>
    (some (s.queue.pop.1.elim (-1) fun b => (b.toNat : ℤ)), { s with queue := s.queue.pop.2 })
  | .takeCtrlC evs =>
    let s := s.poll evs
    (some (if 3 ∈ s.queue.val then 1 else 0), { s with queue := s.queue.erase 3 })

def Keys.run (s : Keys) : List RingCall → List (Option ℤ) × Keys
  | [] => ([], s)
  | c :: cs => ((s.call c).1 :: ((s.call c).2.run cs).1, ((s.call c).2.run cs).2)

/-! ## Pushes and pops -/

theorem queue_push (k : Kbd) (b : UInt8) : (vkRingPush k b).queue = k.queue.push b := by
  apply Subtype.ext
  rw [Bounded.val_push]
  unfold vkRingPush
  have hroom : k.rh + 1 ≠ k.rt ↔ k.queue.val.length + 1 < 64 := length_succ_lt_iff
  by_cases h : k.rh + 1 = k.rt
  · have hfull : ¬ k.queue.val.length < 63 := by
      rw [← Nat.succ_lt_succ_iff, ← hroom]
      exact not_not_intro h
    simp [h, hfull]
  · have hlt : k.queue.val.length < 63 := Nat.succ_lt_succ_iff.mp (hroom.mp h)
    simp only [bne_iff_ne.mpr h, if_true, hlt]
    exact contents_push b h

@[simp] theorem dev_push (k : Kbd) (b : UInt8) : (vkRingPush k b).dev = k.dev := by
  unfold vkRingPush
  dsimp only
  split <;> rfl

/-- A message leaves the bytes as they are. -/
@[simp] theorem queue_msgPush (k : Kbd) (type : UInt8) (a1 a2 : UInt64) :
    (vkMsgPush k type a1 a2).queue = k.queue := by
  unfold vkMsgPush
  dsimp only
  split <;> rfl

@[simp] theorem dev_msgPush (k : Kbd) (type : UInt8) (a1 a2 : UInt64) :
    (vkMsgPush k type a1 a2).dev = k.dev := by
  unfold vkMsgPush
  dsimp only
  split <;> rfl

theorem keys_pop (k : Kbd) : k.keys.call .pop = (some (vkRingPop k).1, (vkRingPop k).2.keys) := by
  unfold vkRingPop
  by_cases h : k.rh = k.rt
  · have hnil : k.queue.val = [] := contents_eq_nil_iff.mpr h.symm
    have hq : k.queue.pop.2 = k.queue := Subtype.ext (by rw [Bounded.val_pop, hnil]; rfl)
    simp only [h, beq_self_eq_true, if_true, Keys.call]
    refine Prod.ext ?_ (congrArg (Keys.mk k.dev) hq)
    simp [Bounded.pop, Kbd.keys, hnil]
  · have hcons : k.queue.val = k.ring k.rt :: contents k.ring (k.rt + 1) k.rh :=
      contents_pop (Ne.symm h)
    have hq : k.queue.pop.2 = Kbd.queue { k with rt := k.rt + 1 } :=
      Subtype.ext (by rw [Bounded.val_pop, hcons]; rfl)
    simp only [h, beq_iff_eq, if_false, Keys.call]
    refine Prod.ext ?_ (congrArg (Keys.mk k.dev) hq)
    simp [Bounded.pop, Kbd.keys, hcons]

/-! ## The poll -/

theorem keys_decodeKey (k : Kbd) (ev : VkEvent) :
    (vkDecodeKey k ev).keys =
      ⟨k.dev.hold ev, (k.dev.typed ev).elim k.queue k.queue.push⟩ := by
  unfold vkDecodeKey VkDev.hold VkDev.typed isModifier
  by_cases hshift : ev.code = 42 ∨ ev.code = 54
  · rcases hshift with h | h <;> simp [h, Kbd.keys, Kbd.queue]
  by_cases hctrl : ev.code = 29 ∨ ev.code = 97
  · rcases hctrl with h | h <;> simp [h, Kbd.keys, Kbd.queue]
  by_cases halt : ev.code = 56 ∨ ev.code = 100
  · rcases halt with h | h <;> simp [h, Kbd.keys, Kbd.queue]
  rw [not_or] at hshift hctrl halt
  cases hsc : vkLinuxToSc ev.code with
  | some sc => simp [hshift, hctrl, halt, Kbd.keys]
  | none =>
    by_cases hpressed : ev.value = 0
    · cases hch : vkKeycodeAscii ev.code (k.dev.shift != 0) (k.dev.ctrl != 0) <;>
        simp [hshift, hctrl, halt, hpressed, hch, Kbd.keys]
    · cases hch : vkKeycodeAscii ev.code (k.dev.shift != 0) (k.dev.ctrl != 0) with
      | none => simp [hshift, hctrl, halt, hpressed, hch, Kbd.keys]
      | some ch => simp [hshift, hctrl, halt, hpressed, hch, Kbd.keys, queue_push]

theorem keys_handle (k : Kbd) (ev : VkEvent) : (vkHandle k ev).keys = k.keys.event ev := by
  unfold vkHandle Keys.event
  by_cases htype : ev.type = 1
  · by_cases hsup : k.dev.suppressed = true
    · simp [htype, hsup, Kbd.keys, Kbd.queue]
    · simp only [htype, bne_self_eq_false, hsup, Kbd.keys]
      exact keys_decodeKey _ ev
  · simp [htype]

theorem keys_poll (k : Kbd) (evs : List VkEvent) : (vkPoll k evs).keys = k.keys.poll evs := by
  have hfold : (evs.foldl vkHandle k).keys = evs.foldl Keys.event k.keys := by
    induction evs generalizing k with
    | nil => rfl
    | cons ev evs ih => rw [List.foldl_cons, List.foldl_cons, ih, keys_handle]
  unfold vkPoll Keys.poll
  rw [show k.keys.dev.ready = k.dev.ready from rfl]
  split
  · exact hfold
  · rfl

/-! ## The byte taken out of the middle -/

/-- **The bytes behind the gap close up**, and the byte at the gap is gone. -/
theorem contents_shiftBack (ring : Fin 64 → UInt8) (rt rh j : Fin 64) (hj : j ≠ rh)
    (hin : (j - rt).val ≤ (rh - rt).val) :
    contents (shiftBack ring rh j) rt (rh + 63) =
      contents ring rt j ++ contents ring (j + 1) rh := by
  induction ring, j using shiftBack.induct rh with
  | case1 ring j next hnext =>
    rw [shiftBack.eq_def]
    have hlast : rh + 63 = j := by
      rw [← hnext]
      show j + 1 + 63 = j
      rw [add_assoc]
      exact add_zero j
    simp only [next] at hnext
    simp [hnext, hlast]
  | case2 ring j next hnext ih =>
    rw [shiftBack.eq_def]
    simp only [next] at hnext ih
    simp only [hnext, if_false]
    -- the gap moves on by one, and the byte behind it has taken its place
    have hlt := val_sub_lt hj hin
    have hstep := val_succ_sub hj hin
    have hroom : j + 1 ≠ rt := by
      rintro rfl
      simp at hstep
    have htail : contents (Function.update ring j (ring (j + 1))) (j + 1) rh =
        contents ring (j + 1) rh := contents_update_head (ring (j + 1)) hj
    rw [contents_pop hnext, contents_pop hnext] at htail
    rw [ih hnext (by omega), contents_push (ring (j + 1)) hroom, contents_pop hnext, List.append_assoc, List.singleton_append,
      (List.cons.inj htail).2]

/-- The search goes on while the bytes it passed are not the one it looks for. -/
theorem keys_takeFrom (k : Kbd) (i : Fin 64) (hin : (i - k.rt).val ≤ (k.rh - k.rt).val)
    (hbefore : 3 ∉ contents k.ring k.rt i) :
    (takeFrom k i).1 = (if 3 ∈ k.queue.val then 1 else 0) ∧
      (takeFrom k i).2.keys = ⟨k.dev, k.queue.erase 3⟩ := by
  induction i using takeFrom.induct k with
  | case1 =>
    rw [takeFrom.eq_def]
    have hnot : 3 ∉ k.queue.val := hbefore
    have hq : k.queue.erase 3 = k.queue := Subtype.ext (List.erase_of_not_mem hnot)
    simp [hnot, hq, Kbd.keys]
  | case2 i hi h3 =>
    rw [takeFrom.eq_def]
    have hsplit : k.queue.val = contents k.ring k.rt i ++ 3 :: contents k.ring (i + 1) k.rh := by
      rw [← beq_iff_eq.mp h3, ← contents_pop hi]
      exact contents_append hin
    have hmem : 3 ∈ k.queue.val := by simp [hsplit]
    have hq : k.queue.erase 3 =
        Kbd.queue { k with ring := shiftBack k.ring k.rh i, rh := k.rh + 63 } := by
      apply Subtype.ext
      show k.queue.val.erase 3 = _
      rw [hsplit, List.erase_append_right _ hbefore, List.erase_cons_head]
      exact (contents_shiftBack k.ring k.rt k.rh i hi hin).symm
    simp [hi, h3, hmem, hq, Kbd.keys]
  | case3 i hi h3 ih =>
    rw [takeFrom.eq_def]
    simp only [hi, h3, if_false]
    have hlt := val_sub_lt hi hin
    have hstep := val_succ_sub hi hin
    apply ih (by omega)
    rw [contents_succ hi hin, List.mem_append, List.mem_singleton, not_or]
    exact ⟨hbefore, fun heq => h3 (beq_iff_eq.mpr heq.symm)⟩

theorem keys_takeCtrlC (k : Kbd) (evs : List VkEvent) :
    k.keys.call (.takeCtrlC evs) =
      (some (virtioKbdTakeCtrlC k evs).1, (virtioKbdTakeCtrlC k evs).2.keys) := by
  unfold virtioKbdTakeCtrlC Keys.call
  obtain ⟨hret, hkeys⟩ := keys_takeFrom (vkPoll k evs) (vkPoll k evs).rt (by simp) (by simp)
  rw [hret, hkeys]
  dsimp only
  rw [← keys_poll]
  rfl

/-! ## The runs -/

theorem keys_call (k : Kbd) (c : RingCall) :
    k.keys.call c = ((k.call c).1, (k.call c).2.keys) := by
  cases c with
  | push b =>
    show (none, Keys.mk k.dev (k.queue.push b)) = (none, (vkRingPush k b).keys)
    rw [← queue_push]
    simp [Kbd.keys]
  | pop => exact keys_pop k
  | takeCtrlC evs => exact keys_takeCtrlC k evs

theorem keys_run (k : Kbd) (cs : List RingCall) :
    k.keys.run cs = ((k.run cs).1, (k.run cs).2.keys) := by
  induction cs generalizing k with
  | nil => rfl
  | cons c cs ih => simp only [Keys.run, Kbd.run, keys_call, ih]

/-- **The ring is a queue of at most 63 bytes.** From every place of the ring every run of pushes,
pops and takes returns what the queue returns and leaves what the queue leaves; a take returns one
exactly when the byte 3 is queued, and takes out its first occurrence alone. -/
theorem keyRing_refines (k : Kbd) :
    (∀ cs, (k.run cs).1 = (k.keys.run cs).1 ∧ (k.run cs).2.queue = (k.keys.run cs).2.queue) ∧
      ∀ evs, let queued := (vkPoll k evs).queue.val
        let left := (virtioKbdTakeCtrlC k evs).2.queue.val
        ((virtioKbdTakeCtrlC k evs).1 = if 3 ∈ queued then 1 else 0) ∧
          (3 ∈ queued → ∃ before after, queued = before ++ 3 :: after ∧ 3 ∉ before ∧
            left = before ++ after) ∧
          (3 ∉ queued → left = queued) := by
  constructor
  · intro cs
    rw [keys_run]
    exact ⟨rfl, rfl⟩
  · intro evs queued left
    obtain ⟨hret, hkeys⟩ := keys_takeFrom (vkPoll k evs) (vkPoll k evs).rt (by simp) (by simp)
    have hleft : left = queued.erase 3 := congrArg (fun s => s.queue.val) hkeys
    refine ⟨hret, fun hmem => ?_, fun hnot => ?_⟩
    · obtain ⟨before, after, hnot, hsplit, herase⟩ := List.exists_erase_eq hmem
      exact ⟨before, after, hsplit, hnot, hleft.trans herase⟩
    · rw [hleft, List.erase_of_not_mem hnot]

end ZealBringup.Input
