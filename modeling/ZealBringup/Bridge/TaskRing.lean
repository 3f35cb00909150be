import ZealBringup.Lib.Links
import ZealBringup.Zc.Schedule

/-!
# The ring of the tasks

The tasks are linked to a ring.  The guest edits it in `BootstrapWinRaise`, `TaskQueueIns` and
`TaskQueueRemove` of `TaskBridge.ZC`, the host in `new_guest_fiber` and `finish_guest` of
`runtime.c`; `finish_guest` and `host_task_focus_next` stop the machine where a link is wrong.

* `bootstrapWinRaise`, `taskQueueIns`, `taskQueueRemove` — the edits of the guest.
* `newGuestFiber`, `finishGuest` — the edits of the host.
* `hostTaskFocusNext` — the walk to the next task.
-/

namespace ZealBringup.Bridge

open Zc (GUEST_TASKS GuestState)

local instance guestTasksPos : NeZero GUEST_TASKS := ⟨by decide⟩

/-! ## The state -/

abbrev GUEST_APP_TASKS : ℕ := 9
abbrev GUEST_EXECUTIVE : Fin GUEST_TASKS := 9
abbrev GUEST_SYSTEM : Fin GUEST_TASKS := 10

/-- `enum guest_entry`. -/
inductive GuestEntry where
  | noArg
  | spawn
  | executive
  | inputFilter
  | system
  deriving DecidableEq

/-- `struct guest_fiber` and the fields of its task that the edits read, its links apart. -/
structure Fiber where
  state : GuestState
  /-- `*(void **)words`. -/
  addr : ℕ
  sign : List UInt8
  parent : ℕ
  popup : ℕ

/-- `next_task` and `last_task`, by the address of the task. -/
structure TaskLinks where
  next : ℕ → ℕ
  last : ℕ → ℕ

/-- The tasks, their links, and the interrupt flag with its stack. -/
structure Tasks where
  words : Fin GUEST_TASKS → ℕ
  fibers : Fin GUEST_TASKS → Fiber
  links : TaskLinks
  nextSibling : ℕ → ℕ
  lastSibling : ℕ → ℕ
  /-- `guest_next_child_off - guest_next_sibling_off`. -/
  childOff : ℕ
  winInhibit : ℕ → UInt64
  /-- `sys_focus_task`, which is `guest_focus_task` of the host. -/
  focus : ℕ
  /-- `Fs`. -/
  fs : ℕ
  bound : Bool
  irq : Bool
  irqStack : List Bool

/-- A call that ends, or the text of `zc_fail`. -/
abbrev Run := Except String

/-! ## The links -/

namespace TaskLinks

variable (l : TaskLinks)

def setNext (task v : ℕ) : TaskLinks := { l with next := Function.update l.next task v }
def setLast (task v : ℕ) : TaskLinks := { l with last := Function.update l.last task v }

/-- The writes of `TaskQueueIns`. -/
def ins (task pred : ℕ) : TaskLinks :=
  let last := l.last pred
  (((l.setLast pred task).setNext last task).setLast task last).setNext task pred

/-- The test and the writes of `TaskQueueRemove`. -/
def remove (task : ℕ) : TaskLinks :=
  let next := l.next task
  let last := l.last task
  if l.next last = task ∧ l.last next = task then (l.setNext last next).setLast next last else l

/-- The part of `BootstrapWinRaise` for a task other than the root; `none` is its early return. -/
def raise (task root : ℕ) : Option TaskLinks :=
  let previous := l.last task
  let next := l.next task
  if previous = 0 ∨ next = 0 ∨ l.next previous ≠ task ∨ l.last next ≠ task then none
  else if task ≠ l.last root then
    let l := (l.setNext previous next).setLast next previous
    let tail := l.last root
    if tail ≠ 0 ∧ l.next tail = root then
      some ((((l.setLast task tail).setNext task root).setNext tail task).setLast root task)
    else
      -- the position before the call
      some ((((l.setLast task previous).setNext task next).setNext previous task).setLast next task)
  else some l

end TaskLinks

namespace Tasks

/-- `find_guest_task`. -/
def findTask (s : Tasks) (task : ℕ) : Option (Fin GUEST_TASKS) :=
  (List.finRange GUEST_TASKS).find? fun i => s.words i == task && (s.fibers i).state == .runnable

/-- `valid_guest_task`, and `TaskValidate` of the guest. -/
def taskValidate (s : Tasks) (task : ℕ) : Bool :=
  match s.findTask task with
  | some i => (s.fibers i).addr == s.words i && (s.fibers i).sign == [84, 115, 107, 83]
  | none => false

/-- `PUSHFD`. -/
def pushfd (s : Tasks) : Run Tasks :=
  if !s.bound then .error "RFlagsPush requires a guest task"
  else if s.irqStack.length = 8 then .error "RFlagsPush stack full"
  else .ok { s with irqStack := s.irq :: s.irqStack }

/-- `CLI`. -/
def cli (s : Tasks) : Tasks := { s with irq := false }

/-- `POPFD`. -/
def popfd (s : Tasks) : Run Tasks :=
  match s.bound, s.irqStack with
  | true, flags :: rest => .ok { s with irq := flags, irqStack := rest }
  | _, _ => .error "RFlagsPop without RFlagsPush"

/-! ## The edits of the guest -/

def taskQueueIns (s : Tasks) (task pred : ℕ) : Run Tasks :=
  if task = 0 then .ok s
  else
    let pred := if pred = 0 then s.fs else pred
    if !s.taskValidate pred || !s.taskValidate (s.links.last pred) then .ok s
    else do
      let s ← s.pushfd
      let s := s.cli
      let s := { s with links := s.links.ins task pred }
      s.popfd

def taskQueueRemove (s : Tasks) (task : ℕ) : Run Tasks :=
  if !s.taskValidate task || !s.taskValidate (s.links.next task) ||
      !s.taskValidate (s.links.last task) then
    .ok s
  else do
    let s ← s.pushfd
    let s := s.cli
    let s := { s with links := s.links.remove task }
    s.popfd

def bootstrapWinRaise (s : Tasks) (task root : ℕ) : Run Tasks :=
  if task = 0 || root = 0 || !s.taskValidate task || !s.taskValidate root then .ok s
  else do
    let s ← s.pushfd
    let s := s.cli
    match (if task ≠ root then s.links.raise task root else some s.links) with
    | none => s.popfd
    | some links =>
      let s := { s with
        links, focus := if s.winInhibit task &&& 1 = 0 then task else s.focus }
      s.popfd

/-! ## The edits of the host -/

/-- `guest_child_head`: where the sibling links of a task would be to be its child links. -/
def childHead (s : Tasks) (parent : ℕ) : ℕ := parent + s.childOff

def validChildLink (s : Tasks) (link head parent : ℕ) : Bool :=
  link == head || (s.findTask link).any fun child => (s.fibers child).parent == parent

/-- `init_guest_fiber`, as far as the links go. -/
def initGuestFiber (s : Tasks) (i : Fin GUEST_TASKS) (parent : ℕ) : Tasks :=
  let words := s.words i
  let childHead := s.childHead words
  let sibling (f : ℕ → ℕ) := Function.update (Function.update f words words) childHead childHead
  { s with
    fibers := Function.update s.fibers i ⟨.runnable, words, [84, 115, 107, 83], parent, 0⟩
    links := (s.links.setNext words words).setLast words words
    nextSibling := sibling s.nextSibling
    lastSibling := sibling s.lastSibling }

/-- `ensure_guest_executive`. -/
def ensureGuestExecutive (s : Tasks) : Tasks :=
  if (s.fibers GUEST_EXECUTIVE).state = .runnable then s
  else s.initGuestFiber GUEST_EXECUTIVE (s.words 0)

/-- The place that `new_guest_fiber` finds. -/
def freeFiber (s : Tasks) (kind : GuestEntry) : Option (Fin GUEST_TASKS) :=
  (List.finRange GUEST_TASKS).find? fun i =>
    (if kind = .system then i == GUEST_SYSTEM else 1 ≤ i.val && i.val < GUEST_APP_TASKS) &&
      (s.fibers i).state != .runnable

/-- `codeLives` is what `code_lives_with_parent` says of the entry. -/
def newGuestFiber (s : Tasks) (parent : ℕ) (kind : GuestEntry) (codeLives : Bool)
    (stackSize : UInt64) : Run (Option (Fin GUEST_TASKS) × Tasks) :=
  if !s.bound || (s.findTask parent).isNone || (kind != .inputFilter && !codeLives) then
    .ok (none, s)
  else if 0xfffffffffffffff0 < stackSize then .ok (none, s)
  else
    match s.freeFiber kind with
    | none => .ok (none, s)
    | some i =>
      let s := s.initGuestFiber i parent
      let f := s.words i
      let root := s.words 0
      let tail := s.links.last root
      let links := (((s.links.setNext f root).setLast f tail).setNext tail f).setLast root f
      let s := { s with links }
      let head := s.childHead parent
      let pred := s.lastSibling head
      if !s.validChildLink pred head parent then .error "guest child ring corrupted"
      else
        let last := s.lastSibling pred
        if !s.validChildLink last head parent || s.nextSibling last != pred then
          .error "guest child ring corrupted"
        else
          .ok (some i, { s with
            nextSibling := Function.update (Function.update s.nextSibling last f) f pred
            lastSibling := Function.update (Function.update s.lastSibling pred f) f last })

def guestHasChildren (s : Tasks) (task : ℕ) : Bool :=
  (List.finRange GUEST_TASKS).any fun i =>
    i != 0 && (s.fibers i).state == .runnable && (s.fibers i).parent == task

/-- `guest_popup_parent`. -/
def popupParent (s : Tasks) (child : Fin GUEST_TASKS) : Option (Fin GUEST_TASKS) :=
  let parentTask := (s.fibers child).parent
  match s.findTask parentTask with
  | some parent =>
    if !s.taskValidate parentTask || (s.fibers parent).popup != s.words child then none
    else some parent
  | none => none

/-- The child ring and the task ring without the task; the first link that is wrong stops it. -/
def unlinkFiber (s : Tasks) (i : Fin GUEST_TASKS) : Run Tasks :=
  let f := s.words i
  let parent := (s.fibers i).parent
  if !s.taskValidate parent then .error "guest task parent vanished"
  else
    let head := s.childHead parent
    let siblingPrev := s.lastSibling f
    let siblingNext := s.nextSibling f
    if !s.validChildLink siblingPrev head parent || !s.validChildLink siblingNext head parent ||
        s.nextSibling siblingPrev != f || s.lastSibling siblingNext != f then
      .error "guest child ring corrupted"
    else
      let s := { s with
        nextSibling := Function.update (Function.update s.nextSibling siblingPrev siblingNext) f f
        lastSibling := Function.update (Function.update s.lastSibling siblingNext siblingPrev) f f }
      let previous := s.links.last f
      let next := s.links.next f
      if !s.taskValidate previous || !s.taskValidate next || s.links.next previous != f ||
          s.links.last next != f then
        .error "guest task ring corrupted"
      else
        .ok { s with
          links := (((s.links.setNext previous next).setLast next previous).setNext f f).setLast f f }

/-- `finish_guest`, without the jobs and the memory of the task. -/
def finishGuest (s : Tasks) (i : Fin GUEST_TASKS) : Run Tasks :=
  if (s.fibers i).state ≠ .runnable then .ok s
  else if s.guestHasChildren (s.words i) then .error "task ended before its children"
  else do
    let s :=
      match s.popupParent i with
      | some parent =>
        { s with fibers := Function.update s.fibers parent { s.fibers parent with popup := 0 } }
      | none => s
    let s ← if i ≠ GUEST_EXECUTIVE then s.unlinkFiber i else .ok s
    .ok { s with
      fibers := Function.update s.fibers i { s.fibers i with state := .done, sign := [0, 0, 0, 0] }
      focus := if s.focus = s.words i then 0 else s.focus }

/-! ## The walk to the next task -/

/-- The loop of `host_task_focus_next`. -/
def focusWalk (s : Tasks) (start : ℕ) : ℕ → ℕ → Run Tasks
  | 0, _ => .ok s
  | hops + 1, task =>
    if !s.taskValidate task || task == s.words GUEST_EXECUTIVE then
      .error "guest task ring corrupted"
    else if s.winInhibit task &&& 1 = 0 then .ok { s with focus := task }
    else if task = start then .ok s
    else focusWalk s start hops (s.links.next task)

end Tasks

end ZealBringup.Bridge
