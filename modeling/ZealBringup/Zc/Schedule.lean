import ZealBringup.Lib.RoundRobin

/-!
# The scheduler of the guest tasks

`wait_ready` and `next_guest` of `runtime.c`: the tasks run one at a time and give the processor up
by a call; the next one is the first behind the running one that may run.

* `waitReady` — the condition that a task waits for.
* `nextGuest` — the selection, with the root where no task may run.
* `nextGuest_fair` — a task that may run at every selection waits for fewer selections than there
  are tasks, whatever changes between them; and no selection is of a task that may not run.
-/

namespace ZealBringup.Zc

open RoundRobin

/-! ## The tasks -/

abbrev GUEST_TASKS : ℕ := 11

/-- `enum guest_state`. -/
inductive GuestState where
  | unused
  | runnable
  | done
  deriving DecidableEq

/-- `enum guest_wait`. -/
inductive GuestWait where
  | none
  | birth
  | death
  | idle
  | message
  | server
  | job
  | timer
  | idleTimeout
  | messageTimeout
  deriving DecidableEq

/-- The fields of a `CTask` that the scheduler reads, at the offsets it found for them. -/
structure GuestTask where
  addr : UInt64
  sign : List UInt8
  flags : UInt32
  parent : UInt64
  popup : UInt64
  number : UInt64
  inputFilter : UInt64

/-- `struct guest_fiber`, as far as the scheduler reads it. -/
structure GuestFiber where
  /-- The address of the task. -/
  words : UInt64
  task : GuestTask
  /-- The rings at `guest_job_head` and `guest_done_head`, from the head on. -/
  jobs : List UInt64
  done : List UInt64
  state : GuestState
  waitKind : GuestWait
  /-- `*(void **)wait_slot`. -/
  slot : UInt64
  waitTarget : UInt64
  waitNumber : UInt64
  waitDeadline : UInt64
  killRequested : Bool
  /-- The jobs along `active_jobs`. -/
  activeJobs : List UInt64

/-- What a selection sees; `now i` is the counter at the time it looks at the task `i`. -/
structure Guests where
  fibers : Fin GUEST_TASKS → GuestFiber
  jobFlags : UInt64 → UInt64
  now : Fin GUEST_TASKS → UInt64

def GUEST_SUSPENDED : UInt32 := 0x4
def GUEST_IDLE : UInt32 := 0x8
def GUEST_CMD_LINE_PROMPT : UInt32 := 0x10
def GUEST_JOBF_DONE : UInt64 := 0x20

/-! ## The condition of a wait -/

namespace Guests

variable (w : Guests)

def findGuestTask (task : UInt64) : Option (Fin GUEST_TASKS) :=
  (List.finRange GUEST_TASKS).find? fun i =>
    (w.fibers i).words == task && (w.fibers i).state == .runnable

/-- A task that is found, points to itself and carries the mark `TskS`. -/
def validGuestTask (task : UInt64) : Bool :=
  match w.findGuestTask task with
  | some i =>
    (w.fibers i).task.addr == (w.fibers i).words && (w.fibers i).task.sign == [84, 115, 107, 83]
  | none => false

def guestPopupParent (child : Fin GUEST_TASKS) : Option (Fin GUEST_TASKS) :=
  let parentTask := (w.fibers child).task.parent
  match w.findGuestTask parentTask with
  | some parent =>
    if !w.validGuestTask parentTask || (w.fibers parent).task.popup != (w.fibers child).words then
      none
    else some parent
  | none => none

/-- A request in flight or in a ring of a task that runs. -/
def guestJobFind (request : UInt64) : Option UInt64 :=
  let holds (i : Fin GUEST_TASKS) : Bool :=
    let f := w.fibers i
    f.state == .runnable &&
      ((request != 0 && f.activeJobs.contains request) || f.jobs.contains request ||
        f.done.contains request)
  if (List.finRange GUEST_TASKS).any holds then some request else none

/-- The loop of `hops` along the popups: a task with a job. -/
def serverHasJob : ℕ → Option (Fin GUEST_TASKS) → Bool
  | 0, _ => false
  | _ + 1, none => false
  | hops + 1, some server =>
    !(w.fibers server).jobs.isEmpty || serverHasJob hops (w.guestPopupParent server)

/-- The counter has come to the deadline of a task. -/
def deadlinePassed (i : Fin GUEST_TASKS) : Bool :=
  0 ≤ (w.now i - (w.fibers i).waitDeadline).toInt64

def waitReady (i : Fin GUEST_TASKS) : Bool :=
  let f := w.fibers i
  let target := f.slot
  let valid := w.validGuestTask target
  let server := w.findGuestTask target
  match f.waitKind with
  | .none => true
  | .timer => w.deadlinePassed i
  | .messageTimeout => !valid || w.serverHasJob GUEST_TASKS server || w.deadlinePassed i
  | .job =>
    if f.waitTarget == 0 then !f.done.isEmpty
    else
      match w.guestJobFind f.waitTarget with
      | some job => w.jobFlags job &&& GUEST_JOBF_DONE != 0
      | none => true
  | .death => !valid
  | .message => !valid || w.serverHasJob GUEST_TASKS server
  | .server => !valid || server.any fun s => !(w.fibers s).jobs.isEmpty
  | .idle | .idleTimeout =>
    if f.waitKind == .idleTimeout && w.deadlinePassed i then true
    else
      match server with
      | some t =>
        if !valid then true
        else
          let filter := (w.fibers t).task.inputFilter
          match w.findGuestTask filter with
          | some input =>
            if filter == f.words || !w.validGuestTask filter then true
            else
              (w.fibers input).jobs.isEmpty && (w.fibers input).task.flags &&& GUEST_IDLE != 0 &&
                (f.waitNumber == 0 || (w.fibers input).task.flags &&& GUEST_CMD_LINE_PROMPT != 0)
          | none => true
      | none => true
  | .birth => valid && server.any fun s => (w.fibers s).task.number != f.waitNumber

/-! ## The selection -/

/-- A task runs, and is to be killed, or is not suspended and its wait is over. -/
def selectable (i : Fin GUEST_TASKS) : Bool :=
  (w.fibers i).state == .runnable &&
    ((w.fibers i).killRequested ||
      ((w.fibers i).task.flags &&& GUEST_SUSPENDED == 0 && w.waitReady i))

/-- The loop of `next_guest` over `step`. -/
def nextGuestFrom (cur : Fin GUEST_TASKS) (step : ℕ) : Fin GUEST_TASKS :=
  if step ≤ GUEST_TASKS then
    let i := cur + Fin.ofNat GUEST_TASKS step
    if w.selectable i then i else nextGuestFrom cur (step + 1)
  else 0
termination_by GUEST_TASKS + 1 - step

def nextGuest (cur : Fin GUEST_TASKS) : Fin GUEST_TASKS := w.nextGuestFrom cur 1

end Guests

/-- The tasks that a run of selections selects; each starts at the task that runs, and `ws` are the
tasks as the selections see them. -/
def selections (cur : Fin GUEST_TASKS) : List Guests → List (Fin GUEST_TASKS)
  | [] => []
  | w :: ws => w.nextGuest cur :: selections (w.nextGuest cur) ws

/-! ## Fairness -/

theorem nextGuestFrom_eq (w : Guests) (cur : Fin GUEST_TASKS) (m step : ℕ)
    (h : step + m = GUEST_TASKS + 1) :
    w.nextGuestFrom cur step =
      (((List.range' step m).map fun k => cur + Fin.ofNat GUEST_TASKS k).find?
        w.selectable).getD 0 := by
  induction m generalizing step with
  | zero =>
    rw [Guests.nextGuestFrom.eq_def, if_neg (by omega)]
    rfl
  | succ m ih =>
    rw [Guests.nextGuestFrom.eq_def, if_pos (by omega), List.range'_succ, List.map_cons,
      List.find?_cons, ih (step + 1) (by omega)]
    dsimp only
    cases hsel : w.selectable (cur + Fin.ofNat GUEST_TASKS step) <;> simp

theorem nextGuest_eq (w : Guests) (cur : Fin GUEST_TASKS) :
    w.nextGuest cur = nextFrom 0 w.selectable cur :=
  nextGuestFrom_eq w cur GUEST_TASKS 1 rfl

theorem selections_eq (cur : Fin GUEST_TASKS) (ws : List Guests) :
    selections cur ws = selected 0 cur (ws.map Guests.selectable) := by
  induction ws generalizing cur with
  | nil => rfl
  | cons w ws ih => rw [selections, List.map_cons, selected, ih, nextGuest_eq]

/-- **The selection is fair.** Over every run of selections, with the tasks changed at will between
them, a task that may run at each of them comes after at most `GUEST_TASKS - 1` others; and a task
other than the root is selected only if it may run. -/
theorem nextGuest_fair :
    (∀ cur ws i, (∀ w ∈ ws, Guests.selectable w i) →
      ((selections cur ws).takeWhile (· ≠ i)).length ≤ GUEST_TASKS - 1 ∧
        (GUEST_TASKS ≤ ws.length → i ∈ selections cur ws)) ∧
      ∀ w cur, Guests.nextGuest w cur ≠ 0 → w.selectable (w.nextGuest cur) := by
  constructor
  · intro cur ws i h
    have hall : ∀ p ∈ ws.map Guests.selectable, p i := by
      intro p hp
      obtain ⟨w, hw, rfl⟩ := List.mem_map.mp hp
      exact h w hw
    have hwait : ((selected 0 cur (ws.map Guests.selectable)).takeWhile (· ≠ i)).length ≤
        dist cur i :=
      length_takeWhile_selected_le _ hall
    have hdist := dist_lt cur i
    rw [selections_eq]
    refine ⟨by omega, fun hlen => mem_selected _ hall ?_⟩
    rwa [List.length_map]
  · intro w cur h
    rw [nextGuest_eq] at h ⊢
    exact nextFrom_passes h

end ZealBringup.Zc
