import ZealBringup.Pi4.RingOrder

/-!
# Recovery from a stall

`pi4_usb_bus_stall_plan`, `pi4_usb_bus_stall_command` and `pi4_usb_bus_stall_run` of `pi4_usb_bus.h`, over
the producer of `pi4_xhci_dma_ring_enqueue`.

* `stallPlan`, `stallCommand`, `stallRun` — the functions.
* `HistoryReach` — the producers of a ring and the TRBs that are outstanding.
* `HistoryReach.numbered` — TRBs are numbered over all laps, and the producer is behind the outstanding ones.
* `stall_recovery` — the plan is made for one outstanding TRB that stalled, and the controller then fetches
  what is enqueued next.
-/

namespace ZealBringup.Pi4

open Stores
open ZealBringup.Usb (trbType)

/-! ## The plan -/

/-- `PI4_XHCI_DMA_MAX_SLOTS` -/
def maxSlots : ℕ := 6

/-- `PI4_XHCI_DMA_BOT_MAX_BLOCK_BYTES` -/
def botMaxBlockBytes : ℕ := 2048

/-- `struct pi4_usb_bus_stall` -/
structure StallPlan where
  ringBus : ℕ
  failed : ℕ
  dequeue : ℕ
  slot : ℕ
  dci : ℕ
  endpoint : ℕ
  requested : ℕ
  actual : ℕ
  next : ℕ
  cycle : ℕ
  status : ℕ
  control : ℕ
  deriving DecidableEq

/-- `pi4_usb_bus_stall_plan`: the plan that is written, or none when it returns 0. -/
def stallPlan (event : Event) (ringBus index slot dci requested trbCycle : ℕ)
    (producer : Option Producer) : Option StallPlan :=
  if ringBus % 64 ≠ 0 ∨ ringBus > 2 ^ 64 - 1 - 4096 ∨ index ≥ 255 ∨ slot = 0 ∨ slot > maxSlots ∨ dci < 3 ∨
      dci > 31 ∨ dci % 2 = 0 ∨ requested = 0 ∨ requested > botMaxBlockBytes ∨ trbCycle > 1 ∨
      event.parameter ≠ ringBus + index * 16 ∨ event.status / 2 ^ 24 ≠ 6 ∨
      event.status % 2 ^ 24 > requested ∨ event.control / 4 % 2 = 1 ∨
      trbType event.control ≠ trbTypeTransferEvt ∨ event.control / 2 ^ 24 ≠ slot ∨
      event.control / 2 ^ 16 % 32 ≠ dci then none
  else
    let next := if index + 1 = 255 then 0 else index + 1
    let cycle := if index + 1 = 255 then trbCycle ^^^ 1 else trbCycle
    let plan : StallPlan :=
      ⟨ringBus, event.parameter, ringBus + next * 16, slot, dci, 0x80 ||| dci / 2, requested,
        requested - event.status % 2 ^ 24, next, cycle, event.status, event.control⟩
    match producer with
    | some p => if p.index ≠ next ∨ p.cycle ≠ cycle then none else some plan
    | none => if trbCycle ≠ 1 ∨ index ≥ 254 then none else some plan

/-- `pi4_usb_bus_stall_command`, where the words are aligned: Reset Endpoint is step 0 and Set TR Dequeue
Pointer step 2. -/
def stallCommand (p : StallPlan) (step : ℕ) : Option Trb :=
  if p.slot = 0 ∨ p.slot > maxSlots ∨ p.dci < 3 ∨ p.dci > 31 ∨ p.dci % 2 = 0 ∨ p.cycle > 1 ∨
      p.dequeue % 16 ≠ 0 ∨ (step ≠ 0 ∧ step ≠ 2) then none
  else
    some ⟨if step = 0 then 0 else (p.dequeue ||| p.cycle) % 2 ^ 32,
      if step = 0 then 0 else p.dequeue / 2 ^ 32, 0,
      (if step = 0 then 14 else 16) <<< 10 ||| p.dci <<< 16 ||| p.slot <<< 24⟩

/-- What Set TR Dequeue Pointer gives the controller. -/
def setDequeue (words : Trb) : Consumer := ⟨words.w0 / 16 * 16 + words.w1 * 2 ^ 32, words.w0 % 2⟩

/-! ## The run -/

/-- What a recovery did: whether it went through, `*stage`, the state that its steps left, and the steps
that were issued with their results. -/
structure StallRun (S : Type*) where
  ok : Bool
  stage : ℕ
  state : S
  issued : List (ℕ × Bool)

/-- The loop of `pi4_usb_bus_stall_run` over the steps that are left. -/
def stallSteps {S : Type*} (action : S → ℕ → StallPlan → S × Bool) (p : StallPlan) :
    List ℕ → S → StallRun S
  | [], s => ⟨true, 4, s, []⟩
  | step :: steps, s =>
    if (action s step p).2 then
      let r := stallSteps action p steps (action s step p).1
      { r with issued := (step, true) :: r.issued }
    else ⟨false, step + 1, (action s step p).1, [(step, false)]⟩

/-- `pi4_usb_bus_stall_run` -/
def stallRun {S : Type*} (action : S → ℕ → StallPlan → S × Bool) (p : StallPlan) (s : S) : StallRun S :=
  stallSteps action p [0, 1, 2] s

/-! ## Histories -/

/-- The producer of a ring, and the TRBs that are not consumed, the oldest first: index and cycle. -/
structure RingHistory where
  producer : Producer
  outstanding : List (ℕ × ℕ)

/-- A TRB that is enqueued. -/
def RingHistory.enqueue (ring bus : ℕ) (s : RingHistory) (words : Trb) : RingHistory :=
  ⟨(ringEnqueue ring bus s.producer words).2.1,
    s.outstanding ++ [(s.producer.index, s.producer.cycle)]⟩

/-- The histories of a ring: TRBs are consumed in order, and a slot is reused when its TRB was consumed. -/
inductive HistoryReach (ring bus : ℕ) : RingHistory → Prop where
  | start (start cycle : ℕ) (hstart : start < ringLink) (hcycle : cycle ≤ 1) :
      HistoryReach ring bus ⟨⟨start, cycle, 0⟩, []⟩
  | enqueue {s : RingHistory} (words : Trb) (h : HistoryReach ring bus s)
      (hok : (ringEnqueue ring bus s.producer words).1 = 0)
      (hfree : ∀ slot ∈ s.outstanding, slot.1 ≠ s.producer.index) :
      HistoryReach ring bus (s.enqueue ring bus words)
  | consume {s : RingHistory} {oldest : ℕ × ℕ} {rest : List (ℕ × ℕ)} (h : HistoryReach ring bus s)
      (houtstanding : s.outstanding = oldest :: rest) : HistoryReach ring bus ⟨s.producer, rest⟩

/-- A data-IN TRB that a recovery is made for: its ring, slot, endpoint and length. -/
structure DataIn (bus slot dci requested : ℕ) : Prop where
  aligned : bus % 64 = 0
  bounded : bus ≤ 2 ^ 64 - 1 - 4096
  slot : 1 ≤ slot ∧ slot ≤ maxSlots
  endpoint : 3 ≤ dci ∧ dci ≤ 31 ∧ dci % 2 = 1
  requested : 1 ≤ requested ∧ requested ≤ botMaxBlockBytes

/-- A stall event for a TRB. -/
structure StallEvent (event : Event) (trb slot dci requested : ℕ) : Prop where
  parameter : event.parameter = trb
  code : event.status / 2 ^ 24 = 6
  residue : event.status % 2 ^ 24 ≤ requested
  data : event.control / 4 % 2 = 0
  type : trbType event.control = trbTypeTransferEvt
  slot : event.control / 2 ^ 24 = slot
  endpoint : event.control / 2 ^ 16 % 32 = dci

/-- A plan that resumes at the TRB that is enqueued next. -/
structure Resumes (bus : ℕ) (event : Event) (requested : ℕ) (producer : Producer) (p : StallPlan) :
    Prop where
  actual : p.actual = requested - event.status % 2 ^ 24
  command : ∃ words, stallCommand p 2 = some words ∧
    setDequeue words = ⟨bus + 16 * producer.index, producer.cycle⟩ ∧
    words.w3 / 2 ^ 24 = p.slot ∧ words.w3 / 2 ^ 16 % 256 = p.dci ∧ trbType words.w3 = 16
  fetch : ∀ ring mem trb, (ringEnqueue ring bus producer trb).1 = 0 →
    (ringEnqueue ring bus producer trb).2.2.2 = some producer.index ∧
      (Consumer.look bus (apply mem (ringEnqueue ring bus producer trb).2.2.1)
        ⟨bus + 16 * producer.index, producer.cycle⟩).2 = some (trb.owned producer.cycle)

/-- A run whose steps stop at the first that fails. -/
structure StopsAtFailure {S : Type*} (r : StallRun S) : Prop where
  order : r.issued.map Prod.fst <+: [0, 1, 2]
  stops : ∀ call ∈ r.issued.dropLast, call.2 = true
  ok : r.ok = true ↔ r.issued = [(0, true), (1, true), (2, true)]
  stage : r.stage = if r.ok then 4 else r.issued.length

/-! ## The outstanding TRBs -/

variable {ring bus : ℕ} {s : RingHistory} {p : Producer}

/-- The outstanding TRBs have successive numbers, and the producer has the next one. -/
def Numbered (s : RingHistory) (n : ℕ) : Prop :=
  s.outstanding = (List.range s.outstanding.length).map (fun k => ringPlace (n + k)) ∧
    s.producer.At (n + s.outstanding.length) ∧ s.outstanding.length ≤ ringLink

theorem Numbered.enqueue {n : ℕ} (h : Numbered s n) {words : Trb}
    (hok : (ringEnqueue ring bus s.producer words).1 = 0)
    (hfree : ∀ slot ∈ s.outstanding, slot.1 ≠ s.producer.index) :
    Numbered (s.enqueue ring bus words) n := by
  obtain ⟨hslots, hat, hroom⟩ := h
  obtain ⟨-, -, hcall⟩ := ringEnqueue_accepted hok
  have hlinkIndex := ringLink_eq
  -- With all slots taken the producer would be at the oldest one.
  have hless : s.outstanding.length < ringLink := by
    refine lt_of_le_of_ne hroom (fun hfull => ?_)
    have holdest : ringPlace n ∈ s.outstanding := by
      rw [hslots]
      exact List.mem_map.mpr ⟨0, List.mem_range.mpr (by omega), rfl⟩
    refine hfree _ holdest ?_
    rw [hat.eq.1, hfull]
    show n % 255 = (n + 255) % 255
    omega
  unfold RingHistory.enqueue Numbered
  dsimp only
  rw [hcall, List.length_append, List.length_singleton]
  refine ⟨?_, hat.advance, hless⟩
  rw [List.range_succ, List.map_append, ← hslots]
  exact congrArg (fun slot => s.outstanding ++ [slot]) hat

theorem Numbered.consume {n : ℕ} (h : Numbered s n) {oldest : ℕ × ℕ} {rest : List (ℕ × ℕ)}
    (houtstanding : s.outstanding = oldest :: rest) : Numbered ⟨s.producer, rest⟩ (n + 1) := by
  obtain ⟨hslots, hat, hroom⟩ := h
  rw [houtstanding, List.length_cons] at hslots hat hroom
  refine ⟨?_, ?_, by dsimp only; omega⟩
  · rw [List.range_succ_eq_map, List.map_cons] at hslots
    have htail := (List.cons.inj hslots).2
    rw [List.map_map] at htail
    dsimp only
    refine htail.trans (List.map_congr_left fun k _ => ?_)
    show ringPlace (n + (k + 1)) = ringPlace (n + 1 + k)
    rw [Nat.add_assoc, Nat.add_comm 1]
  · dsimp only
    rwa [Nat.add_assoc, Nat.add_comm 1]

/-- **Every history** is numbered. -/
theorem HistoryReach.numbered (h : HistoryReach ring bus s) : ∃ n, Numbered s n := by
  induction h with
  | start start cycle hstart hcycle =>
    have hlinkIndex := ringLink_eq
    refine ⟨start + 255 * cycle, rfl, ?_, Nat.zero_le _⟩
    refine Prod.ext ?_ ?_
    · show start = (start + 255 * cycle) % 255
      omega
    · show cycle = (start + 255 * cycle) / 255 % 2
      omega
  | enqueue words _ hok hfree ih =>
    obtain ⟨n, hn⟩ := ih
    exact ⟨n, hn.enqueue hok hfree⟩
  | consume _ houtstanding ih =>
    obtain ⟨n, hn⟩ := ih
    exact ⟨n + 1, hn.consume houtstanding⟩

/-- The producer is one TRB behind the oldest outstanding one if no other is outstanding. -/
theorem HistoryReach.single (h : HistoryReach ring bus s) {index cycle : ℕ} {rest : List (ℕ × ℕ)}
    (houtstanding : s.outstanding = (index, cycle) :: rest) :
    index < 255 ∧ cycle ≤ 1 ∧ ((s.producer.index = if index + 1 = 255 then 0 else index + 1) ∧
      (s.producer.cycle = if index + 1 = 255 then cycle ^^^ 1 else cycle) ↔ rest = []) := by
  obtain ⟨n, hslots, hat, hroom⟩ := h.numbered
  have hlinkIndex := ringLink_eq
  rw [houtstanding, List.length_cons] at hslots hat hroom
  have hhead : (index, cycle) = ringPlace n := by
    rw [List.range_succ_eq_map, List.map_cons] at hslots
    exact (List.cons.inj hslots).1
  have hfirst : Producer.At ⟨index, cycle, 0⟩ n := hhead
  have hnext := hfirst.advance
  unfold Producer.advance at hnext
  rw [hlinkIndex] at hnext
  have hindex : index = n % 255 := hfirst.eq.1
  have hcycle : cycle = n / 255 % 2 := hfirst.eq.2
  refine ⟨by omega, by omega, ?_⟩
  have hplace : (s.producer.index = if index + 1 = 255 then 0 else index + 1) ∧
      (s.producer.cycle = if index + 1 = 255 then cycle ^^^ 1 else cycle) ↔
        s.producer.index = (n + 1) % 255 ∧ s.producer.cycle = (n + 1) / 255 % 2 := by
    split_ifs at hnext ⊢
    · rw [← hnext.eq.1, ← hnext.eq.2]
    · rw [← hnext.eq.1, ← hnext.eq.2]
  rw [hplace, hat.eq.1, hat.eq.2, ← List.length_eq_zero_iff]
  omega

/-! ## The plan -/

variable {event : Event} {index slot dci requested cycle : ℕ}

/-- The plan for a TRB. -/
def planFor (event : Event) (bus index slot dci requested cycle : ℕ) : StallPlan :=
  ⟨bus, event.parameter, bus + (if index + 1 = 255 then 0 else index + 1) * 16, slot, dci,
    0x80 ||| dci / 2, requested, requested - event.status % 2 ^ 24,
    if index + 1 = 255 then 0 else index + 1, if index + 1 = 255 then cycle ^^^ 1 else cycle,
    event.status, event.control⟩

/-- A plan is for a data-IN TRB and a stall event that names it. -/
theorem stallPlan_eq (hindex : index < 255) (hcycle : cycle ≤ 1) (producer : Option Producer)
    (plan : StallPlan) :
    stallPlan event bus index slot dci requested cycle producer = some plan ↔
      DataIn bus slot dci requested ∧ StallEvent event (bus + 16 * index) slot dci requested ∧
        (match producer with
          | some p => (p.index = if index + 1 = 255 then 0 else index + 1) ∧
              (p.cycle = if index + 1 = 255 then cycle ^^^ 1 else cycle)
          | none => cycle = 1 ∧ index < 254) ∧
        planFor event bus index slot dci requested cycle = plan := by
  unfold stallPlan
  split
  · rename_i hgate
    refine ⟨fun hnone => (Option.some_ne_none plan hnone.symm).elim, ?_⟩
    rintro ⟨hdata, hevent, -, -⟩
    obtain ⟨h1, h2, h3, h4, h5⟩ := hdata
    obtain ⟨e1, e2, e3, e4, e5, e6, e7⟩ := hevent
    omega
  · rename_i hgate
    simp only [not_or, not_not] at hgate
    obtain ⟨h1, h2, -, h4, h5, h6, h7, h8, h9, h10, -, e1, e2, e3, e4, e5, e6, e7⟩ := hgate
    have hdata : DataIn bus slot dci requested :=
      ⟨h1, by omega, ⟨by omega, by omega⟩, ⟨by omega, by omega, by omega⟩, ⟨by omega, by omega⟩⟩
    have hevent : StallEvent event (bus + 16 * index) slot dci requested :=
      ⟨by omega, e2, by omega, by omega, e5, e6, e7⟩
    rw [and_iff_right hdata, and_iff_right hevent]
    cases producer with
    | some p =>
      dsimp only
      by_cases hsame : (p.index = if index + 1 = 255 then 0 else index + 1) ∧
          (p.cycle = if index + 1 = 255 then cycle ^^^ 1 else cycle)
      · rw [if_neg (not_or.mpr ⟨not_not.mpr hsame.1, not_not.mpr hsame.2⟩), and_iff_right hsame,
          Option.some_inj]
        rfl
      · rw [if_pos (not_and_or.mp hsame)]
        exact ⟨fun hnone => (Option.some_ne_none plan hnone.symm).elim, fun h => (hsame h.1).elim⟩
    | none =>
      dsimp only
      split
      · refine ⟨fun hnone => (Option.some_ne_none plan hnone.symm).elim, ?_⟩
        rintro ⟨⟨hc, hi⟩, -⟩
        omega
      · have hfirst : cycle = 1 ∧ index < 254 := by omega
        rw [and_iff_right hfirst, Option.some_inj]
        rfl

/-! ## The command -/

/-- The words of a command: the pointer with the cycle below it, and the endpoint. -/
theorem stallCommand_words (hdata : DataIn bus slot dci requested) {next cycle : ℕ} (hcycle : cycle ≤ 1)
    (plan : StallPlan) (hslot : plan.slot = slot) (hdci : plan.dci = dci)
    (hdequeue : plan.dequeue = bus + next * 16) (hplan : plan.cycle = cycle) :
    ∃ words, stallCommand plan 2 = some words ∧ setDequeue words = ⟨bus + 16 * next, cycle⟩ ∧
      words.w3 / 2 ^ 24 = plan.slot ∧ words.w3 / 2 ^ 16 % 256 = plan.dci ∧ trbType words.w3 = 16 := by
  obtain ⟨h1, h2, ⟨h4, h5⟩, ⟨h6, h7, h8⟩, h9, h10⟩ := hdata
  have hsix : maxSlots = 6 := rfl
  have hor : plan.dequeue ||| plan.cycle = plan.dequeue + plan.cycle := by
    have hpointer : plan.dequeue = 2 ^ 4 * (plan.dequeue / 16) := by omega
    have hlow := Nat.two_pow_add_eq_or_of_lt (i := 4) (b := plan.cycle) (by omega) (plan.dequeue / 16)
    rwa [← hpointer, eq_comm] at hlow
  have hw3 : (16 : ℕ) <<< 10 ||| plan.dci <<< 16 ||| plan.slot <<< 24 =
      plan.slot * 2 ^ 24 + plan.dci * 2 ^ 16 + 16384 := by
    have hlow := Nat.shiftLeft_add_eq_or_of_lt (i := 16) (b := 16384) (by decide) plan.dci
    have hhigh := Nat.shiftLeft_add_eq_or_of_lt (i := 24) (b := plan.dci <<< 16 + 16384)
      (by rw [Nat.shiftLeft_eq]; omega) plan.slot
    have hconst : (16 : ℕ) <<< 10 = 16384 := by decide
    calc (16 : ℕ) <<< 10 ||| plan.dci <<< 16 ||| plan.slot <<< 24
        = plan.slot <<< 24 ||| (plan.dci <<< 16 ||| 16384) := by
          rw [Nat.or_comm _ (plan.slot <<< 24), Nat.or_comm _ (plan.dci <<< 16), hconst]
      _ = plan.slot <<< 24 + (plan.dci <<< 16 + 16384) := by rw [← hlow, ← hhigh]
      _ = plan.slot * 2 ^ 24 + plan.dci * 2 ^ 16 + 16384 := by
          rw [Nat.shiftLeft_eq, Nat.shiftLeft_eq, Nat.add_assoc]
  refine ⟨_, if_neg (by omega), ?_, ?_, ?_, ?_⟩
  · unfold setDequeue
    dsimp only
    rw [if_neg (by decide), if_neg (by decide), hor, hdequeue, hplan]
    have hpointer : (bus + next * 16 + cycle) % 2 ^ 32 / 16 * 16 +
        (bus + next * 16) / 2 ^ 32 * 2 ^ 32 = bus + 16 * next := by omega
    have hbit : (bus + next * 16 + cycle) % 2 ^ 32 % 2 = cycle := by omega
    rw [hpointer, hbit]
  · dsimp only
    rw [if_neg (by decide), hw3]
    omega
  · dsimp only
    rw [if_neg (by decide), hw3]
    omega
  · dsimp only
    rw [if_neg (by decide), hw3]
    unfold trbType
    omega

/-- What the controller fetches where the producer is. -/
theorem fetch_enqueued (mem : ℕ → ℕ) (trb : Trb) (h : (ringEnqueue ring bus p trb).1 = 0) :
    (ringEnqueue ring bus p trb).2.2.2 = some p.index ∧
      (Consumer.look bus (apply mem (ringEnqueue ring bus p trb).2.2.1)
        ⟨bus + 16 * p.index, p.cycle⟩).2 = some (trb.owned p.cycle) := by
  obtain ⟨hcycle, htype, hcall⟩ := ringEnqueue_accepted h
  rw [hcall]
  refine ⟨rfl, ?_⟩
  dsimp only
  rw [apply_append, look_trb hcycle htype (trbStores_at ..)]

/-! ## The run -/

theorem stallSteps_issued {S : Type*} (action : S → ℕ → StallPlan → S × Bool) (p : StallPlan)
    (steps : List ℕ) (s : S) :
    ((stallSteps action p steps s).issued.map Prod.fst <+: steps) ∧
      (∀ call ∈ (stallSteps action p steps s).issued.dropLast, call.2 = true) ∧
      ((stallSteps action p steps s).ok = true ↔
        (stallSteps action p steps s).issued = steps.map fun step => (step, true)) := by
  induction steps generalizing s with
  | nil =>
    refine ⟨List.prefix_rfl, ?_, iff_of_true rfl rfl⟩
    intro call hcall
    cases hcall
  | cons step steps ih =>
    obtain ⟨horder, hstops, hok⟩ := ih (action s step p).1
    unfold stallSteps
    split
    · dsimp only
      refine ⟨?_, ?_, ?_⟩
      · rw [List.map_cons]
        exact List.prefix_cons_inj step |>.mpr horder
      · intro call hcall
        cases hissued : (stallSteps action p steps (action s step p).1).issued with
        | nil =>
          rw [hissued] at hcall
          cases hcall
        | cons c cs =>
          rw [hissued, List.dropLast_cons_cons] at hcall
          rcases List.mem_cons.mp hcall with rfl | hcall
          · rfl
          · exact hstops call (by rwa [hissued])
      · rw [hok, List.map_cons, List.cons_inj_right]
    · dsimp only
      refine ⟨?_, ?_, ?_⟩
      · exact List.prefix_cons_inj step |>.mpr List.nil_prefix
      · intro call hcall
        cases hcall
      · refine iff_of_false (by decide) (fun heq => ?_)
        rw [List.map_cons] at heq
        exact Bool.false_ne_true (congrArg Prod.snd (List.cons.inj heq).1)

/-- The stage is the step that failed, or behind the last one. -/
theorem stallRun_stage {S : Type*} (action : S → ℕ → StallPlan → S × Bool) (p : StallPlan) (s : S) :
    (stallRun action p s).stage =
      if (stallRun action p s).ok then 4 else (stallRun action p s).issued.length := by
  unfold stallRun
  simp only [stallSteps]
  split
  · split
    · split <;> rfl
    · rfl
  · rfl

theorem stallRun_stops {S : Type*} (action : S → ℕ → StallPlan → S × Bool) (p : StallPlan) (s : S) :
    StopsAtFailure (stallRun action p s) := by
  obtain ⟨horder, hstops, hok⟩ := stallSteps_issued action p [0, 1, 2] s
  exact ⟨horder, hstops, hok, stallRun_stage action p s⟩

/-! ## Recovery -/

/-- **Recovery resumes at the right TRB**: a plan is made exactly for a stall of the one TRB that is
outstanding, with what was transferred, and the controller then fetches what is enqueued next; without a
producer it is the plan of a ring that has not wrapped; and a run stops at the first step that fails. -/
theorem stall_recovery :
    (∀ ring bus s, HistoryReach ring bus s → ∀ index cycle rest, s.outstanding = (index, cycle) :: rest →
      ∀ event slot dci requested,
        ((stallPlan event bus index slot dci requested cycle (some s.producer)).isSome ↔
          DataIn bus slot dci requested ∧
            StallEvent event (bus + 16 * index) slot dci requested ∧ rest = []) ∧
        (∀ plan, stallPlan event bus index slot dci requested cycle (some s.producer) = some plan →
          Resumes bus event requested s.producer plan) ∧
        stallPlan event bus index slot dci requested cycle none =
          if cycle = 1 ∧ index < 254 then
            stallPlan event bus index slot dci requested cycle
              (some (Producer.advance ⟨index, cycle, 0⟩))
          else none) ∧
      ∀ (S : Type) (action : S → ℕ → StallPlan → S × Bool) p s, StopsAtFailure (stallRun action p s) := by
  refine ⟨?_, fun S action p s => stallRun_stops action p s⟩
  intro ring bus s h index cycle rest houtstanding event slot dci requested
  obtain ⟨hindex, hcycle, hsingle⟩ := h.single houtstanding
  have hlinkIndex := ringLink_eq
  refine ⟨?_, ?_, ?_⟩
  · rw [Option.isSome_iff_exists, ← hsingle]
    constructor
    · rintro ⟨plan, hplan⟩
      obtain ⟨hdata, hevent, hproducer, -⟩ := (stallPlan_eq hindex hcycle _ _).mp hplan
      exact ⟨hdata, hevent, hproducer⟩
    · rintro ⟨hdata, hevent, hproducer⟩
      exact ⟨_, (stallPlan_eq hindex hcycle _ _).mpr ⟨hdata, hevent, hproducer, rfl⟩⟩
  · intro plan hplan
    obtain ⟨hdata, hevent, ⟨hnext, hdcs⟩, rfl⟩ := (stallPlan_eq hindex hcycle _ _).mp hplan
    have hdcsBound : s.producer.cycle ≤ 1 := by
      rw [hdcs]
      split
      · exact cycle_xor_le hcycle
      · exact hcycle
    refine ⟨rfl, ?_, fun ring' mem trb hok => fetch_enqueued mem trb hok⟩
    refine stallCommand_words hdata hdcsBound _ rfl rfl ?_ ?_
    · rw [hnext]
      rfl
    · rw [hdcs]
      rfl
  · have hadvance : (Producer.advance ⟨index, cycle, 0⟩).index =
        (if index + 1 = 255 then 0 else index + 1) ∧
        (Producer.advance ⟨index, cycle, 0⟩).cycle =
          (if index + 1 = 255 then cycle ^^^ 1 else cycle) := by
      unfold Producer.advance
      rw [hlinkIndex]
      split <;> exact ⟨rfl, rfl⟩
    refine Option.ext (fun plan => ?_)
    split
    · rename_i hfresh
      rw [stallPlan_eq hindex hcycle, stallPlan_eq hindex hcycle]
      dsimp only
      rw [and_iff_right hfresh, and_iff_right hadvance]
    · rename_i hold
      rw [stallPlan_eq hindex hcycle]
      exact iff_of_false (fun h => hold h.2.2.1) (Option.some_ne_none plan ∘ Eq.symm)

/-- A stall of the TRB before the Link: the plan is for the first TRB of the next lap. -/
theorem stall_recovery_wrap :
    let s : RingHistory := RingHistory.enqueue 64 0x40404a000 ⟨⟨254, 1, 0⟩, []⟩ ⟨0, 0, 0, 1024⟩
    ((stallPlan ⟨0x40404afe0, 0x06000003, 0x04038001⟩ 0x40404a000 254 4 3 8 1
        (some s.producer)).isSome = true) ∧
      s.producer.index = 0 ∧ s.producer.cycle = 0 := by
  have hreach : HistoryReach 64 0x40404a000
      (RingHistory.enqueue 64 0x40404a000 ⟨⟨254, 1, 0⟩, []⟩ ⟨0, 0, 0, 1024⟩) :=
    .enqueue _ (.start 254 1 (by decide) le_rfl) (by decide) (fun _ h => by cases h)
  refine ⟨((stall_recovery.1 _ _ _ hreach 254 1 [] rfl ⟨0x40404afe0, 0x06000003, 0x04038001⟩ 4 3 8).1).mpr
    ⟨⟨by decide, by decide, by decide, by decide, by decide⟩,
      ⟨by decide, by decide, by decide, by decide, by decide, by decide, by decide⟩, rfl⟩, rfl, rfl⟩

end ZealBringup.Pi4
