import ZealBringup.Pi4.RingOrder

/-!
# The control transfers of the bus

`pi4_usb_bus_control_td` of `pi4_usb_bus.h` with the stage seeds of `pi4_xhci_dma_probe.h`, down to the
single stores of words, on a fresh ring and with a controller that may look at any time.

* `controlTd` — the function: what it returns, the next index, its stores in order and the status.
* `TdReach` — the states of a ring that is used for control transfers only.
* `TdReach.safe` — a transfer is seen when all of it is in the ring, and then as it was given.
-/

namespace ZealBringup.Pi4

open Stores
open ZealBringup.Usb (trbType)

/-! ## The stages -/

/-- `pi4_xhci_dma_setup_stage_seed`, where the words are aligned -/
def setupStageSeed (requestType request value index length transferType cycle : ℕ) : Option Trb :=
  if requestType > 0xff ∨ request > 0xff ∨ value > 0xffff ∨ index > 0xffff ∨ length > 0xffff ∨
      (transferType ≠ 0 ∧ transferType ≠ 2 ∧ transferType ≠ 3) ∨
      transferType = 0 ∧ length ≠ 0 ∨ transferType ≠ 0 ∧ length = 0 ∨ cycle > 1 then none
  else
    some ⟨requestType ||| request <<< 8 ||| value <<< 16, index ||| length <<< 16, 8,
      2 <<< 10 ||| transferType <<< 16 ||| 1 <<< 6 ||| cycle⟩

/-- `pi4_xhci_dma_data_stage_seed`, where the words are aligned -/
def dataStageSeed (bufferBus length cycle : ℕ) : Option Trb :=
  if bufferBus % 16 ≠ 0 ∨ length = 0 ∨ length > 0x1ffff ∨ cycle > 1 then none
  else some ⟨bufferBus % 2 ^ 32, bufferBus / 2 ^ 32 % 2 ^ 32, length, 3 <<< 10 ||| 1 <<< 16 ||| cycle⟩

/-- `pi4_xhci_dma_status_stage_seed_direction`, where the words are aligned -/
def statusStageSeedDirection (directionIn cycle : ℕ) : Option Trb :=
  if directionIn > 1 ∨ cycle > 1 then none
  else some ⟨0, 0, 0, 4 <<< 10 ||| directionIn <<< 16 ||| 1 <<< 5 ||| cycle⟩

/-! ## The transfer -/

/-- The first pass of the stores: all words, with the cycle bits clear. -/
def tdWords (i : ℕ) : List Trb → List WordStore
  | [] => []
  | t :: td => [(4 * i, t.w0), (4 * i + 1, t.w1), (4 * i + 2, t.w2), (4 * i + 3, t.w3 / 2 * 2)] ++
      tdWords (i + 1) td

/-- The second pass: the cycle bits, from the last TRB to the first. -/
def tdPublish (i : ℕ) : List Trb → List WordStore
  | [] => []
  | t :: td => tdPublish (i + 1) td ++ [(4 * i + 3, t.w3)]

/-- The arguments of a control transfer. -/
structure ControlRequest where
  rt : ℕ
  request : ℕ
  value : ℕ
  interface : ℕ
  bufferBus : ℕ
  length : ℕ

/-- The words of a control transfer. -/
def ControlRequest.words (r : ControlRequest) : Option (List Trb) :=
  if r.length = 0 then do
    let setup ← setupStageSeed r.rt r.request r.value r.interface r.length 0 1
    let status ← statusStageSeedDirection 1 1
    pure [setup, status]
  else do
    let setup ← setupStageSeed r.rt r.request r.value r.interface r.length 3 1
    let data ← dataStageSeed r.bufferBus r.length 1
    let status ← statusStageSeedDirection 0 1
    pure [setup, data, status]

/-- `length ? 3u : 2u` -/
def ControlRequest.count (r : ControlRequest) : ℕ := if r.length = 0 then 2 else 3

/-- `pi4_usb_bus_control_td`: what it returns, `*next`, the TRBs with their stores, and `*status_bus`. -/
def controlTd (ring ringBus next : ℕ) (r : ControlRequest) :
    ℕ × ℕ × List Trb × List WordStore × Option ℕ :=
  if ring = 0 ∨ ring % 64 ≠ 0 ∨ ringBus % 64 ≠ 0 ∨ next > 254 - r.count ∨ r.length > 4096 ∨
      (r.length ≠ 0 ∧ (r.rt / 128 % 2 = 0 ∨ r.bufferBus = 0 ∨ r.bufferBus % 64 ≠ 0)) then
    (0, next, [], [], none)
  else
    match r.words with
    | none => (0, next, [], [], none)
    | some td => (1, next + r.count, td, tdWords next td ++ tdPublish next td,
        some ((ringBus + (next + r.count - 1) * 16) % 2 ^ 64))

/-! ## Runs -/

/-- A control ring between its two parties: the stores that are still to come, the transfers that were
put and the TRBs that were executed. -/
structure TdState where
  mem : ℕ → ℕ
  next : ℕ
  pending : List WordStore
  consumer : Consumer
  sent : List (List Trb)
  seen : List Trb

/-- A call of `pi4_usb_bus_control_td`, with its stores to come. -/
def TdState.call (ring bus : ℕ) (s : TdState) (r : ControlRequest) : TdState :=
  let result := controlTd ring bus s.next r
  { s with
    next := result.2.1
    pending := result.2.2.2.1
    sent := if result.1 = 0 then s.sent else s.sent ++ [result.2.2.1] }

/-- A store that was to come. -/
def TdState.store (s : TdState) (st : WordStore) (rest : List WordStore) : TdState :=
  { s with mem := Function.update s.mem st.1 st.2, pending := rest }

/-- A look of the controller. -/
def TdState.look (bus : ℕ) (s : TdState) : TdState :=
  { s with
    consumer := (s.consumer.look bus s.mem).1
    seen := s.seen ++ (s.consumer.look bus s.mem).2.toList }

/-- A fresh ring, with the controller at its first TRB. -/
def tdStart (bus : ℕ) (mem : ℕ → ℕ) : TdState := ⟨mem, 0, [], ⟨bus, 1⟩, [], []⟩

/-- The states of a control ring: a call may come when no store is left, a look at any time. -/
inductive TdReach (ring bus : ℕ) : TdState → Prop where
  | start (mem : ℕ → ℕ) (hfresh : ∀ i < ringLink, mem (4 * i + 3) % 2 = 0) :
      TdReach ring bus (tdStart bus mem)
  | call {s : TdState} (r : ControlRequest) (h : TdReach ring bus s) (hidle : s.pending = []) :
      TdReach ring bus (s.call ring bus r)
  | store {s : TdState} {st : WordStore} {rest : List WordStore} (h : TdReach ring bus s)
      (hpending : s.pending = st :: rest) : TdReach ring bus (s.store st rest)
  | look {s : TdState} (h : TdReach ring bus s) : TdReach ring bus (s.look bus)

/-- The stages of a transfer, each owned by the controller. -/
def Stages (td : List Trb) : Prop :=
  (td.map (fun t => trbType t.w3) = [2, 4] ∨ td.map (fun t => trbType t.w3) = [2, 3, 4]) ∧
    ∀ t ∈ td, t.w3 % 2 = 1

/-- **What the controller gets to see** of control transfers: it executes them in order and word by word;
where the first TRB of a transfer is owned, all of the transfer is in the ring; when no store is to come
everything is there; and a call that returns 0 changes nothing. -/
structure TdSafe (ring bus : ℕ) (s : TdState) : Prop where
  order : s.seen <+: s.sent.flatten
  valid : ∀ td ∈ s.sent, Stages td
  complete : ∀ pre td post, s.sent = pre ++ td :: post → s.mem (4 * pre.flatten.length + 3) % 2 = 1 →
    ∀ k, (hk : k < td.length) → trbAt s.mem (pre.flatten.length + k) = td[k]
  published : s.pending = [] → ∀ k, (hk : k < s.sent.flatten.length) →
    trbAt s.mem k = s.sent.flatten[k]
  rejected : ∀ r, (controlTd ring bus s.next r).1 = 0 →
    (controlTd ring bus s.next r).2.1 = s.next ∧ (controlTd ring bus s.next r).2.2.2.1 = []

/-! ## The words of a transfer -/

variable {ring bus i first : ℕ} {s : TdState} {td : List Trb} {r : ControlRequest}

variable {t : Trb}

theorem setupStageSeed_w3 {rt request value index length tt : ℕ}
    (h : setupStageSeed rt request value index length tt 1 = some t) :
    t.w3 % 2 = 1 ∧ trbType t.w3 = 2 := by
  unfold setupStageSeed at h
  split_ifs at h with hgate
  obtain rfl := Option.some.inj h
  simp only [not_or] at hgate
  obtain ⟨-, -, -, -, -, hkind, -⟩ := hgate
  have htt : tt = 0 ∨ tt = 2 ∨ tt = 3 := by omega
  dsimp only
  rcases htt with rfl | rfl | rfl <;> decide

theorem dataStageSeed_w3 {bufferBus length : ℕ} (h : dataStageSeed bufferBus length 1 = some t) :
    t.w3 % 2 = 1 ∧ trbType t.w3 = 3 := by
  unfold dataStageSeed at h
  split_ifs at h
  obtain rfl := Option.some.inj h
  dsimp only
  decide

theorem statusStageSeed_w3 {d : ℕ} (h : statusStageSeedDirection d 1 = some t) :
    t.w3 % 2 = 1 ∧ trbType t.w3 = 4 := by
  unfold statusStageSeedDirection at h
  split_ifs at h with hgate
  obtain rfl := Option.some.inj h
  have hd : d = 0 ∨ d = 1 := by omega
  dsimp only
  rcases hd with rfl | rfl <;> decide

theorem words_stages (h : r.words = some td) : td.length = r.count ∧ Stages td := by
  unfold ControlRequest.words at h
  unfold ControlRequest.count
  split_ifs at h ⊢
  · obtain ⟨setup, hsetup, h⟩ := Option.bind_eq_some_iff.mp h
    obtain ⟨status, hstatus, h⟩ := Option.bind_eq_some_iff.mp h
    obtain rfl := Option.some.inj h
    obtain ⟨hsetupBit, hsetupType⟩ := setupStageSeed_w3 hsetup
    obtain ⟨hstatusBit, hstatusType⟩ := statusStageSeed_w3 hstatus
    refine ⟨rfl, .inl ?_, ?_⟩
    · simp [hsetupType, hstatusType]
    · simp [hsetupBit, hstatusBit]
  · obtain ⟨setup, hsetup, h⟩ := Option.bind_eq_some_iff.mp h
    obtain ⟨data, hdata, h⟩ := Option.bind_eq_some_iff.mp h
    obtain ⟨status, hstatus, h⟩ := Option.bind_eq_some_iff.mp h
    obtain rfl := Option.some.inj h
    obtain ⟨hsetupBit, hsetupType⟩ := setupStageSeed_w3 hsetup
    obtain ⟨hdataBit, hdataType⟩ := dataStageSeed_w3 hdata
    obtain ⟨hstatusBit, hstatusType⟩ := statusStageSeed_w3 hstatus
    refine ⟨rfl, .inr ?_, ?_⟩
    · simp [hsetupType, hdataType, hstatusType]
    · simp [hsetupBit, hdataBit, hstatusBit]

/-- The TRBs of a transfer are no Links. -/
theorem Stages.type (h : Stages td) (ht : t ∈ td) : trbType t.w3 ≠ trbTypeLink := by
  have hmem : trbType t.w3 ∈ td.map (fun t => trbType t.w3) := List.mem_map_of_mem ht
  intro hlink
  rcases h.1 with htypes | htypes
  all_goals
    rw [htypes, hlink] at hmem
    exact absurd hmem (by decide)

theorem Stages.ne_nil (h : Stages td) : td ≠ [] := by
  rintro rfl
  rcases h.1 with htypes | htypes <;> cases htypes

theorem controlTd_cases (ring bus next : ℕ) (r : ControlRequest) :
    ((controlTd ring bus next r).1 = 0 ∧ (controlTd ring bus next r).2.1 = next ∧
      (controlTd ring bus next r).2.2.2.1 = []) ∨
    ∃ td status, Stages td ∧ next + td.length ≤ 254 ∧ controlTd ring bus next r =
      (1, next + td.length, td, tdWords next td ++ tdPublish next td, status) := by
  unfold controlTd
  split_ifs with hgate
  · exact .inl ⟨rfl, rfl, rfl⟩
  · cases hwords : r.words with
    | none => exact .inl ⟨rfl, rfl, rfl⟩
    | some td =>
      obtain ⟨hcount, hstages⟩ := words_stages hwords
      have hle : r.count ≤ 3 := by
        unfold ControlRequest.count
        split <;> omega
      have hroom : next + td.length ≤ 254 := by omega
      refine .inr ⟨td, some ((bus + (next + r.count - 1) * 16) % 2 ^ 64), hstages, hroom, ?_⟩
      dsimp only
      rw [hcount]

/-! ## The stores of a transfer -/

theorem tdWords_range : ∀ st ∈ tdWords i td,
    4 * i ≤ st.1 ∧ st.1 < 4 * (i + td.length) ∧ (st.1 % 4 = 3 → st.2 % 2 = 0) := by
  induction td generalizing i with
  | nil =>
    intro st hst
    cases hst
  | cons t td ih =>
    intro st hst
    rw [List.length_cons]
    rcases List.mem_append.mp hst with hst | hst
    · simp only [List.mem_cons, List.not_mem_nil, or_false] at hst
      rcases hst with rfl | rfl | rfl | rfl
      all_goals
        dsimp only
        omega
    · have hrest := ih st hst
      omega

theorem tdPublish_range : ∀ st ∈ tdPublish i td,
    4 * i + 3 ≤ st.1 ∧ st.1 < 4 * (i + td.length) ∧ st.1 % 4 = 3 := by
  induction td generalizing i with
  | nil =>
    intro st hst
    cases hst
  | cons t td ih =>
    intro st hst
    rw [List.length_cons]
    rcases List.mem_append.mp hst with hst | hst
    · have hrest := ih st hst
      omega
    · rw [List.mem_singleton] at hst
      subst hst
      dsimp only
      omega

variable {k : ℕ}

theorem tdWords_cell (mem : ℕ → ℕ) (hk : k < td.length) :
    apply mem (tdWords i td) (4 * (i + k)) = td[k].w0 ∧
      apply mem (tdWords i td) (4 * (i + k) + 1) = td[k].w1 ∧
      apply mem (tdWords i td) (4 * (i + k) + 2) = td[k].w2 := by
  induction td generalizing i k mem with
  | nil => cases hk
  | cons t td ih =>
    unfold tdWords
    rw [apply_append]
    cases k with
    | zero =>
      have hkeep : ∀ a < 4 * (i + 1), ∀ m : ℕ → ℕ, apply m (tdWords (i + 1) td) a = m a := by
        intro a ha m
        refine apply_of_notMem (fun st hst hat => ?_) m
        have hrange := tdWords_range st hst
        omega
      rw [hkeep _ (by omega), hkeep _ (by omega), hkeep _ (by omega)]
      simp
    | succ k =>
      have hrest := ih (i := i + 1) (k := k)
        (apply mem [(4 * i, t.w0), (4 * i + 1, t.w1), (4 * i + 2, t.w2), (4 * i + 3, t.w3 / 2 * 2)])
        (by simpa using hk)
      rwa [Nat.add_assoc, Nat.add_comm 1 k] at hrest

theorem tdPublish_cell (mem : ℕ → ℕ) (hk : k < td.length) :
    apply mem (tdPublish i td) (4 * (i + k) + 3) = td[k].w3 := by
  induction td generalizing i k with
  | nil => cases hk
  | cons t td ih =>
    unfold tdPublish
    rw [apply_append]
    cases k with
    | zero => exact Function.update_self ..
    | succ k =>
      have hne : 4 * (i + (k + 1)) + 3 ≠ 4 * i + 3 := by omega
      have hrest := ih (i := i + 1) (k := k) (by simpa using hk)
      rw [Nat.add_assoc, Nat.add_comm 1 k] at hrest
      show Function.update _ _ _ _ = _
      rw [Function.update_of_ne hne]
      exact hrest

/-- The stores of a transfer leave it in the ring. -/
theorem tdStores_at (mem : ℕ → ℕ) (hk : k < td.length) :
    trbAt (apply mem (tdWords i td ++ tdPublish i td)) (i + k) = td[k] := by
  have hkeep : ∀ a, a % 4 ≠ 3 → ∀ m : ℕ → ℕ, apply m (tdPublish i td) a = m a := by
    intro a ha m
    refine apply_of_notMem (fun st hst hat => ?_) m
    have hrange := tdPublish_range st hst
    omega
  obtain ⟨h0, h1, h2⟩ := tdWords_cell mem hk (i := i)
  unfold trbAt
  rw [apply_append, hkeep _ (by omega), hkeep _ (by omega), hkeep _ (by omega), h0, h1, h2,
    tdPublish_cell _ hk]

theorem tdStores_range : ∀ st ∈ tdWords i td ++ tdPublish i td,
    4 * i ≤ st.1 ∧ st.1 < 4 * (i + td.length) := by
  intro st hst
  rcases List.mem_append.mp hst with hst | hst
  · have hrange := tdWords_range st hst
    omega
  · have hrange := tdPublish_range st hst
    omega

/-- A store of a transfer that does not make its first TRB owned. -/
def Inside (first next : ℕ) (st : WordStore) : Prop :=
  4 * first ≤ st.1 ∧ st.1 < 4 * next ∧ (st.1 = 4 * first + 3 → st.2 % 2 = 0)

/-- The first TRB of a transfer becomes owned with the last store. -/
theorem batch_td (hne : td ≠ []) :
    ∃ v, Batch (Inside i (i + td.length)) (4 * i + 3, v) (tdWords i td ++ tdPublish i td) := by
  obtain ⟨t, rest, rfl⟩ := List.exists_cons_of_ne_nil hne
  refine ⟨t.w3, ?_⟩
  have hlast : tdWords i (t :: rest) ++ tdPublish i (t :: rest) =
      (tdWords i (t :: rest) ++ tdPublish (i + 1) rest) ++ [(4 * i + 3, t.w3)] :=
    (List.append_assoc ..).symm
  rw [hlast]
  refine batch_append ?_
  intro st hst
  unfold Inside
  rw [List.length_cons]
  rcases List.mem_append.mp hst with hst | hst
  · have hrange := tdWords_range st hst
    rw [List.length_cons] at hrange
    refine ⟨hrange.1, hrange.2.1, fun hat => hrange.2.2 (by omega)⟩
  · have hrange := tdPublish_range st hst
    refine ⟨by omega, by omega, fun hat => by omega⟩

/-! ## The invariant -/

theorem owned_self {c : ℕ} (h : t.w3 % 2 = c) : t.owned c = t := by
  unfold Trb.owned
  have hw3 : t.w3 / 2 * 2 + c = t.w3 := by omega
  rw [hw3]

theorem prefix_snoc {A : Type*} {xs ys : List A} (h : xs <+: ys) (hlt : xs.length < ys.length) :
    xs ++ [ys[xs.length]] <+: ys := by
  obtain ⟨rest, rfl⟩ := h
  cases rest with
  | nil => simp at hlt
  | cons y rest => simp

/-- The TRBs before an index are in the ring and owned; from there on the ring is not owned at the index
and behind what was put. -/
structure TdBase (bus : ℕ) (s : TdState) (first : ℕ) : Prop where
  limit : s.sent.flatten.length ≤ 254
  bound : first ≤ s.sent.flatten.length
  next : s.next = s.sent.flatten.length
  valid : ∀ td ∈ s.sent, Stages td
  promised : ∀ k, (hk : k < s.sent.flatten.length) →
    trbAt (apply s.mem s.pending) k = s.sent.flatten[k]
  done : ∀ k, (hk : k < first) → (hk' : k < s.sent.flatten.length) → trbAt s.mem k = s.sent.flatten[k]
  free : ∀ k < ringLink, k = first ∨ s.sent.flatten.length ≤ k → s.mem (4 * k + 3) % 2 = 0
  seen : s.seen <+: s.sent.flatten
  length : s.seen.length ≤ first
  consumer : s.consumer = ⟨bus + 16 * s.seen.length, 1⟩

/-- The phase of a control ring: no store is left, or those of the last transfer are. -/
inductive TdPhase (bus : ℕ) (s : TdState) : Prop where
  | ready (h : TdBase bus s s.sent.flatten.length) (hpending : s.pending = [])
  | filling (pre : List (List Trb)) (td : List Trb) (v : ℕ) (h : TdBase bus s pre.flatten.length)
      (hsent : s.sent = pre ++ [td])
      (hbatch : Batch (Inside pre.flatten.length s.sent.flatten.length)
        (4 * pre.flatten.length + 3, v) s.pending)

variable {bus : ℕ}

/-- A look: what is in the ring is executed, and behind it the controller waits. -/
theorem TdBase.look (h : TdBase bus s first) : TdBase bus (s.look bus) first := by
  have hlinkIndex := ringLink_eq
  obtain ⟨hlimit, hbound, hnext, hvalid, hpromised, hdone, hfree, hseen, hlength, hconsumer⟩ := h
  by_cases hat : s.seen.length = first
  · have hlook : s.consumer.look bus s.mem = (s.consumer, none) := by
      rw [hconsumer]
      refine look_waits ?_
      rw [hfree _ (by omega) (.inl hat)]
      decide
    have hsame : s.look bus = s := by
      unfold TdState.look
      rw [hlook, Option.toList_none, List.append_nil]
    rw [hsame]
    exact ⟨hlimit, hbound, hnext, hvalid, hpromised, hdone, hfree, hseen, hlength, hconsumer⟩
  · have hlt : s.seen.length < s.sent.flatten.length := by omega
    have htrb := hdone _ (by omega) hlt
    obtain ⟨td, htd, hmem⟩ := List.mem_flatten.mp (List.getElem_mem hlt)
    have howned : trbAt s.mem s.seen.length = (s.sent.flatten[s.seen.length]).owned 1 := by
      rw [htrb, owned_self ((hvalid td htd).2 _ hmem)]
    have hlook := @look_trb bus _ _ _ _ le_rfl ((hvalid td htd).type hmem) howned
    rw [← hconsumer, owned_self ((hvalid td htd).2 _ hmem)] at hlook
    refine ⟨hlimit, hbound, hnext, hvalid, hpromised, hdone, hfree, ?_, ?_, ?_⟩
    · unfold TdState.look
      dsimp only
      rw [hlook, Option.toList_some]
      exact prefix_snoc hseen hlt
    · unfold TdState.look
      dsimp only
      rw [hlook, Option.toList_some, List.length_append, List.length_singleton]
      omega
    · unfold TdState.look
      dsimp only
      rw [hlook, Option.toList_some, List.length_append, List.length_singleton]

theorem TdPhase.look (h : TdPhase bus s) : TdPhase bus (s.look bus) := by
  cases h with
  | ready h hpending => exact .ready h.look hpending
  | filling pre td v h hsent hbatch => exact .filling pre td v h.look hsent hbatch

theorem TdPhase.store {st : WordStore} {rest : List WordStore} (h : TdPhase bus s)
    (hpending : s.pending = st :: rest) : TdPhase bus (s.store st rest) := by
  cases h with
  | ready h hnone =>
    rw [hnone] at hpending
    cases hpending
  | filling pre td v h hsent hbatch =>
    obtain ⟨hlimit, hbound, hnext, hvalid, hpromised, hdone, hfree, hseen, hlength, hconsumer⟩ := h
    rw [hpending, apply_cons] at hpromised
    rw [hpending] at hbatch
    have hne : td ≠ [] := (hvalid td (by simp [hsent])).ne_nil
    have hgrows : pre.flatten.length < s.sent.flatten.length := by
      have hpos := List.length_pos_of_ne_nil hne
      simp [hsent, hpos]
    rcases hbatch.cons_cases with ⟨rfl, rfl⟩ | ⟨hquiet, hbatch'⟩
    · refine .ready ⟨hlimit, le_rfl, hnext, hvalid, hpromised, fun k hk _ => hpromised k hk, ?_, hseen,
        hlength.trans hbound, hconsumer⟩ rfl
      intro k hk hat
      change k = s.sent.flatten.length ∨ s.sent.flatten.length ≤ k at hat
      show Function.update s.mem _ _ _ % 2 = 0
      rw [Function.update_of_ne (by omega)]
      exact hfree k hk (.inr (by omega))
    · obtain ⟨hlow, hhigh, hbit⟩ := hquiet
      refine .filling pre td v ⟨hlimit, hbound, hnext, hvalid, hpromised, ?_, ?_, hseen, hlength,
        hconsumer⟩ hsent hbatch'
      · intro k hk hk'
        show trbAt (Function.update _ _ _) k = _
        rw [trbAt_update (by omega)]
        exact hdone k hk hk'
      · intro k hk hat
        change k = pre.flatten.length ∨ s.sent.flatten.length ≤ k at hat
        show Function.update s.mem _ _ _ % 2 = 0
        by_cases hcell : 4 * k + 3 = st.1
        · rw [hcell, Function.update_self]
          exact hbit (by omega)
        · rw [Function.update_of_ne hcell]
          exact hfree k hk hat

theorem TdPhase.call (h : TdPhase bus s) (hidle : s.pending = []) (r : ControlRequest) :
    TdPhase bus (s.call ring bus r) := by
  cases h with
  | filling pre td v h hsent hbatch => exact (hbatch.ne_nil hidle).elim
  | ready h _ =>
    obtain ⟨hlimit, hbound, hnext, hvalid, hpromised, hdone, hfree, hseen, hlength, hconsumer⟩ := h
    rcases controlTd_cases ring bus s.next r with ⟨hzero, hsame, hnone⟩ |
      ⟨td, status, hstages, hroom, hcall⟩
    · have hcall : s.call ring bus r = s := by
        unfold TdState.call
        dsimp only
        rw [hzero, hsame, hnone, if_pos rfl, ← hidle]
      rw [hcall]
      exact .ready ⟨hlimit, hbound, hnext, hvalid, hpromised, hdone, hfree, hseen, hlength, hconsumer⟩
        hidle
    · have hafter : s.call ring bus r = { s with
          next := s.next + td.length
          pending := tdWords s.next td ++ tdPublish s.next td
          sent := s.sent ++ [td] } := by
        unfold TdState.call
        dsimp only
        rw [hcall]
        rfl
      rw [hafter]
      have hflat : (s.sent ++ [td]).flatten = s.sent.flatten ++ td := by simp
      have hsize : (s.sent ++ [td]).flatten.length = s.sent.flatten.length + td.length := by
        rw [hflat, List.length_append]
      obtain ⟨v, hbatch⟩ := batch_td (i := s.next) hstages.ne_nil
      refine .filling s.sent td v ⟨?_, ?_, ?_, ?_, ?_, ?_, ?_, ?_, hlength, hconsumer⟩ rfl ?_
      · show (s.sent ++ [td]).flatten.length ≤ 254
        omega
      · show _ ≤ (s.sent ++ [td]).flatten.length
        omega
      · show s.next + td.length = (s.sent ++ [td]).flatten.length
        omega
      · intro td' htd'
        rcases List.mem_append.mp htd' with hold | hnew
        · exact hvalid td' hold
        · rw [List.mem_singleton.mp hnew]
          exact hstages
      · intro k hk
        dsimp only at hk ⊢
        by_cases hold : k < s.sent.flatten.length
        · rw [trbAt_apply, List.getElem_of_eq hflat, List.getElem_append_left hold]
          · exact hdone k hold hold
          · intro st hst hat
            have hrange := tdStores_range st hst
            omega
        · have hk' : k - s.sent.flatten.length < td.length := by omega
          have hindex : k = s.next + (k - s.sent.flatten.length) := by omega
          rw [List.getElem_of_eq hflat, List.getElem_append_right (by omega),
            ← tdStores_at s.mem hk' (i := s.next), ← hindex]
      · intro k hk hk'
        dsimp only at hk' ⊢
        rw [List.getElem_of_eq hflat, List.getElem_append_left hk]
        exact hdone k hk hk
      · intro k hk hat
        dsimp only at hat ⊢
        exact hfree k hk (.inr (by omega))
      · dsimp only
        rw [hflat]
        exact hseen.trans (List.prefix_append ..)
      · dsimp only
        rw [hsize, ← hnext]
        exact hbatch

/-- **Every state of a control ring** is in a phase. -/
theorem TdReach.phase (h : TdReach ring bus s) : TdPhase bus s := by
  induction h with
  | start mem hfresh =>
    refine .ready ⟨Nat.zero_le _, le_rfl, rfl, ?_, ?_, ?_, ?_, List.prefix_rfl, le_rfl, rfl⟩ rfl
    · intro td htd
      cases htd
    · intro k hk
      cases hk
    · intro k hk
      cases hk
    · exact fun k hk _ => hfresh k hk
  | call r _ hidle ih => exact ih.call hidle r
  | store _ hpending ih => exact ih.store hpending
  | look _ ih => exact ih.look

/-! ## What is seen -/

/-- Where the first TRB of a transfer is owned, the transfer ends before the index. -/
theorem TdPhase.complete (h : TdPhase bus s) {pre post : List (List Trb)}
    (hsent : s.sent = pre ++ td :: post) (howned : s.mem (4 * pre.flatten.length + 3) % 2 = 1)
    (hk : k < td.length) : trbAt s.mem (pre.flatten.length + k) = td[k] := by
  have hflat : s.sent.flatten = pre.flatten ++ (td ++ post.flatten) := by simp [hsent]
  have hin : pre.flatten.length + k < s.sent.flatten.length := by
    rw [hflat, List.length_append, List.length_append]
    omega
  have hget : s.sent.flatten[pre.flatten.length + k] = td[k] := by
    rw [List.getElem_of_eq hflat, List.getElem_append_right (by omega)]
    simp [hk]
  rw [← hget]
  cases h with
  | ready h hpending => exact h.done _ hin hin
  | filling pre' td' v h hsent' hbatch =>
    refine h.done _ ?_ hin
    rcases List.eq_nil_or_concat post with rfl | ⟨post', last, rfl⟩
    · -- The transfer is the last one: its first TRB is not owned yet.
      obtain ⟨rfl, -⟩ := List.append_inj' (hsent.symm.trans hsent') rfl
      have hlinkIndex := ringLink_eq
      have hlimit := h.limit
      have hfree := h.free _ (by omega) (.inl rfl)
      omega
    · rw [List.concat_eq_append, ← List.cons_append, ← List.append_assoc] at hsent
      obtain ⟨rfl, -⟩ := List.append_inj' (hsent.symm.trans hsent') rfl
      rw [List.flatten_append, List.flatten_cons, List.length_append, List.length_append]
      omega

/-- **Every state of a control ring** shows the controller whole transfers. -/
theorem TdReach.safe (h : TdReach ring bus s) : TdSafe ring bus s := by
  have hphase := h.phase
  obtain ⟨hseen, hvalid⟩ : s.seen <+: s.sent.flatten ∧ ∀ td ∈ s.sent, Stages td := by
    cases hphase with
    | ready h _ => exact ⟨h.seen, h.valid⟩
    | filling _ _ _ h _ _ => exact ⟨h.seen, h.valid⟩
  refine ⟨hseen, hvalid, fun pre td post hsent howned k hk => hphase.complete hsent howned hk, ?_, ?_⟩
  · intro hpending k hk
    cases hphase with
    | ready h _ => exact h.done k hk hk
    | filling _ _ _ _ _ hbatch => exact (hbatch.ne_nil hpending).elim
  · intro r hzero
    rcases controlTd_cases ring bus s.next r with ⟨-, hsame, hnone⟩ | ⟨td, status, -, -, hcall⟩
    · exact ⟨hsame, hnone⟩
    · rw [hcall] at hzero
      cases hzero

/-! ## Both rings -/

/-- **The rings are published safely**: the controller executes what `pi4_xhci_dma_ring_enqueue` has
enqueued and what `pi4_usb_bus_control_td` has put, whenever it looks. -/
theorem rings_published :
    (∀ ring bus s, RingReach ring bus s → RingSafe ring bus s) ∧
      ∀ ring bus s, TdReach ring bus s → TdSafe ring bus s :=
  ⟨fun _ _ _ h => h.safe, fun _ _ _ h => h.safe⟩

/-- A ring that starts at index 248, with its skipped TRBs invalidated, and a control ring. -/
theorem rings_published_start :
    RingSafe 0x1000 0x404010000 (ringStart 0x404010000
      (apply (fun _ => 0) (ringSkippedPrefix 0x1000 248 1).2) 248 1) ∧
      TdSafe 0x1000 0x404010000 ((tdStart 0x404010000 fun _ => 0).call 0x1000 0x404010000
        ⟨0x80, 6, 0x100, 0, 0x404020000, 18⟩) := by
  refine ⟨rings_published.1 _ _ _ (.start _ 248 1 (by decide) le_rfl (.inr (by decide)) ?_),
    rings_published.2 _ _ _ (.call _ (.start _ fun i _ => rfl) rfl)⟩
  intro i _ _
  decide

end ZealBringup.Pi4
