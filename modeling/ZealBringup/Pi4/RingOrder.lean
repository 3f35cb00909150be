import Mathlib.Tactic.IntervalCases
import ZealBringup.Pi4.Ring

/-!
# The order of the rings

* `Idle`, `Storing`, `Published` — the phases of a call: all is consumed, its stores are to come, or its
  TRB is not consumed yet.
* `RingPhase.store`, `RingPhase.look`, `RingPhase.call` — what a step does to them.
* `ring_reach_safe` — the controller sees what was enqueued.
-/

namespace ZealBringup.Pi4

open Stores
open ZealBringup.Usb (trbType)

/-! ## Cycles -/

theorem cycle_xor_xor {c : ℕ} (hc : c ≤ 1) : c ^^^ 1 ^^^ 1 = c := by
  interval_cases c <;> rfl

theorem cycle_xor_le {c : ℕ} (hc : c ≤ 1) : c ^^^ 1 ≤ 1 := by
  interval_cases c <;> decide

theorem cycle_xor_ne {c : ℕ} (hc : c ≤ 1) : c ≠ c ^^^ 1 := by
  interval_cases c <;> decide

theorem withBit_mod (w : ℕ) {c : ℕ} (hc : c ≤ 1) : (w / 2 * 2 + c) % 2 = c := by
  omega

/-! ## Numbers of TRBs -/

variable {p : Producer}

theorem ringLink_eq : ringLink = 255 := rfl

/-- The slot and the cycle of a TRB, numbered over all laps. -/
def ringPlace (n : ℕ) : ℕ × ℕ := (n % ringLink, n / ringLink % 2)

/-- A producer that is at a number. -/
def Producer.At (p : Producer) (n : ℕ) : Prop := (p.index, p.cycle) = ringPlace n

theorem mod_two_xor (n : ℕ) : n % 2 ^^^ 1 = (n + 1) % 2 := by
  rcases Nat.mod_two_eq_zero_or_one n with h | h
  · rw [h, Nat.add_mod, h]
    rfl
  · rw [h, Nat.add_mod, h]
    rfl

theorem Producer.At.eq {n : ℕ} (h : p.At n) : p.index = n % 255 ∧ p.cycle = n / 255 % 2 :=
  Prod.mk.inj h

/-- The next TRB has the next number, also behind the last slot. -/
theorem Producer.At.advance {n : ℕ} (h : p.At n) : p.advance.At (n + 1) := by
  obtain ⟨hindex, hcycle⟩ := h.eq
  have hlinkIndex := ringLink_eq
  unfold Producer.advance
  split_ifs with hlast
  · refine Prod.ext ?_ ?_
    · show 0 = (n + 1) % 255
      omega
    · show p.cycle ^^^ 1 = (n + 1) / 255 % 2
      rw [hcycle, mod_two_xor]
      omega
  · refine Prod.ext ?_ ?_
    · show p.index + 1 = (n + 1) % 255
      omega
    · show p.cycle = (n + 1) / 255 % 2
      omega

/-! ## The contents of the ring -/

/-- A TRB with the cycle bit of the producer. -/
def Trb.owned (t : Trb) (cycle : ℕ) : Trb := { t with w3 := t.w3 / 2 * 2 + cycle }

/-- The Link of a lap. -/
def linkTrb (bus cycle : ℕ) : Trb :=
  ⟨bus % 2 ^ 32, bus / 2 ^ 32, 0, trbTypeLink <<< 10 ||| 2 ||| cycle⟩

theorem linkTrb_w3 {c : ℕ} (bus : ℕ) (hc : c ≤ 1) : (linkTrb bus c).w3 % 2 = c ∧
    trbType (linkTrb bus c).w3 = trbTypeLink ∧ (linkTrb bus c).w3 / 2 % 2 = 1 := by
  unfold linkTrb
  dsimp only
  interval_cases c <;> decide

theorem owned_w3 (t : Trb) {c : ℕ} (hc : c ≤ 1) : (t.owned c).w3 % 2 = c ∧
    trbType (t.owned c).w3 = trbType t.w3 ∧ (t.owned c).payload = t.payload := by
  unfold Trb.owned Trb.payload trbType
  refine ⟨?_, ?_, ?_⟩
  · dsimp only
    omega
  · dsimp only
    omega
  · dsimp only
    have hdiv : (t.w3 / 2 * 2 + c) / 2 = t.w3 / 2 := by omega
    rw [hdiv]

/-- In the lap of a cycle the TRBs before an index are used up and the others are not owned. -/
def Shape (mem : ℕ → ℕ) (i c : ℕ) : Prop :=
  ∀ j < ringLink, (i ≤ j → mem (4 * j + 3) % 2 ≠ c) ∧ (j < i → mem (4 * j + 3) % 2 = c)

/-- The controller is at an index, or at the Link to it. -/
def Heads (bus : ℕ) (mem : ℕ → ℕ) (consumer : Consumer) (i c : ℕ) : Prop :=
  consumer = ⟨bus + 16 * i, c⟩ ∨
    i = 0 ∧ bus % 64 = 0 ∧ consumer = ⟨bus + 16 * ringLink, c ^^^ 1⟩ ∧
      trbAt mem ringLink = linkTrb bus (c ^^^ 1)

/-- A store that does not make the TRB at an index owned. -/
def Quiet (i c : ℕ) (st : WordStore) : Prop :=
  st.1 / 4 = i ∧ (st.1 % 4 = 3 → st.2 % 2 ≠ c) ∨ st.1 / 4 = ringLink ∧ i + 1 = ringLink

/-- Everything that was enqueued is consumed. -/
structure Idle (bus : ℕ) (s : RingState) (i c : ℕ) : Prop where
  index : i < ringLink
  cycle : c ≤ 1
  producer : ∃ w, s.producer = ⟨i, c, w⟩
  pending : s.pending = []
  sent : s.sent.map Trb.payload = s.seen.map Trb.payload
  shape : Shape s.mem i c
  heads : Heads bus s.mem s.consumer i c

/-- The last TRB is not consumed yet. -/
structure Open (bus : ℕ) (s : RingState) (i c : ℕ) (t : Trb) : Prop where
  index : i < ringLink
  cycle : c ≤ 1
  type : trbType t.w3 ≠ trbTypeLink
  producer : ∃ w, s.producer = Producer.advance ⟨i, c, w⟩
  sent : s.sent.map Trb.payload = s.seen.map Trb.payload ++ [t.payload]
  heads : Heads bus s.mem s.consumer i c
  content : trbAt (apply s.mem s.pending) i = t.owned c
  link : i + 1 = ringLink → bus % 64 = 0 ∧ trbAt (apply s.mem s.pending) ringLink = linkTrb bus c

/-- Stores of the last TRB are to come. -/
structure Storing (bus : ℕ) (s : RingState) (i c : ℕ) (t : Trb) : Prop extends Open bus s i c t where
  shape : Shape s.mem i c
  batch : Batch (Quiet i c) (4 * i + 3, (t.owned c).w3) s.pending

/-- All stores of the last TRB are done. -/
structure Published (bus : ℕ) (s : RingState) (i c : ℕ) (t : Trb) : Prop extends Open bus s i c t where
  shape : Shape s.mem (i + 1) c
  pending : s.pending = []

/-- The phase of a ring. -/
inductive RingPhase (bus : ℕ) (s : RingState) : Prop where
  | idle {i c : ℕ} (h : Idle bus s i c)
  | storing {i c : ℕ} {t : Trb} (h : Storing bus s i c t)
  | published {i c : ℕ} {t : Trb} (h : Published bus s i c t)

variable {ring bus i c : ℕ} {s : RingState} {t : Trb}

/-! ## Stores -/

variable {mem : ℕ → ℕ} {v : ℕ}

theorem trbAt_update {a j : ℕ} (h : a / 4 ≠ j) :
    trbAt (Function.update mem a v) j = trbAt mem j := by
  unfold trbAt
  rw [Function.update_of_ne (by omega), Function.update_of_ne (by omega),
    Function.update_of_ne (by omega), Function.update_of_ne (by omega)]

variable {consumer : Consumer}

theorem Heads.store {a : ℕ} (h : Heads bus mem consumer i c) (ha : i = 0 → a / 4 ≠ ringLink) :
    Heads bus (Function.update mem a v) consumer i c := by
  rcases h with hat | ⟨hi, hbus, hconsumer, hlink⟩
  · exact .inl hat
  · refine .inr ⟨hi, hbus, hconsumer, ?_⟩
    rw [trbAt_update (ha hi), hlink]

theorem Shape.quiet {st : WordStore} (h : Shape mem i c) (hst : Quiet i c st) :
    Shape (Function.update mem st.1 st.2) i c := by
  intro j hj
  obtain ⟨hlow, hhigh⟩ := h j hj
  by_cases hat : 4 * j + 3 = st.1
  · rcases hst with ⟨hindex, hbit⟩ | ⟨hindex, -⟩
    · refine ⟨fun _ => ?_, fun hlt => ?_⟩
      · rw [hat, Function.update_self]
        exact hbit (by omega)
      · omega
    · omega
  · rw [Function.update_of_ne hat]
    exact ⟨hlow, hhigh⟩

theorem Shape.publish (h : Shape mem i c) (hv : v % 2 = c) :
    Shape (Function.update mem (4 * i + 3) v) (i + 1) c := by
  intro j hj
  obtain ⟨hlow, hhigh⟩ := h j hj
  by_cases hat : j = i
  · subst hat
    rw [Function.update_self]
    exact ⟨fun hle => by omega, fun _ => hv⟩
  · rw [Function.update_of_ne (by omega)]
    exact ⟨fun hle => hlow (by omega), fun hlt => hhigh (by omega)⟩

theorem RingPhase.store {st : WordStore} {rest : List WordStore} (h : RingPhase bus s)
    (hpending : s.pending = st :: rest) : RingPhase bus (s.store st rest) := by
  cases h with
  | idle h =>
    rw [h.pending] at hpending
    cases hpending
  | published h =>
    rw [h.pending] at hpending
    cases hpending
  | storing h =>
    obtain ⟨⟨hindex, hcycle, htype, hproducer, hsent, hheads, hcontent, hlink⟩, hshape, hbatch⟩ := h
    have hlinkIndex := ringLink_eq
    rw [hpending, apply_cons] at hcontent hlink
    rw [hpending] at hbatch
    rcases hbatch.cons_cases with ⟨rfl, rfl⟩ | ⟨hquiet, hbatch'⟩
    · refine .published ⟨⟨hindex, hcycle, htype, hproducer, hsent, hheads.store ?_, hcontent, hlink⟩,
        hshape.publish (owned_w3 _ hcycle).1, rfl⟩
      intro hi
      dsimp only
      omega
    · refine .storing ⟨⟨hindex, hcycle, htype, hproducer, hsent, hheads.store ?_, hcontent, hlink⟩,
        hshape.quiet hquiet, hbatch'⟩
      intro hi
      rcases hquiet with ⟨hat, -⟩ | ⟨-, hlast⟩ <;> omega

/-! ## Looks -/

theorem look_index (bus i : ℕ) : (bus + 16 * i - bus) / 16 = i := by omega

theorem look_waits (h : mem (4 * i + 3) % 2 ≠ c) :
    Consumer.look bus mem ⟨bus + 16 * i, c⟩ = (⟨bus + 16 * i, c⟩, none) := by
  unfold Consumer.look
  dsimp only
  rw [look_index]
  exact if_pos h

theorem look_trb (hc : c ≤ 1) (ht : trbType t.w3 ≠ trbTypeLink) (h : trbAt mem i = t.owned c) :
    Consumer.look bus mem ⟨bus + 16 * i, c⟩ = (⟨bus + 16 * (i + 1), c⟩, some (t.owned c)) := by
  obtain ⟨hbit, htype, -⟩ := owned_w3 t hc
  unfold Consumer.look
  dsimp only
  rw [look_index, h, if_neg (not_not.mpr hbit), htype, if_neg ht]
  rfl

theorem look_link (hc : c ≤ 1) (hbus : bus % 64 = 0) (h : trbAt mem ringLink = linkTrb bus c) :
    Consumer.look bus mem ⟨bus + 16 * ringLink, c⟩ = (⟨bus, c ^^^ 1⟩, none) := by
  obtain ⟨hbit, htype, htoggle⟩ := linkTrb_w3 bus hc
  have hpointer : (linkTrb bus c).w0 / 16 * 16 + (linkTrb bus c).w1 * 2 ^ 32 = bus := by
    show bus % 2 ^ 32 / 16 * 16 + bus / 2 ^ 32 * 2 ^ 32 = bus
    omega
  unfold Consumer.look
  dsimp only
  rw [look_index, h, if_neg (not_not.mpr hbit), if_pos htype, if_pos htoggle, hpointer]

/-- A look while the TRB at the index is not owned: the controller waits there, or follows the Link. -/
theorem Heads.look (h : Heads bus mem consumer i c) (hc : c ≤ 1) (hbit : mem (4 * i + 3) % 2 ≠ c) :
    consumer.look bus mem = (⟨bus + 16 * i, c⟩, none) := by
  rcases h with rfl | ⟨rfl, hbus, rfl, hlink⟩
  · exact look_waits hbit
  · rw [look_link (cycle_xor_le hc) hbus hlink, cycle_xor_xor hc]
    rfl

theorem RingPhase.look (h : RingPhase bus s) : RingPhase bus (s.look bus) := by
  have hlinkIndex := ringLink_eq
  cases h with
  | idle h =>
    obtain ⟨hindex, hcycle, hproducer, hpending, hsent, hshape, hheads⟩ := h
    have hlook := hheads.look hcycle ((hshape _ hindex).1 le_rfl)
    refine .idle ⟨hindex, hcycle, hproducer, hpending, ?_, hshape, ?_⟩
    · unfold RingState.look
      dsimp only
      rw [hlook, Option.toList_none, List.append_nil, hsent]
    · unfold RingState.look
      dsimp only
      rw [hlook]
      exact .inl rfl
  | storing h =>
    obtain ⟨⟨hindex, hcycle, htype, hproducer, hsent, hheads, hcontent, hlink⟩, hshape, hbatch⟩ := h
    have hlook := hheads.look hcycle ((hshape _ hindex).1 le_rfl)
    refine .storing ⟨⟨hindex, hcycle, htype, hproducer, ?_, ?_, hcontent, hlink⟩, hshape, hbatch⟩
    · unfold RingState.look
      dsimp only
      rw [hlook, Option.toList_none, List.append_nil, hsent]
    · unfold RingState.look
      dsimp only
      rw [hlook]
      exact .inl rfl
  | @published i c t h =>
    obtain ⟨⟨hindex, hcycle, htype, ⟨w, hproducer⟩, hsent, hheads, hcontent, hlink⟩, hshape, hpending⟩ := h
    have hmem := hcontent
    have hlinkMem := hlink
    rw [hpending, apply_nil] at hmem hlinkMem
    rcases hheads with hat | ⟨rfl, hbus, hat, hlinkAt⟩
    · -- The TRB is executed; behind the last one of the lap is the Link.
      have hlook := @look_trb bus _ _ _ _ hcycle htype hmem
      rw [← hat] at hlook
      have hseen : (s.look bus).seen.map Trb.payload = s.sent.map Trb.payload := by
        unfold RingState.look
        dsimp only
        rw [hlook, hsent, List.map_append]
        exact congrArg (fun p => _ ++ [p]) (owned_w3 t hcycle).2.2
      have hconsumer : (s.look bus).consumer = ⟨bus + 16 * (i + 1), c⟩ := by
        unfold RingState.look
        rw [hlook]
      by_cases hlast : i + 1 = ringLink
      · refine .idle (i := 0) (c := c ^^^ 1) ⟨by omega, cycle_xor_le hcycle,
          ⟨_, hproducer.trans (if_pos hlast)⟩, hpending, hseen.symm, ?_, ?_⟩
        · intro j hj
          have hused := (hshape j hj).2 (by omega)
          refine ⟨fun _ => ?_, fun hlt => by omega⟩
          show s.mem (4 * j + 3) % 2 ≠ c ^^^ 1
          rw [hused]
          exact cycle_xor_ne hcycle
        · refine .inr ⟨rfl, (hlinkMem hlast).1, ?_, ?_⟩
          · rw [hconsumer, hlast, cycle_xor_xor hcycle]
          · rw [cycle_xor_xor hcycle]
            exact (hlinkMem hlast).2
      · refine .idle (i := i + 1) (c := c)
          ⟨by omega, hcycle, ⟨w, hproducer.trans (if_neg hlast)⟩, hpending, hseen.symm, hshape,
            .inl hconsumer⟩
    · -- The Link is followed to the first TRB.
      have hlook := look_link (cycle_xor_le hcycle) hbus hlinkAt
      rw [cycle_xor_xor hcycle, ← hat] at hlook
      refine .published (i := 0) (c := c) (t := t)
        ⟨⟨hindex, hcycle, htype, ⟨w, hproducer⟩, ?_, ?_, hcontent, hlink⟩, hshape, hpending⟩
      · unfold RingState.look
        dsimp only
        rw [hlook, Option.toList_none, List.append_nil, hsent]
      · unfold RingState.look
        dsimp only
        rw [hlook]
        exact .inl rfl

/-! ## Calls -/

variable {words : Trb}

theorem ringEnqueue_accepted (h : (ringEnqueue ring bus p words).1 = 0) :
    p.cycle ≤ 1 ∧ trbType words.w3 ≠ trbTypeLink ∧ ringEnqueue ring bus p words =
      (0, p.advance, (if p.index = ringLink - 1 then linkStores bus p.cycle else []) ++
        trbStores p.index words p.cycle, some p.index) := by
  unfold ringEnqueue at h ⊢
  split at h
  · have hminus : (-1 : ℤ) = 0 := h
    exact absurd hminus (by decide)
  · rename_i hgate
    refine ⟨by omega, ?_, if_neg hgate⟩
    simp only [not_or] at hgate
    exact hgate.2.2.2.2.2

theorem ringEnqueue_of_ok (hnull : ring ≠ 0) (hring : ring % 64 = 0) (hbus : bus % 64 = 0)
    (hindex : p.index < ringLink) (hcycle : p.cycle ≤ 1) (htype : trbType words.w3 ≠ trbTypeLink) :
    ringEnqueue ring bus p words = (0, p.advance,
      (if p.index = ringLink - 1 then linkStores bus p.cycle else []) ++
        trbStores p.index words p.cycle, some p.index) := by
  unfold ringEnqueue
  rw [if_neg]
  simp only [not_or, not_not]
  exact ⟨hnull, hring, hbus, by omega, by omega, htype⟩

/-- The stores of a TRB leave it with the cycle of the producer. -/
theorem trbStores_at (mem : ℕ → ℕ) (i c : ℕ) (t : Trb) :
    trbAt (apply mem (trbStores i t c)) i = t.owned c := by
  unfold trbStores trbAt Trb.owned
  simp

theorem linkStores_at (mem : ℕ → ℕ) (bus c : ℕ) :
    trbAt (apply mem (linkStores bus c)) ringLink = linkTrb bus c := by
  unfold linkStores trbAt linkTrb
  simp

theorem trbAt_apply {stores : List WordStore} {j : ℕ} (h : ∀ st ∈ stores, st.1 / 4 ≠ j) :
    trbAt (apply mem stores) j = trbAt mem j := by
  have hcell : ∀ k < 4, apply mem stores (4 * j + k) = mem (4 * j + k) := by
    intro k hk
    refine apply_of_notMem (fun st hst hat => h st hst ?_) mem
    omega
  unfold trbAt
  rw [hcell 1 (by decide), hcell 2 (by decide), hcell 3 (by decide)]
  exact congrArg (fun w => Trb.mk w _ _ _) (hcell 0 (by decide))

theorem trbStores_index : ∀ st ∈ trbStores i t c, st.1 / 4 = i := by
  intro st hst
  simp only [trbStores, List.mem_cons, List.not_mem_nil, or_false] at hst
  rcases hst with rfl | rfl | rfl | rfl | rfl
  all_goals
    dsimp only
    omega

theorem linkStores_index : ∀ st ∈ linkStores bus c, st.1 / 4 = ringLink := by
  intro st hst
  simp only [linkStores, List.mem_cons, List.not_mem_nil, or_false] at hst
  rcases hst with rfl | rfl | rfl | rfl | rfl
  all_goals
    dsimp only
    omega

/-- The stores of a call: all but the last one keep the TRB from being owned. -/
theorem batch_call (hi : i < ringLink) (hc : c ≤ 1) (t : Trb) :
    Batch (Quiet i c) (4 * i + 3, (t.owned c).w3)
      ((if i = ringLink - 1 then linkStores bus c else []) ++ trbStores i t c) := by
  have hlinkIndex := ringLink_eq
  have hlast : (if i = ringLink - 1 then linkStores bus c else []) ++ trbStores i t c =
      ((if i = ringLink - 1 then linkStores bus c else []) ++ (trbStores i t c).dropLast) ++
        [(4 * i + 3, (t.owned c).w3)] := by
    rw [List.append_assoc]
    rfl
  rw [hlast]
  refine batch_append ?_
  intro st hst
  rcases List.mem_append.mp hst with hst | hst
  · split at hst
    · exact .inr ⟨linkStores_index st hst, by omega⟩
    · cases hst
  · refine .inl ⟨trbStores_index st (List.dropLast_subset _ hst), fun h3 => ?_⟩
    simp only [trbStores, List.dropLast_cons_cons, List.dropLast_singleton, List.mem_cons,
      List.not_mem_nil, or_false] at hst
    rcases hst with rfl | rfl | rfl | rfl
    · dsimp only
      rw [withBit_mod _ (cycle_xor_le hc)]
      exact (cycle_xor_ne hc).symm
    all_goals
      dsimp only at h3
      omega

theorem RingPhase.call (h : RingPhase bus s) (hconsumed : s.sent.length ≤ s.seen.length)
    (words : Trb) : RingPhase bus (s.call ring bus words) := by
  have hopen : ∀ {i c t}, Open bus s i c t → False := by
    intro i c t hopen
    have hlength := congrArg List.length hopen.sent
    rw [List.length_append, List.length_map, List.length_map, List.length_singleton] at hlength
    omega
  cases h with
  | storing h => exact (hopen h.toOpen).elim
  | published h => exact (hopen h.toOpen).elim
  | @idle i c h =>
    obtain ⟨hindex, hcycle, ⟨w, hproducer⟩, -, hsent, hshape, hheads⟩ := h
    have hlinkIndex := ringLink_eq
    by_cases hgate : ring = 0 ∨ ring % 64 ≠ 0 ∨ bus % 64 ≠ 0 ∨ i ≥ ringLink ∨ c > 1 ∨
        trbType words.w3 = trbTypeLink
    · have hcall : ringEnqueue ring bus s.producer words = (-1, ⟨i, c, w⟩, [], none) := by
        rw [hproducer]
        exact if_pos hgate
      unfold RingState.call
      dsimp only
      rw [hcall]
      exact .idle ⟨hindex, hcycle, ⟨w, rfl⟩, rfl, hsent, hshape, hheads⟩
    · have hcall : ringEnqueue ring bus s.producer words = (0, Producer.advance ⟨i, c, w⟩,
          (if i = ringLink - 1 then linkStores bus c else []) ++ trbStores i words c, some i) := by
        rw [hproducer]
        exact if_neg hgate
      simp only [not_or, not_not] at hgate
      obtain ⟨-, -, hbus, -, -, htype⟩ := hgate
      unfold RingState.call
      dsimp only
      rw [hcall]
      dsimp only
      refine .storing (i := i) (c := c) (t := words)
        ⟨⟨hindex, hcycle, htype, ⟨w, rfl⟩, ?_, hheads, ?_, ?_⟩, hshape, batch_call hindex hcycle words⟩
      · rw [if_pos rfl, List.map_append, hsent]
        rfl
      · dsimp only
        rw [apply_append, trbStores_at]
      · intro hlast
        refine ⟨hbus, ?_⟩
        dsimp only
        rw [apply_append, if_pos (by omega), trbAt_apply, linkStores_at]
        intro st hst hat
        have hindex' := trbStores_index st hst
        omega

/-! ## Runs -/

theorem start_phase (mem : ℕ → ℕ) {start : ℕ} (hstart : start < ringLink) (hc : c ≤ 1)
    (hskipped : start = 0 ∨ (ringSkippedPrefix ring start c).1 = 0)
    (hfresh : ∀ i, start ≤ i → i < ringLink → mem (4 * i + 3) % 2 ≠ c) :
    RingPhase bus (ringStart bus (apply mem (ringSkippedPrefix ring start c).2) start c) := by
  refine .idle ⟨hstart, hc, ⟨0, rfl⟩, rfl, rfl, ?_, .inl rfl⟩
  have hlow : ∀ st ∈ (ringSkippedPrefix ring start c).2, ∃ k < start, st = (4 * k + 3, c) := by
    intro st hst
    unfold ringSkippedPrefix at hst
    split_ifs at hst
    · cases hst
    · obtain ⟨k, hk, rfl⟩ := List.mem_map.mp hst
      exact ⟨k, List.mem_range.mp hk, rfl⟩
  intro j hj
  refine ⟨fun hle => ?_, fun hlt => ?_⟩
  · show apply mem _ (4 * j + 3) % 2 ≠ c
    rw [apply_of_notMem]
    · exact hfresh j hle hj
    · intro st hst hat
      obtain ⟨k, hk, rfl⟩ := hlow st hst
      dsimp only at hat
      omega
  · have hsuccess : (ringSkippedPrefix ring start c).1 = 0 := hskipped.resolve_left (by omega)
    have hstores : (ringSkippedPrefix ring start c).2 =
        (List.range start).map fun i => (4 * i + 3, c) := by
      unfold ringSkippedPrefix at hsuccess ⊢
      split_ifs at hsuccess ⊢
      · exact absurd hsuccess (by decide)
      · rfl
    have hcell : ∀ n, j < n → apply mem ((List.range n).map fun i => (4 * i + 3, c)) (4 * j + 3) = c := by
      intro n hn
      induction n with
      | zero => omega
      | succ n ih =>
        rw [List.range_succ, List.map_append, apply_append]
        by_cases hat : j = n
        · subst hat
          exact Function.update_self ..
        · have hne : 4 * j + 3 ≠ 4 * n + 3 := by omega
          show Function.update _ _ _ _ = _
          rw [Function.update_of_ne hne]
          exact ih (by omega)
    show apply mem _ (4 * j + 3) % 2 = c
    rw [hstores, hcell start hlt]
    omega

/-- **Every state of a ring** is in a phase. -/
theorem RingReach.phase (h : RingReach ring bus s) : RingPhase bus s := by
  induction h with
  | start mem start cycle hstart hcycle hskipped hfresh =>
    exact start_phase mem hstart hcycle hskipped hfresh
  | call words _ _ hconsumed ih => exact ih.call hconsumed words
  | store _ hpending ih => exact ih.store hpending
  | look _ ih => exact ih.look

theorem RingState.look_seen {seen : Option Trb} (h : s.consumer.look bus s.mem = (consumer, seen)) :
    (s.look bus).seen = s.seen ++ seen.toList := by
  unfold RingState.look
  dsimp only
  rw [h]

theorem RingState.look_consumer {seen : Option Trb}
    (h : s.consumer.look bus s.mem = (consumer, seen)) : (s.look bus).consumer = consumer := by
  unfold RingState.look
  dsimp only
  rw [h]

/-- A TRB that is not consumed yet counts for one. -/
theorem Open.length (h : Open bus s i c t) : s.sent.length = s.seen.length + 1 := by
  have hlength := congrArg List.length h.sent
  rwa [List.length_append, List.length_map, List.length_map, List.length_singleton] at hlength

theorem Idle.length (h : Idle bus s i c) : s.sent.length = s.seen.length := by
  have hlength := congrArg List.length h.sent
  rwa [List.length_map, List.length_map] at hlength

/-- The TRB of a published call is executed, after the Link at most. -/
theorem Published.executed (h : Published bus s i c t) :
    (s.look bus).seen.length = s.sent.length ∨
      ((s.look bus).look bus).seen.length = s.sent.length := by
  have hcontent := h.content
  rw [h.pending, apply_nil] at hcontent
  have hlength := h.toOpen.length
  have hlook := @look_trb bus _ _ _ _ h.cycle h.type hcontent
  rcases h.heads with hat | ⟨hi, hbus, hat, hlink⟩
  · left
    rw [← hat] at hlook
    rw [RingState.look_seen hlook, List.length_append, hlength]
    rfl
  · right
    subst hi
    have hfollow := look_link (cycle_xor_le h.cycle) hbus hlink
    rw [cycle_xor_xor h.cycle, ← hat] at hfollow
    have hnext : (s.look bus).consumer.look bus (s.look bus).mem =
        (⟨bus + 16 * (0 + 1), c⟩, some (t.owned c)) := by
      rw [RingState.look_consumer hfollow]
      exact hlook
    rw [RingState.look_seen hnext, RingState.look_seen hfollow, List.length_append, hlength]
    rw [Option.toList_none, List.append_nil]
    rfl

/-- Where the controller is at an index whose TRB is no Link, it follows no Link. -/
theorem Heads.follows (h : Heads bus s.mem s.consumer i c) (hc : c ≤ 1)
    (hindex : s.mem (4 * i + 3) % 2 ≠ c ∨ trbType (s.mem (4 * i + 3)) ≠ trbTypeLink)
    (htype : trbType (trbAt s.mem ((s.consumer.pointer - bus) / 16)).w3 = trbTypeLink)
    (hmoves : (s.look bus).consumer ≠ s.consumer) :
    s.consumer.pointer = bus + 16 * ringLink ∧ (s.look bus).consumer = ⟨bus, c⟩ ∧
      c = s.consumer.cycle ^^^ 1 ∧ i = 0 := by
  rcases h with hat | ⟨rfl, hbus, hat, hlink⟩
  · rw [hat] at htype
    dsimp only at htype
    rw [look_index] at htype
    have hwaits : s.mem (4 * i + 3) % 2 ≠ c := by
      rcases hindex with hbit | hother
      · exact hbit
      · exact absurd htype hother
    have hlook := @look_waits bus _ _ _ hwaits
    rw [← hat] at hlook
    exact absurd (RingState.look_consumer hlook) hmoves
  · have hfollow := look_link (cycle_xor_le hc) hbus hlink
    rw [cycle_xor_xor hc, ← hat] at hfollow
    rw [RingState.look_consumer hfollow, hat]
    exact ⟨rfl, rfl, (cycle_xor_xor hc).symm, rfl⟩

/-- A call that is rejected has no stores and keeps the producer. -/
theorem ringEnqueue_rejected (h : (ringEnqueue ring bus p words).1 ≠ 0) :
    (ringEnqueue ring bus p words).2.1 = p ∧ (ringEnqueue ring bus p words).2.2.1 = [] := by
  unfold ringEnqueue at h ⊢
  split at h
  · rename_i hgate
    rw [if_pos hgate]
    exact ⟨rfl, rfl⟩
  · exact absurd rfl h

/-- The producer behind the first TRB of a lap is in the cycle of that lap. -/
theorem advance_zero_cycle {w : ℕ} : (Producer.advance ⟨0, c, w⟩).cycle = c := by
  have hinner : ¬(0 + 1 = ringLink) := by decide
  unfold Producer.advance
  rw [if_neg hinner]

/-- **What the controller sees** in a phase. -/
theorem RingPhase.safe (h : RingPhase bus s) : RingSafe ring bus s := by
  cases h with
  | @idle i c h =>
    have hlength := h.length
    obtain ⟨w, hproducer⟩ := h.producer
    refine ⟨?_, by omega, fun _ hless => by omega, fun htype hmoves => ?_,
      fun words => ringEnqueue_rejected⟩
    · exact ⟨[], (List.append_nil _).trans h.sent.symm⟩
    · obtain ⟨hpointer, hconsumer, hcycle, -⟩ :=
        h.heads.follows h.cycle (.inl ((h.shape _ h.index).1 le_rfl)) htype hmoves
      rw [hproducer]
      exact ⟨hpointer, hconsumer, hcycle⟩
  | @storing i c t h =>
    have hlength := h.toOpen.length
    obtain ⟨w, hproducer⟩ := h.producer
    refine ⟨?_, by omega, fun hpending _ => (h.batch.ne_nil hpending).elim,
      fun htype hmoves => ?_, fun words => ringEnqueue_rejected⟩
    · rw [h.sent]
      exact List.prefix_append ..
    · obtain ⟨hpointer, hconsumer, hcycle, rfl⟩ :=
        h.heads.follows h.cycle (.inl ((h.shape _ h.index).1 le_rfl)) htype hmoves
      rw [hproducer, advance_zero_cycle]
      exact ⟨hpointer, hconsumer, hcycle⟩
  | @published i c t h =>
    have hlength := h.toOpen.length
    obtain ⟨w, hproducer⟩ := h.producer
    have hother : trbType (s.mem (4 * i + 3)) ≠ trbTypeLink := by
      have hcontent := h.content
      rw [h.pending, apply_nil] at hcontent
      have hw3 : s.mem (4 * i + 3) = (t.owned c).w3 := congrArg Trb.w3 hcontent
      rw [hw3, (owned_w3 t h.cycle).2.1]
      exact h.type
    refine ⟨?_, by omega, fun _ _ => h.executed, fun htype hmoves => ?_,
      fun words => ringEnqueue_rejected⟩
    · rw [h.sent]
      exact List.prefix_append ..
    · obtain ⟨hpointer, hconsumer, hcycle, rfl⟩ := h.heads.follows h.cycle (.inr hother) htype hmoves
      rw [hproducer, advance_zero_cycle]
      exact ⟨hpointer, hconsumer, hcycle⟩

/-- **Every state of a ring** shows the controller what was enqueued. -/
theorem RingReach.safe (h : RingReach ring bus s) : RingSafe ring bus s := h.phase.safe

end ZealBringup.Pi4
