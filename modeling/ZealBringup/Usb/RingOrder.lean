import Mathlib.Logic.Function.Iterate
import ZealBringup.Usb.Ring

/-!
# Producer rings lose nothing

The invariant of a ring between its two parties, over any number of laps.

* `Phase` — how far the stores of the last put are.
* `RingInv` — the slots and the link by the number of TRBs that are visible, and where the
  controller is.
* `RingReach.inv` — every reachable state has the invariant.
* `RingInv.drains` — the controller gets to the end of what is put.
-/

namespace ZealBringup.Usb

open CycleRing

variable {trbs a c d i k w parameter status control : ℕ} {mem : ℕ → UsbTrb} {s : RingState}
  {cycle : Bool}

/-! ## Words -/

theorem withCycle_mod (control : ℕ) (cycle : Bool) : withCycle control cycle % 2 = cycle.toNat := by
  have hlt := Bool.toNat_lt cycle
  rw [withCycle]
  omega

theorem withCycle_div (control : ℕ) (cycle : Bool) : withCycle control cycle / 2 = control / 2 := by
  have hlt := Bool.toNat_lt cycle
  rw [withCycle]
  omega

theorem trbType_eq (h : c / 2 = k / 2) : trbType c = trbType k := by
  have hdiv : ∀ x, x / 1024 = x / 2 / 512 := fun x => (Nat.div_div_eq_div_mul x 2 512).symm
  rw [trbType, trbType, hdiv, hdiv, h]

theorem link_word (cycle : Bool) :
    (usbTrb 6 ||| 2 ||| cycle.toNat) % 2 = cycle.toNat ∧
      trbType (usbTrb 6 ||| 2 ||| cycle.toNat) = 6 ∧
      (usbTrb 6 ||| 2 ||| cycle.toNat) / 2 % 2 = 1 := by
  cases cycle <;> decide

theorem trbAddress_inj : trbAddress trbs i = trbAddress trbs k ↔ i = k := by
  rw [trbAddress, trbAddress]
  omega

theorem toNat_ne_iff {b b' : Bool} : b.toNat ≠ b'.toNat ↔ b ≠ b' := by
  cases b <;> cases b' <;> decide

/-! ## Laps -/

/-- The slot of a TRB. -/
abbrev slotAddress (trbs k : ℕ) : ℕ := trbAddress trbs (k % 63)

/-- The link TRB. -/
abbrev linkAddress (trbs : ℕ) : ℕ := trbAddress trbs 63

theorem slotAddress_ne_link (trbs k : ℕ) : slotAddress trbs k ≠ linkAddress trbs := by
  rw [Ne, trbAddress_inj]
  omega

theorem slotAddress_ne (hik : i < k) (hki : k < i + 63) :
    slotAddress trbs i ≠ slotAddress trbs k := by
  rw [Ne, trbAddress_inj]
  exact mod_ne_of_lt hik hki

theorem lapBit_lap (n k : ℕ) : lapBit n k = lapBit 1 (k / n) := by
  rw [lapBit, lapBit, Nat.div_one]

/-! ## The invariant -/

/-- The stores to a TRB. -/
def slotStores (trbs k parameter status control : ℕ) : List Store :=
  [.parameter (slotAddress trbs k) parameter, .status (slotAddress trbs k) status,
    .control (slotAddress trbs k) (withCycle control (lapBit 63 k))]

/-- The stores to the link behind the last TRB of a lap. -/
def linkStores (trbs k : ℕ) : List Store :=
  [.parameter (linkAddress trbs) trbs, .status (linkAddress trbs) 0,
    .control (linkAddress trbs) (usbTrb 6 ||| 2 ||| (lapBit 63 k).toNat)]

/-- The stores to come, with `d` TRBs visible and `w` links written: none, those of the TRB `d`, or
those of the link behind the TRB before. -/
inductive Phase (trbs : ℕ) (s : RingState) (d w : ℕ) : Prop where
  | idle (hpending : s.pending = []) (hd : d = s.puts.length) (hw : w = d / 63)
  | slot (parameter status control done : ℕ)
      (hpending : s.pending = (slotStores trbs d parameter status control).drop done ++
        if (d + 1) % 63 = 0 then linkStores trbs d else [])
      (hparameter : 0 < done → (s.mem (slotAddress trbs d)).parameter = parameter)
      (hstatus : 1 < done → (s.mem (slotAddress trbs d)).status = status) (hdone : done < 3)
      (hd : d + 1 = s.puts.length) (hw : w = d / 63)
      (hput : s.puts[d]? = some ⟨slotAddress trbs d, parameter, status, control / 2⟩)
  | link (k done : ℕ) (hk : d = k + 1) (hlap : d % 63 = 0)
      (hpending : s.pending = (linkStores trbs k).drop done)
      (hparameter : 0 < done → (s.mem (linkAddress trbs)).parameter = trbs) (hdone : done < 3)
      (hd : d = s.puts.length) (hw : w + 1 = d / 63)

/-- Where the controller is after `c` TRBs: at the next one, or at the link in front of it. -/
inductive ConsumerAt (trbs c : ℕ) : Consumer → Prop where
  | slot : ConsumerAt trbs c ⟨slotAddress trbs c, lapBit 63 c⟩
  | link (hlap : c % 63 = 0) (hpos : 0 < c) : ConsumerAt trbs c ⟨linkAddress trbs, !lapBit 63 c⟩

/-- The work that the TRB at an address says. -/
def workAt (mem : ℕ → UsbTrb) (a : ℕ) : Work :=
  ⟨a, (mem a).parameter, (mem a).status, (mem a).control / 2⟩

/-- A ring with `d` TRBs visible and `w` links written. -/
structure RingInv (trbs : ℕ) (s : RingState) (d w : ℕ) : Prop where
  phase : Phase trbs s d w
  ring : s.ring = ⟨trbs, s.puts.length % 63, lapBit 63 s.puts.length⟩
  order : s.seen = s.puts.take s.seen.length
  visible : s.seen.length ≤ d
  room : s.puts.length ≤ s.seen.length + 62
  puts : ∀ x ∈ s.puts, trbType (2 * x.control) ≠ 6
  bits : ∀ i < 63, (s.mem (trbAddress trbs i)).control % 2 = (slotBit 63 d i).toNat
  holds : ∀ k, s.seen.length ≤ k → k < d →
    s.puts[k]? = some (workAt s.mem (slotAddress trbs k))
  linkBit : (s.mem (linkAddress trbs)).control % 2 = (slotBit 1 w 0).toNat
  link : 0 < w → (s.mem (linkAddress trbs)).parameter = trbs ∧
    trbType (s.mem (linkAddress trbs)).control = 6 ∧
    (s.mem (linkAddress trbs)).control / 2 % 2 = 1
  consumer : ConsumerAt trbs s.seen.length s.consumer

theorem ringStart_inv (hmem : ∀ i < usbTrbs, mem (trbAddress trbs i) = ⟨0, 0, 0⟩) :
    RingInv trbs (ringStart mem trbs) 0 0 where
  phase := .idle rfl rfl rfl
  ring := by
    have hbit : lapBit 63 0 = true := lapBit_zero 63
    rw [ringStart, List.length_nil, hbit]
  order := rfl
  visible := Nat.le_refl 0
  room := Nat.zero_le _
  puts := fun x hx => absurd hx List.not_mem_nil
  bits := fun i hi => congrArg (fun t => t.control % 2) (hmem i (Nat.lt_succ_of_lt hi))
  holds := fun k _ hk => absurd hk (Nat.not_lt_zero k)
  linkBit := congrArg (fun t => t.control % 2) (hmem 63 (by decide))
  link := fun h => absurd h (Nat.lt_irrefl 0)
  consumer := by
    have hslot : ConsumerAt trbs 0 ⟨slotAddress trbs 0, lapBit 63 0⟩ := .slot
    exact hslot

/-- Between two puts everything is visible. -/
theorem Phase.of_idle (h : Phase trbs s d w) (hidle : s.pending = []) :
    d = s.puts.length ∧ w = d / 63 := by
  cases h with
  | idle _ hd hw => exact ⟨hd, hw⟩
  | slot parameter status control done hpending _ _ hdone =>
    rw [hidle] at hpending
    have hlength := congrArg List.length hpending
    rw [List.length_append, List.length_drop, slotStores, List.length_nil] at hlength
    simp only [List.length_cons] at hlength
    omega
  | link k done _ _ hpending _ hdone =>
    rw [hidle] at hpending
    have hlength := congrArg List.length hpending
    rw [List.length_drop, linkStores, List.length_nil] at hlength
    simp only [List.length_cons] at hlength
    omega

/-! ## A put -/

theorem usbRingPut_at (trbs k parameter status control : ℕ) :
    usbRingPut ⟨trbs, k % 63, lapBit 63 k⟩ parameter status control =
      (⟨trbs, (k + 1) % 63, lapBit 63 (k + 1)⟩,
        slotStores trbs k parameter status control ++
          (if (k + 1) % 63 = 0 then linkStores trbs k else []), slotAddress trbs k) := by
  rw [usbRingPut]
  by_cases hlap : (k + 1) % 63 = 0
  · have hend : k % 63 + 1 = usbTrbs - 1 := by
      rw [usbTrbs]
      omega
    dsimp only
    rw [if_pos hend, if_pos hlap, hlap, lapBit_succ_of_mod_eq_zero hlap]
    rfl
  · have hend : ¬k % 63 + 1 = usbTrbs - 1 := by
      rw [usbTrbs]
      omega
    have hsucc : (k + 1) % 63 = k % 63 + 1 := by omega
    dsimp only
    rw [if_neg hend, if_neg hlap, hsucc, lapBit_succ hlap, List.append_nil]
    rfl

theorem RingInv.put (h : RingInv trbs s d w) (hidle : s.pending = []) (htype : trbType control ≠ 6)
    (hroom : s.puts.length + 1 ≤ s.seen.length + 62) :
    RingInv trbs (s.put parameter status control) d w := by
  obtain ⟨hd, hw⟩ := h.phase.of_idle hidle
  have hput := usbRingPut_at trbs s.puts.length parameter status control
  rw [← h.ring] at hput
  have hputs : (s.put parameter status control).puts =
      s.puts ++ [⟨slotAddress trbs s.puts.length, parameter, status, control / 2⟩] := by
    rw [RingState.put, hput]
  have hlength : (s.put parameter status control).puts.length = s.puts.length + 1 := by
    rw [hputs, List.length_append, List.length_singleton]
  have hseen : s.seen.length ≤ s.puts.length := hd ▸ h.visible
  refine ⟨.slot parameter status control 0 ?_ (fun h0 => absurd h0 (Nat.lt_irrefl 0))
    (fun h0 => absurd h0 (Nat.not_lt_zero 1)) (by decide) ?_ hw ?_, ?_, ?_, h.visible, ?_, ?_,
    h.bits, ?_, h.linkBit, h.link, h.consumer⟩
  · rw [RingState.put, hput, hd]
    rfl
  · rw [hlength, hd]
  · rw [hputs, hd, List.getElem?_concat_length]
  · rw [hlength, RingState.put, hput]
  · have horder := h.order
    rw [← List.take_append_of_le_length hseen, ← hputs] at horder
    exact horder
  · rw [hlength]
    exact hroom
  · intro x hx
    rw [hputs] at hx
    rcases List.mem_append.1 hx with hx | hx
    · exact h.puts x hx
    · rw [List.mem_singleton.1 hx, trbType_eq (k := control) (by dsimp only; omega)]
      exact htype
  · intro k hk hkd
    rw [hputs, List.getElem?_append_left (hd ▸ hkd)]
    exact h.holds k hk hkd

/-! ## A store -/

@[simp] theorem RingState.after_mem (s : RingState) (st : Store) (rest : List Store) :
    (s.after st rest).mem = st.apply s.mem := rfl

@[simp] theorem RingState.after_puts (s : RingState) (st : Store) (rest : List Store) :
    (s.after st rest).puts = s.puts := rfl

@[simp] theorem RingState.after_pending (s : RingState) (st : Store) (rest : List Store) :
    (s.after st rest).pending = rest := rfl

variable {st : Store} {rest : List Store}

/-- Stores that keep the control words, the TRBs to come and the target of the link. -/
theorem RingInv.stored (h : RingInv trbs s d w) (hphase : Phase trbs (s.after st rest) d w)
    (hcontrol : ∀ a, (st.apply s.mem a).control = (s.mem a).control)
    (hsame : ∀ k, s.seen.length ≤ k → k < d → st.apply s.mem (slotAddress trbs k) = s.mem (slotAddress trbs k))
    (hlink : 0 < w → (st.apply s.mem (linkAddress trbs)).parameter = trbs) :
    RingInv trbs (s.after st rest) d w := by
  refine ⟨hphase, h.ring, h.order, h.visible, h.room, h.puts, fun i hi => ?_,
    fun k hk hkd => ?_, ?_, fun hw => ⟨hlink hw, ?_, ?_⟩, h.consumer⟩
  · rw [RingState.after_mem, hcontrol]
    exact h.bits i hi
  · rw [RingState.after_mem, workAt, hsame k hk hkd]
    exact h.holds k hk hkd
  · rw [RingState.after_mem, hcontrol]
    exact h.linkBit
  · rw [RingState.after_mem, hcontrol]
    exact (h.link hw).2.1
  · rw [RingState.after_mem, hcontrol]
    exact (h.link hw).2.2

/-- The TRBs to come are in other slots than the one that is written. -/
theorem slotAddress_ne_new (h : RingInv trbs s d w) (hd : d + 1 = s.puts.length)
    (hk : s.seen.length ≤ k) (hkd : k < d) : slotAddress trbs k ≠ slotAddress trbs d := by
  have hroom := h.room
  exact slotAddress_ne hkd (by omega)

theorem RingInv.store_parameter (h : RingInv trbs s d w) (hd : d + 1 = s.puts.length)
    (hphase : Phase trbs (s.after (.parameter (slotAddress trbs d) parameter) rest) d w) :
    RingInv trbs (s.after (.parameter (slotAddress trbs d) parameter) rest) d w := by
  refine h.stored hphase (fun a => ?_) (fun k hk hkd => ?_) fun hw => ?_
  · rw [Store.apply]
    by_cases ha : a = slotAddress trbs d
    · rw [ha, Function.update_self]
    · rw [Function.update_of_ne ha]
  · rw [Store.apply, Function.update_of_ne (slotAddress_ne_new h hd hk hkd)]
  · rw [Store.apply, Function.update_of_ne (slotAddress_ne_link trbs d).symm]
    exact (h.link hw).1

theorem RingInv.store_status (h : RingInv trbs s d w) (hd : d + 1 = s.puts.length)
    (hphase : Phase trbs (s.after (.status (slotAddress trbs d) status) rest) d w) :
    RingInv trbs (s.after (.status (slotAddress trbs d) status) rest) d w := by
  refine h.stored hphase (fun a => ?_) (fun k hk hkd => ?_) fun hw => ?_
  · rw [Store.apply]
    by_cases ha : a = slotAddress trbs d
    · rw [ha, Function.update_self]
    · rw [Function.update_of_ne ha]
  · rw [Store.apply, Function.update_of_ne (slotAddress_ne_new h hd hk hkd)]
  · rw [Store.apply, Function.update_of_ne (slotAddress_ne_link trbs d).symm]
    exact (h.link hw).1

/-- The control word makes a new TRB visible. -/
theorem RingInv.store_control (h : RingInv trbs s d w) (hd : d + 1 = s.puts.length)
    (hput : s.puts[d]? = some ⟨slotAddress trbs d, parameter, status, control / 2⟩)
    (hparameter : (s.mem (slotAddress trbs d)).parameter = parameter)
    (hstatus : (s.mem (slotAddress trbs d)).status = status)
    (hphase : Phase trbs (s.after (.control (slotAddress trbs d) (withCycle control (lapBit 63 d))) rest) (d + 1) w) :
    
    RingInv trbs (s.after (.control (slotAddress trbs d) (withCycle control (lapBit 63 d))) rest)
      (d + 1) w := by
  have hlink : Store.apply s.mem
      (.control (slotAddress trbs d) (withCycle control (lapBit 63 d))) (linkAddress trbs) =
      s.mem (linkAddress trbs) := Function.update_of_ne (slotAddress_ne_link trbs d).symm _ _
  refine ⟨hphase, h.ring, h.order, Nat.le_succ_of_le h.visible, h.room, h.puts, fun i hi => ?_,
    fun k hk hkd => ?_, ?_, fun hw => ?_, h.consumer⟩
  · rw [RingState.after_mem, slotBit_succ]
    by_cases hi' : i = d % 63
    · rw [if_pos hi', hi', Store.apply, Function.update_self, withCycle_mod]
    · rw [if_neg hi', Store.apply, Function.update_of_ne (fun ha => hi' (trbAddress_inj.1 ha))]
      exact h.bits i hi
  · rcases Nat.lt_succ_iff_lt_or_eq.1 hkd with hkd | rfl
    · rw [RingState.after_mem, workAt, Store.apply, Function.update_of_ne (slotAddress_ne_new h hd hk hkd)]
      exact h.holds k hk hkd
    · rw [RingState.after_mem, workAt, Store.apply, Function.update_self, withCycle_div]
      dsimp only
      rw [hparameter, hstatus]
      exact hput
  · rw [RingState.after_mem, hlink]
    exact h.linkBit
  · rw [RingState.after_mem, hlink]
    exact h.link hw

/-- The parameter and the status of the link stay what they were, from the first lap on. -/
theorem RingInv.store_link (h : RingInv trbs s d w)
    (hst : st = .parameter (linkAddress trbs) trbs ∨ st = .status (linkAddress trbs) 0)
    (hphase : Phase trbs (s.after st rest) d w) : RingInv trbs (s.after st rest) d w := by
  refine h.stored hphase (fun a => ?_) (fun k _ _ => ?_) fun hw => ?_
  · rcases hst with rfl | rfl <;> rw [Store.apply] <;> by_cases ha : a = linkAddress trbs
    · rw [ha, Function.update_self]
    · rw [Function.update_of_ne ha]
    · rw [ha, Function.update_self]
    · rw [Function.update_of_ne ha]
  · rcases hst with rfl | rfl <;>
      rw [Store.apply, Function.update_of_ne (slotAddress_ne_link trbs k)]
  · rcases hst with rfl | rfl <;> rw [Store.apply, Function.update_self]
    exact (h.link hw).1

theorem RingInv.store_linkControl (h : RingInv trbs s (k + 1) w) (hlap : (k + 1) % 63 = 0)
    (hw : w + 1 = (k + 1) / 63) (hparameter : (s.mem (linkAddress trbs)).parameter = trbs)
    (hphase : Phase trbs (s.after (.control (linkAddress trbs) (usbTrb 6 ||| 2 ||| (lapBit 63 k).toNat)) rest) (k + 1) (w + 1)) :
    
    RingInv trbs (s.after (.control (linkAddress trbs)
      (usbTrb 6 ||| 2 ||| (lapBit 63 k).toNat)) rest) (k + 1) (w + 1) := by
  obtain ⟨hbit, htype, htoggle⟩ := link_word (lapBit 63 k)
  have hslot : ∀ i < 63, Store.apply s.mem (.control (linkAddress trbs)
      (usbTrb 6 ||| 2 ||| (lapBit 63 k).toNat)) (trbAddress trbs i) = s.mem (trbAddress trbs i) :=
    fun i hi => Function.update_of_ne (fun ha => absurd (trbAddress_inj.1 ha) (by omega)) _ _
  refine ⟨hphase, h.ring, h.order, h.visible, h.room, h.puts, fun i hi => ?_,
    fun j hj hjd => ?_, ?_, fun _ => ?_, h.consumer⟩
  · rw [RingState.after_mem, hslot i hi]
    exact h.bits i hi
  · rw [RingState.after_mem, workAt, hslot _ (Nat.mod_lt j (by decide))]
    exact h.holds j hj hjd
  · have hlaps : k / 63 = w := by omega
    rw [RingState.after_mem, slotBit_succ, if_pos (Nat.mod_one w).symm, Store.apply, Function.update_self, hbit,
      lapBit_lap, hlaps]
  · rw [RingState.after_mem, Store.apply, Function.update_self]
    exact ⟨hparameter, htype, htoggle⟩

theorem RingInv.store_slot (h : RingInv trbs s d w) (parameter status control done : ℕ)
    (hpending : s.pending = st :: rest)
    (hstores : s.pending = (slotStores trbs d parameter status control).drop done ++ if (d + 1) % 63 = 0 then linkStores trbs d else [])
    (hparameter : 0 < done → (s.mem (slotAddress trbs d)).parameter = parameter)
    (hstatus : 1 < done → (s.mem (slotAddress trbs d)).status = status) (hdone : done < 3)
    (hd : d + 1 = s.puts.length) (hw : w = d / 63)
    (hput : s.puts[d]? = some ⟨slotAddress trbs d, parameter, status, control / 2⟩) :
    ∃ d' w', RingInv trbs (s.after st rest) d' w' := by
  rw [hpending] at hstores
  obtain rfl | rfl | rfl : done = 0 ∨ done = 1 ∨ done = 2 := by omega
  · obtain ⟨rfl, rfl⟩ := List.cons.inj hstores
    refine ⟨d, w, h.store_parameter hd (.slot parameter status control 1 rfl (fun _ => ?_)
      (fun h1 => absurd h1 (Nat.lt_irrefl 1)) (by decide) hd hw hput)⟩
    rw [RingState.after_mem, Store.apply, Function.update_self]
  · obtain ⟨rfl, rfl⟩ := List.cons.inj hstores
    refine ⟨d, w, h.store_status hd (.slot parameter status control 2 rfl (fun _ => ?_)
      (fun _ => ?_) (by decide) hd hw hput)⟩
    · rw [RingState.after_mem, Store.apply, Function.update_self]
      exact hparameter Nat.one_pos
    · rw [RingState.after_mem, Store.apply, Function.update_self]
  · obtain ⟨rfl, rfl⟩ := List.cons.inj hstores
    refine ⟨d + 1, w, h.store_control hd hput (hparameter (by decide)) (hstatus (by decide)) ?_⟩
    by_cases hlap : (d + 1) % 63 = 0
    · refine .link d 0 rfl hlap ?_ (fun h0 => absurd h0 (Nat.lt_irrefl 0)) (by decide) hd (by omega)
      rw [RingState.after_pending, if_pos hlap]
      rfl
    · refine .idle ?_ hd (by omega)
      rw [RingState.after_pending, if_neg hlap]
      rfl

theorem RingInv.store_lap (h : RingInv trbs s (k + 1) w) (done : ℕ) (hlap : (k + 1) % 63 = 0)
    (hpending : s.pending = st :: rest) (hstores : s.pending = (linkStores trbs k).drop done)
    (hparameter : 0 < done → (s.mem (linkAddress trbs)).parameter = trbs) (hdone : done < 3)
    (hd : k + 1 = s.puts.length) (hw : w + 1 = (k + 1) / 63) :
    ∃ d' w', RingInv trbs (s.after st rest) d' w' := by
  rw [hpending] at hstores
  obtain rfl | rfl | rfl : done = 0 ∨ done = 1 ∨ done = 2 := by omega
  · obtain ⟨rfl, rfl⟩ := List.cons.inj hstores
    refine ⟨k + 1, w, h.store_link (.inl rfl) (.link k 1 rfl hlap rfl (fun _ => ?_) (by decide) hd
      hw)⟩
    rw [RingState.after_mem, Store.apply, Function.update_self]
  · obtain ⟨rfl, rfl⟩ := List.cons.inj hstores
    refine ⟨k + 1, w, h.store_link (.inr rfl) (.link k 2 rfl hlap rfl (fun _ => ?_) (by decide) hd
      hw)⟩
    rw [RingState.after_mem, Store.apply, Function.update_self]
    exact hparameter Nat.one_pos
  · obtain ⟨rfl, rfl⟩ := List.cons.inj hstores
    exact ⟨k + 1, w + 1, h.store_linkControl hlap hw (hparameter (by decide)) (.idle rfl hd hw)⟩

theorem RingInv.store (h : RingInv trbs s d w) (hpending : s.pending = st :: rest) :
    ∃ d' w', RingInv trbs (s.after st rest) d' w' := by
  cases h.phase with
  | idle hidle =>
    rw [hpending] at hidle
    cases hidle
  | slot parameter status control done hstores hparameter hstatus hdone hd hw hput =>
    exact h.store_slot parameter status control done hpending hstores hparameter hstatus hdone hd
      hw hput
  | link k done hk hlap hstores hparameter hdone hd hw =>
    subst hk
    exact h.store_lap done hlap hpending hstores hparameter hdone hd hw

/-! ## A look of the controller -/

/-- The next address is that of the next TRB, or of the link. -/
theorem ConsumerAt.next (trbs c : ℕ) :
    ConsumerAt trbs (c + 1) ⟨slotAddress trbs c + 16, lapBit 63 c⟩ := by
  by_cases hlap : (c + 1) % 63 = 0
  · have haddress : slotAddress trbs c + 16 = linkAddress trbs := by
      simp only [slotAddress, linkAddress, trbAddress]
      omega
    have hbit : lapBit 63 c = !lapBit 63 (c + 1) := by
      rw [lapBit_succ_of_mod_eq_zero hlap, Bool.not_not]
    rw [haddress, hbit]
    exact .link hlap (Nat.succ_pos c)
  · have haddress : slotAddress trbs c + 16 = slotAddress trbs (c + 1) := by
      simp only [slotAddress, trbAddress]
      omega
    rw [haddress, ← lapBit_succ hlap]
    exact .slot

/-- A look at a slot: the next TRB is processed, if it is visible. -/
theorem step_slot (h : RingInv trbs s d w)
    (hconsumer : s.consumer = ⟨slotAddress trbs s.seen.length, lapBit 63 s.seen.length⟩) :
    s.consumer.step s.mem =
      if s.seen.length < d then
        (⟨slotAddress trbs s.seen.length + 16, lapBit 63 s.seen.length⟩,
          some (workAt s.mem (slotAddress trbs s.seen.length)))
      else (s.consumer, none) := by
  have hroom := h.room
  have hd : d ≤ s.puts.length := by cases h.phase <;> omega
  have hbits := h.bits (s.seen.length % 63) (Nat.mod_lt _ (by decide))
  have hiff := slotBit_eq_iff (n := 63) (by decide) h.visible (by omega)
  rw [hconsumer, Consumer.step]
  dsimp only
  by_cases hnew : s.seen.length < d
  · have hsame : (s.mem (slotAddress trbs s.seen.length)).control % 2 =
        (lapBit 63 s.seen.length).toNat := hbits.trans (congrArg Bool.toNat (hiff.2 hnew))
    have hitem := h.holds s.seen.length (Nat.le_refl _) hnew
    have htype := h.puts _ (List.mem_of_getElem? hitem)
    have hlink : trbType (s.mem (slotAddress trbs s.seen.length)).control ≠ 6 := by
      rw [workAt] at htype
      dsimp only at htype
      rwa [trbType_eq (k := (s.mem (slotAddress trbs s.seen.length)).control) (by omega)] at htype
    rw [if_pos hnew, if_neg (not_not.2 hsame), if_neg hlink]
    rfl
  · have hother : (s.mem (slotAddress trbs s.seen.length)).control % 2 ≠
        (lapBit 63 s.seen.length).toNat := by
      rw [hbits, toNat_ne_iff]
      exact fun heq => hnew (hiff.1 heq)
    rw [if_neg hnew, if_pos hother]

/-- A look at the link: it is followed, if it is written. -/
theorem step_link (h : RingInv trbs s d w)
    (hconsumer : s.consumer = ⟨linkAddress trbs, !lapBit 63 s.seen.length⟩)
    (hlap : s.seen.length % 63 = 0) (hpos : 0 < s.seen.length) :
    s.consumer.step s.mem =
      (if s.seen.length / 63 ≤ w then ⟨slotAddress trbs s.seen.length, lapBit 63 s.seen.length⟩
        else s.consumer, none) := by
  have hroom := h.room
  have hvisible := h.visible
  obtain ⟨l, hl⟩ : ∃ l, s.seen.length / 63 = l + 1 := ⟨s.seen.length / 63 - 1, by omega⟩
  have hwl : l ≤ w ∧ w ≤ l + 1 := by cases h.phase <;> omega
  have hiff := slotBit_eq_iff (n := 1) Nat.one_pos hwl.1 hwl.2
  rw [Nat.mod_one] at hiff
  have hbit : (!lapBit 63 s.seen.length) = lapBit 1 l := by
    rw [lapBit_lap, hl, lapBit_add Nat.one_pos, Bool.not_not]
  have haddress : slotAddress trbs s.seen.length = trbs := by
    simp only [slotAddress, trbAddress, hlap, Nat.mul_zero, Nat.add_zero]
  rw [hconsumer, Consumer.step]
  dsimp only
  rw [h.linkBit, hbit, hl]
  by_cases hw : l + 1 ≤ w
  · obtain ⟨hparameter, htype, htoggle⟩ := h.link (by omega)
    have hsame : (slotBit 1 w 0).toNat = (lapBit 1 l).toNat :=
      congrArg Bool.toNat (hiff.2 (by omega))
    rw [if_pos hw, if_neg (not_not.2 hsame), if_pos htype, if_pos htoggle, hparameter, haddress,
      ← hbit, Bool.not_not]
  · have hother : (slotBit 1 w 0).toNat ≠ (lapBit 1 l).toNat := by
      rw [toNat_ne_iff]
      exact fun heq => hw (hiff.1 heq)
    rw [if_neg hw, if_pos hother]

/-- A look changes none of the stores to come. -/
theorem Phase.consume (h : Phase trbs s d w) : Phase trbs s.consume d w := by
  cases h with
  | idle hpending hd hw => exact .idle hpending hd hw
  | slot parameter status control done hpending hparameter hstatus hdone hd hw hput =>
    exact .slot parameter status control done hpending hparameter hstatus hdone hd hw hput
  | link k done hk hlap hpending hparameter hdone hd hw =>
    exact .link k done hk hlap hpending hparameter hdone hd hw

theorem RingInv.moved (h : RingInv trbs s d w) {c : Consumer}
    (hstep : s.consumer.step s.mem = (c, none)) (hc : ConsumerAt trbs s.seen.length c) :
    RingInv trbs s.consume d w ∧ s.consume.seen = s.seen := by
  have hseen : s.consume.seen = s.seen := by
    rw [RingState.consume, hstep]
    exact List.append_nil _
  have hconsumer : s.consume.consumer = c := by rw [RingState.consume, hstep]
  refine ⟨⟨h.phase.consume, h.ring, ?_, ?_, ?_, h.puts, h.bits, ?_, h.linkBit, h.link, ?_⟩, hseen⟩ <;>
    rw [hseen]
  · exact h.order
  · exact h.visible
  · exact h.room
  · exact h.holds
  · rw [hconsumer]
    exact hc

theorem RingInv.processed (h : RingInv trbs s d w)
    (hconsumer : s.consumer = ⟨slotAddress trbs s.seen.length, lapBit 63 s.seen.length⟩)
    (hnew : s.seen.length < d) :
    RingInv trbs s.consume d w ∧ s.consume.seen.length = s.seen.length + 1 := by
  have hstep := step_slot h hconsumer
  rw [if_pos hnew] at hstep
  have hseen : s.consume.seen = s.seen ++ [workAt s.mem (slotAddress trbs s.seen.length)] := by
    rw [RingState.consume, hstep]
    rfl
  have hlength : s.consume.seen.length = s.seen.length + 1 := by
    rw [hseen, List.length_append, List.length_singleton]
  have hnext : s.consume.consumer =
      ⟨slotAddress trbs s.seen.length + 16, lapBit 63 s.seen.length⟩ := by
    rw [RingState.consume, hstep]
  have hroom := h.room
  refine ⟨⟨h.phase.consume, h.ring, ?_, ?_, ?_, h.puts, h.bits, ?_, h.linkBit, h.link, ?_⟩, hlength⟩ <;>
    rw [hlength]
  · have hitem := h.holds s.seen.length (Nat.le_refl _) hnew
    have hputs : s.consume.puts = s.puts := rfl
    rw [hseen, hputs, List.take_add_one, hitem, ← h.order]
    rfl
  · exact hnew
  · exact Nat.le_succ_of_le hroom
  · exact fun k hk hkd => h.holds k (Nat.le_of_succ_le hk) hkd
  · rw [hnext]
    exact .next trbs s.seen.length

/-- **A look keeps the invariant.** -/
theorem RingInv.consume (h : RingInv trbs s d w) : RingInv trbs s.consume d w := by
  generalize hconsumer : s.consumer = c
  have hat := h.consumer
  rw [hconsumer] at hat
  cases hat with
  | slot =>
    by_cases hnew : s.seen.length < d
    · exact (h.processed hconsumer hnew).1
    · have hstep := step_slot h hconsumer
      rw [if_neg hnew] at hstep
      exact (h.moved hstep h.consumer).1
  | link hlap hpos =>
    have hstep := step_link h hconsumer hlap hpos
    refine (h.moved hstep ?_).1
    split
    · exact .slot
    · exact h.consumer

/-- **Every reachable state has the invariant.** -/
theorem RingReach.inv (h : RingReach trbs s) : ∃ d w, RingInv trbs s d w := by
  induction h with
  | start mem hmem => exact ⟨0, 0, ringStart_inv hmem⟩
  | put parameter status control _ hidle htype hroom ih =>
    obtain ⟨d, w, hinv⟩ := ih
    exact ⟨d, w, hinv.put hidle htype hroom⟩
  | store _ hpending ih =>
    obtain ⟨d, w, hinv⟩ := ih
    exact hinv.store hpending
  | consume _ ih =>
    obtain ⟨d, w, hinv⟩ := ih
    exact ⟨d, w, hinv.consume⟩

/-! ## Nothing is lost -/

theorem consume_iterate_puts (s : RingState) (n : ℕ) :
    (RingState.consume^[n] s).puts = s.puts ∧ (RingState.consume^[n] s).pending = s.pending := by
  induction n generalizing s with
  | zero => exact ⟨rfl, rfl⟩
  | succ n ih => exact ih s.consume

/-- Between puts, one or two looks process the next TRB. -/
theorem RingInv.progress (h : RingInv trbs s d w) (hidle : s.pending = [])
    (hlt : s.seen.length < s.puts.length) :
    ∃ n, RingInv trbs (RingState.consume^[n] s) d w ∧
      (RingState.consume^[n] s).seen.length = s.seen.length + 1 := by
  obtain ⟨hd, hw⟩ := h.phase.of_idle hidle
  generalize hconsumer : s.consumer = c
  have hat := h.consumer
  rw [hconsumer] at hat
  cases hat with
  | slot => exact ⟨1, h.processed hconsumer (hd ▸ hlt)⟩
  | link hlap hpos =>
    have hstep := step_link h hconsumer hlap hpos
    have hwritten : s.seen.length / 63 ≤ w := by omega
    rw [if_pos hwritten] at hstep
    obtain ⟨hinv, hseen⟩ := h.moved hstep .slot
    have hconsumer' : s.consume.consumer =
        ⟨slotAddress trbs s.consume.seen.length, lapBit 63 s.consume.seen.length⟩ := by
      rw [hseen, RingState.consume, hstep]
    have hnew : s.consume.seen.length < d := by
      rw [hseen, hd]
      exact hlt
    obtain ⟨hinv', hlength⟩ := hinv.processed hconsumer' hnew
    exact ⟨2, hinv', hlength.trans (by rw [hseen])⟩

/-- **The controller gets to the end** of what is put. -/
theorem RingInv.drains (h : RingInv trbs s d w) (hidle : s.pending = []) :
    ∃ n, (RingState.consume^[n] s).seen = s.puts := by
  induction hleft : s.puts.length - s.seen.length generalizing s with
  | zero =>
    refine ⟨0, ?_⟩
    have horder := h.order
    rwa [List.take_of_length_le (by omega)] at horder
  | succ left ih =>
    obtain ⟨n, hinv, hlength⟩ := h.progress hidle (by omega)
    obtain ⟨hputs, hpending⟩ := consume_iterate_puts s n
    obtain ⟨m, hm⟩ := ih hinv (hpending.trans hidle) (by rw [hputs, hlength]; omega)
    refine ⟨m + n, ?_⟩
    rw [Function.iterate_add_apply, hm, hputs]

end ZealBringup.Usb
