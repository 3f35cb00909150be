import ZealBringup.Pi4.Hid

/-!
# Completions of the HID devices

* `busCompletion_cases` — the owner of an event.
* `Waiting`, `Turn` — a device without and with a TRB that is outstanding.
* `HidInv` — the invariant of a run; `HidInv.event`: what an event does to it.
* `hid_completions` — every state of a run is safe.
-/

namespace ZealBringup.Pi4

open Stores
open ZealBringup.Usb (trbType pi4UsbKeyboardDecode KeyCall)

variable {first bus : Bus} {queued decoded : List (ℕ × ℕ)} {i n : ℕ} {e : Event} {env : HidEnv}

/-! ## Owners -/

/-- The four checks that a transfer event passes. -/
theorem checkMask_low (e : Event) (trbBus slot dci : ℕ) :
    transferEventCheckMask e trbBus slot dci &&& 0x0f = 0x0f ↔
      trbType e.control = trbTypeTransferEvt ∧ e.control / 2 ^ 16 % 32 = dci ∧
        e.control / 2 ^ 24 % 256 = slot ∧ e.parameter / 16 = trbBus / 16 := by
  unfold transferEventCheckMask
  split_ifs <;> simp_all

/-- A pending TRB whose events are told. -/
structure Pending.Ready (p : Pending) : Prop where
  trb : p.trb % 16 = 0
  slot : 1 ≤ p.slot ∧ p.slot ≤ 6
  dci : 3 ≤ p.dci ∧ p.dci ≤ 31
  length : 1 ≤ p.minimum ∧ p.minimum ≤ p.requested ∧ p.requested ≤ 64

/-- An event of the endpoint of a TRB is right if it names the TRB, with its code and its residue. -/
theorem Pending.Ready.bulkEventOk {p : Pending} (h : p.Ready) (howns : p.Owns e) :
    bulkEventOk e p.trb p.slot p.dci p.requested 1 =
      if e.control / 4 % 2 = 1 ∨ e.parameter / 16 ≠ p.trb / 16 ∨ e.status % 2 ^ 24 > p.requested ∨
        ¬((e.status / 2 ^ 24 = 1 ∧ e.status % 2 ^ 24 = 0) ∨ e.status / 2 ^ 24 = 13) then none
      else some (p.requested - e.status % 2 ^ 24) := by
  obtain ⟨htrb, hslot, hdci, hlength⟩ := h
  obtain ⟨htype, hownSlot, hownDci⟩ := howns
  have hmask : (transferEventCheckMask e p.trb p.slot p.dci &&& 0x0f ≠ 0x0f) ↔
      e.parameter / 16 ≠ p.trb / 16 := by
    rw [not_iff_not, checkMask_low]
    have hbyte : e.control / 2 ^ 24 % 256 = p.slot := by omega
    exact ⟨fun hall => hall.2.2.2, fun hpointer => ⟨htype, hownDci, hbyte, hpointer⟩⟩
  unfold Pi4.bulkEventOk
  dsimp only
  refine if_congr ?_ rfl rfl
  constructor
  · rintro (h | h | h | h | h | h | h | h | h | h)
    all_goals omega
  · rintro (h | h | h | h)
    · exact .inr (.inr (.inr (.inr (.inr (.inr (.inl h))))))
    · exact .inr (.inr (.inr (.inr (.inr (.inr (.inr (.inl (hmask.mpr h))))))))
    · exact .inr (.inr (.inr (.inr (.inr (.inr (.inr (.inr (.inl h))))))))
    · exact .inr (.inr (.inr (.inr (.inr (.inr (.inr (.inr (.inr
        fun hcode => h (hcode.imp_right And.right)))))))))

/-- An event of the endpoint of a TRB: it completes it, or is bad. -/
theorem Pending.Ready.event {p : Pending} (h : p.Ready) (howns : p.Owns e) :
    (p.Completes e ∧ Pi4.bulkEventOk e p.trb p.slot p.dci p.requested 1 =
        some (p.requested - e.status % 2 ^ 24) ∧ ¬p.requested - e.status % 2 ^ 24 < p.minimum) ∨
      ¬p.Completes e ∧ (Pi4.bulkEventOk e p.trb p.slot p.dci p.requested 1 = none ∨
        ∃ actual < p.minimum, Pi4.bulkEventOk e p.trb p.slot p.dci p.requested 1 = some actual) := by
  rw [h.bulkEventOk howns]
  have htrb := h.trb
  split
  · rename_i hbad
    refine .inr ⟨?_, .inl rfl⟩
    rintro ⟨-, hdata, hnames, hcode, hlong⟩
    rcases hbad with hbad | hbad | hbad | hbad
    · omega
    · omega
    · omega
    · exact hbad hcode
  · rename_i hgood
    rw [not_or, not_or, not_or, not_not, not_not] at hgood
    obtain ⟨hdata, hpointer, hresidue, hcode⟩ := hgood
    by_cases hlong : p.requested - e.status % 2 ^ 24 < p.minimum
    · refine .inr ⟨fun hcompletes => ?_, .inr ⟨_, hlong, rfl⟩⟩
      have := hcompletes.length
      omega
    · exact .inl ⟨⟨howns, by omega, by omega, hcode, by omega⟩, rfl, hlong⟩

/-- The owner of an event: none, or a device whose TRB it completes, or a device for which it is bad. -/
theorem busCompletion_cases {pending : ℕ → Pending} {count : ℕ} (hcount : count ≤ busChildren)
    (hready : ∀ i < count, (pending i).trb ≠ 0 → (pending i).Ready) (e : Event) :
    (busCompletion pending count e = (0, 0) ∧ ∀ i < count, (pending i).trb ≠ 0 → ¬(pending i).Owns e) ∨
      ∃ i < count, (pending i).trb ≠ 0 ∧ (pending i).Owns e ∧
        ((pending i).Completes e ∧ busCompletion pending count e =
            ((i : ℤ) + 1, (pending i).requested - e.status % 2 ^ 24) ∨
          ¬(pending i).Completes e ∧ (busCompletion pending count e).1 = -1) := by
  unfold busCompletion
  rw [if_neg (by omega)]
  by_cases htype : trbType e.control = trbTypeTransferEvt
  · rw [if_neg (not_not.mpr htype)]
    cases hfind : (List.range count).find? fun i => (pending i).trb ≠ 0 ∧
        e.control / 2 ^ 24 = (pending i).slot ∧ e.control / 2 ^ 16 % 32 = (pending i).dci with
    | none =>
      refine .inl ⟨rfl, fun i hi htrb howns => ?_⟩
      have hnone := List.find?_eq_none.mp hfind i (List.mem_range.mpr hi)
      simp only [decide_eq_true_eq] at hnone
      exact hnone ⟨htrb, howns.slot, howns.endpoint⟩
    | some i =>
      have hi := List.mem_range.mp (List.mem_of_find?_eq_some hfind)
      have hmatch := List.find?_some hfind
      simp only [decide_eq_true_eq] at hmatch
      obtain ⟨htrb, hslot, hdci⟩ := hmatch
      have hp := hready i hi htrb
      have howns : (pending i).Owns e := ⟨htype, hslot, hdci⟩
      obtain ⟨hmin, hreq, hmax⟩ := hp.length
      refine .inr ⟨i, hi, htrb, howns, ?_⟩
      dsimp only
      rw [if_neg (by omega)]
      rcases hp.event howns with ⟨hcompletes, hok, hlong⟩ | ⟨hnot, hok | ⟨actual, hshort, hok⟩⟩
      · left
        rw [hok]
        exact ⟨hcompletes, if_neg hlong⟩
      · right
        rw [hok]
        exact ⟨hnot, rfl⟩
      · right
        rw [hok]
        dsimp only
        rw [if_pos hshort]
        exact ⟨hnot, rfl⟩
  · rw [if_pos htype]
    exact .inl ⟨rfl, fun i _ _ howns => htype howns.type⟩

/-! ## TRBs of a device -/

theorem trbsOf_append (i : ℕ) (xs ys : List (ℕ × ℕ)) : trbsOf i (xs ++ ys) = trbsOf i xs ++ trbsOf i ys := by
  simp [trbsOf]

@[simp] theorem trbsOf_nil (i : ℕ) : trbsOf i [] = [] := rfl

@[simp] theorem trbsOf_self (i a : ℕ) : trbsOf i [(i, a)] = [a] := by
  simp [trbsOf]

theorem trbsOf_other {i j : ℕ} (a : ℕ) (h : j ≠ i) : trbsOf j [(i, a)] = [] := by
  simp [trbsOf, h.symm]

/-- The address of a TRB of a device, numbered over all laps. -/
def BusDevice.address (d : BusDevice) (n : ℕ) : ℕ := d.inBus + 16 * (n % ringLink)

/-- What is pending for a TRB of a device. -/
def BusDevice.pendingFor (d : BusDevice) (n : ℕ) : Pending :=
  ⟨d.address n, d.slot, d.endpoint % 16 * 2 + 1, d.bytes, if d.role = 1 then 8 else 3⟩

/-- What the configuration of a device has fixed. -/
structure Fixed (d d' : BusDevice) : Prop where
  role : d'.role = d.role
  slot : d'.slot = d.slot
  endpoint : d'.endpoint = d.endpoint
  packet : d'.packet = d.packet
  ringIn : d'.ringIn = d.ringIn
  inBus : d'.inBus = d.inBus
  bufferBus : d'.bufferBus = d.bufferBus

/-- The first TRBs of a device are queued and decoded, and none is outstanding. -/
structure Waiting (first bus : Bus) (queued decoded : List (ℕ × ℕ)) (i n : ℕ) : Prop where
  fixed : Fixed (first.device i) (bus.device i)
  queued : trbsOf i queued = (List.range n).map (first.device i).address
  decoded : trbsOf i decoded = (List.range n).map (first.device i).address
  producer : (bus.device i).producer.At (ringLink + n)

/-- The first TRBs of a device are decoded, and the next one is outstanding. -/
structure Turn (first bus : Bus) (queued decoded : List (ℕ × ℕ)) (i n : ℕ) : Prop where
  fixed : Fixed (first.device i) (bus.device i)
  queued : trbsOf i queued = (List.range (n + 1)).map (first.device i).address
  decoded : trbsOf i decoded = (List.range n).map (first.device i).address
  pending : bus.pending i = (first.device i).pendingFor n
  producer : ∃ p : Producer, p.At (ringLink + n) ∧ (bus.device i).producer = p.advance

/-! ## Queueing -/

/-- **The next TRB of a device**: it is enqueued and pending, and the doorbell is rung. -/
theorem busQueue_eq (hd : HidDevice (first.device i)) (hfixed : Fixed (first.device i) (bus.device i))
    (hproducer : (bus.device i).producer.At (ringLink + n)) (env : HidEnv) :
    ∃ ring, busQueue env bus i =
      (env.write ((first.device i).slot * 4) ((first.device i).pendingFor n).dci &&
          env.read ((first.device i).slot * 4),
        { bus with
          device := Function.update bus.device i
            { bus.device i with producer := (bus.device i).producer.advance, ring := ring }
          pending := Function.update bus.pending i ((first.device i).pendingFor n) },
        [(i, (first.device i).address n)]) := by
  obtain ⟨hrole, hslot, hendpoint, hpacket, hringIn, hinBus, hbufferBus⟩ := hfixed
  obtain ⟨hindex, hcycle⟩ := hproducer.eq
  have hlinkIndex := ringLink_eq
  have hbytes : (bus.device i).bytes = (first.device i).bytes := by
    unfold BusDevice.bytes
    rw [hrole, hpacket]
  have hlength : 1 ≤ (first.device i).bytes ∧ (first.device i).bytes ≤ 64 := by
    have := hd.packet
    unfold BusDevice.bytes
    split <;> omega
  have hbuffer := hd.buffer
  have hring := hd.ring
  have hbus := hd.inBus
  have hseed : ∃ words, bulkNormalSeed ((bus.device i).bufferBus + 3072) (bus.device i).bytes 1
      (bus.device i).producer.cycle = some words ∧ trbType words.w3 ≠ trbTypeLink := by
    refine ⟨_, if_neg (by omega), ?_⟩
    have hbit : (bus.device i).producer.cycle = 0 ∨ (bus.device i).producer.cycle = 1 := by omega
    dsimp only
    rcases hbit with h | h <;> rw [h] <;> decide
  obtain ⟨words, hwords, htype⟩ := hseed
  have henqueue := @ringEnqueue_of_ok (bus.device i).producer (bus.device i).ringIn
    (bus.device i).inBus _ (by omega) (by omega) (by omega) (by omega) (by omega) htype
  have haddress : (bus.device i).inBus + (bus.device i).producer.index * 16 = (first.device i).address n := by
    unfold BusDevice.address
    rw [hlinkIndex]
    omega
  unfold busQueue
  dsimp only
  rw [hwords]
  dsimp only
  rw [henqueue]
  dsimp only
  rw [haddress, hslot, hendpoint, hbytes, hrole]
  exact ⟨_, rfl⟩

/-- What a device has at another device's turn. -/
theorem Turn.congr {bus' : Bus} {queued' decoded' : List (ℕ × ℕ)} (h : Turn first bus queued decoded i n)
    (hdevice : bus'.device i = bus.device i) (hpending : bus'.pending i = bus.pending i)
    (hqueued : trbsOf i queued' = trbsOf i queued) (hdecoded : trbsOf i decoded' = trbsOf i decoded) :
    Turn first bus' queued' decoded' i n := by
  obtain ⟨hfixed, hq, hd, hp, hproducer⟩ := h
  exact ⟨hdevice ▸ hfixed, hqueued.trans hq, hdecoded.trans hd, hpending.trans hp, hdevice ▸ hproducer⟩

theorem Waiting.congr {bus' : Bus} {queued' decoded' : List (ℕ × ℕ)}
    (h : Waiting first bus queued decoded i n) (hdevice : bus'.device i = bus.device i)
    (hqueued : trbsOf i queued' = trbsOf i queued) (hdecoded : trbsOf i decoded' = trbsOf i decoded) :
    Waiting first bus' queued' decoded' i n := by
  obtain ⟨hfixed, hq, hd, hproducer⟩ := h
  exact ⟨hdevice ▸ hfixed, hqueued.trans hq, hdecoded.trans hd, hdevice ▸ hproducer⟩

/-- A TRB is queued for a device: it is outstanding, and the other devices are as before. -/
theorem Waiting.queue (h : Waiting first bus queued decoded i n) (hd : HidDevice (first.device i))
    (env : HidEnv) :
    Turn first (busQueue env bus i).2.1 (queued ++ (busQueue env bus i).2.2) decoded i n ∧
      (busQueue env bus i).2.2 = [(i, (first.device i).address n)] ∧
      (∀ j, j ≠ i → (busQueue env bus i).2.1.device j = bus.device j ∧
        (busQueue env bus i).2.1.pending j = bus.pending j) ∧
      ((busQueue env bus i).2.1.count = bus.count ∧ (busQueue env bus i).2.1.keyboard = bus.keyboard ∧
        (busQueue env bus i).2.1.mouse = bus.mouse) := by
  obtain ⟨hfixed, hqueued, hdecoded, hproducer⟩ := h
  obtain ⟨ring, hqueue⟩ := busQueue_eq hd hfixed hproducer env
  rw [hqueue]
  refine ⟨⟨?_, ?_, hdecoded, Function.update_self .., ?_⟩, rfl, ?_, rfl, rfl, rfl⟩
  · dsimp only
    rw [Function.update_self]
    exact ⟨hfixed.role, hfixed.slot, hfixed.endpoint, hfixed.packet, hfixed.ringIn, hfixed.inBus,
      hfixed.bufferBus⟩
  · rw [trbsOf_append, hqueued, trbsOf_self, List.range_succ, List.map_append]
    rfl
  · dsimp only
    rw [Function.update_self]
    exact ⟨_, hproducer, rfl⟩
  · intro j hj
    exact ⟨Function.update_of_ne hj .., Function.update_of_ne hj ..⟩

/-! ## The invariant -/

/-- The invariant of a run. -/
structure HidInv (first bus : Bus) (queued decoded : List (ℕ × ℕ)) : Prop where
  fields : bus.count = first.count ∧ bus.keyboard = first.keyboard ∧ bus.mouse = first.mouse
  active : ∀ i, first.Active i → ∃ n, Turn first bus queued decoded i n
  inactive : ∀ i, ¬first.Active i →
    (bus.pending i).trb = 0 ∧ trbsOf i queued = [] ∧ trbsOf i decoded = []

theorem HidStart.device (h : HidStart first) (hi : first.Active i) : HidDevice (first.device i) := by
  rcases hi with rfl | rfl
  · exact h.keyboard.2.1
  · exact h.mouse.2.1

theorem HidStart.lt (h : HidStart first) (hi : first.Active i) : i < first.count := by
  rcases hi with rfl | rfl
  · exact h.keyboard.1
  · exact h.mouse.1

/-- Active devices are told by their slots. -/
theorem HidStart.unique (h : HidStart first) {i j : ℕ} (hi : first.Active i) (hj : first.Active j)
    (hslot : (first.device i).slot = (first.device j).slot) : i = j := by
  rcases hi with rfl | rfl <;> rcases hj with rfl | rfl
  · rfl
  · exact absurd hslot h.slots
  · exact absurd hslot.symm h.slots
  · rfl

/-- What is pending for a device is told from other events. -/
theorem pendingFor_ready {d : BusDevice} (hd : HidDevice d) (hrole : d.role = 1 ∨ d.role = 2) (n : ℕ) :
    (d.pendingFor n).Ready ∧ (d.pendingFor n).trb ≠ 0 := by
  obtain ⟨hslot, hendpoint, hpacket, -, ⟨hnull, haligned, -⟩, -, -⟩ := hd
  refine ⟨⟨?_, hslot, ?_, ?_⟩, ?_⟩
  · show (d.inBus + 16 * (n % ringLink)) % 16 = 0
    omega
  · show 3 ≤ d.endpoint % 16 * 2 + 1 ∧ d.endpoint % 16 * 2 + 1 ≤ 31
    omega
  · unfold BusDevice.pendingFor BusDevice.bytes
    rcases hrole with h | h
    · rw [h, if_pos rfl, if_pos rfl]
      dsimp only
      omega
    · rw [h, if_neg (by decide), if_neg (by decide)]
      dsimp only
      omega
  · show d.inBus + 16 * (n % ringLink) ≠ 0
    omega

theorem HidStart.role (h : HidStart first) (hi : first.Active i) :
    (first.device i).role = 1 ∨ (first.device i).role = 2 := by
  rcases hi with rfl | rfl
  · exact .inl h.keyboard.2.2
  · exact .inr h.mouse.2.2

/-- What an event is in a state of a run. -/
inductive EventKind (first bus : Bus) (queued decoded : List (ℕ × ℕ)) (e : Event) : Prop where
  | other (hcompletion : busCompletion bus.pending bus.count e = (0, 0))
      (hnone : ∀ i, first.Active i → ¬(bus.pending i).Owns e)
  | bad {i : ℕ} (hi : first.Active i) (howns : (bus.pending i).Owns e)
      (hnot : ∀ j, first.Active j → ¬(bus.pending j).Completes e)
      (hcompletion : (busCompletion bus.pending bus.count e).1 = -1)
  | good {i n : ℕ} (hi : first.Active i) (hturn : Turn first bus queued decoded i n)
      (hcompletes : (bus.pending i).Completes e)
      (honly : ∀ j, first.Active j → (bus.pending j).Completes e → j = i)
      (hcompletion : busCompletion bus.pending bus.count e =
        ((i : ℤ) + 1, (bus.pending i).requested - e.status % 2 ^ 24))

/-- **The kinds of events** in a state of a run. -/
theorem HidInv.kind (h : HidInv first bus queued decoded) (hfirst : HidStart first) (e : Event) :
    EventKind first bus queued decoded e := by
  obtain ⟨⟨hcount, -, -⟩, hactive, hinactive⟩ := h
  have hpending : ∀ i, (bus.pending i).trb ≠ 0 →
      first.Active i ∧ ∃ n, Turn first bus queued decoded i n := by
    intro i htrb
    by_cases hi : first.Active i
    · exact ⟨hi, hactive i hi⟩
    · exact absurd (hinactive i hi).1 htrb
  have hready : ∀ i, first.Active i → (bus.pending i).Ready ∧ (bus.pending i).trb ≠ 0 := by
    intro i hi
    obtain ⟨n, hturn⟩ := hactive i hi
    rw [hturn.pending]
    exact pendingFor_ready (hfirst.device hi) (hfirst.role hi) n
  have hunique : ∀ i j, first.Active i → first.Active j → (bus.pending i).Owns e →
      (bus.pending j).Owns e → j = i := by
    intro i j hi hj hownI hownJ
    obtain ⟨n, hturnI⟩ := hactive i hi
    obtain ⟨m, hturnJ⟩ := hactive j hj
    have hslotI := hownI.slot
    have hslotJ := hownJ.slot
    rw [hturnI.pending] at hslotI
    rw [hturnJ.pending] at hslotJ
    exact hfirst.unique hj hi (hslotJ.symm.trans hslotI)
  have hbound : bus.count ≤ busChildren := hcount ▸ hfirst.count
  rcases busCompletion_cases hbound (fun i _ htrb => (hready i (hpending i htrb).1).1) e with
    ⟨hcompletion, hnone⟩ | ⟨i, -, htrb, howns, ⟨hcompletes, hcompletion⟩ | ⟨hnot, hcompletion⟩⟩
  · exact .other hcompletion fun i hi =>
      hnone i (hcount ▸ hfirst.lt hi) (hready i hi).2
  · obtain ⟨hi, n, hturn⟩ := hpending i htrb
    exact .good hi hturn hcompletes (fun j hj hj' => hunique i j hi hj howns hj'.toOwns) hcompletion
  · obtain ⟨hi, -⟩ := hpending i htrb
    refine .bad hi howns (fun j hj hj' => hnot ?_) hcompletion
    obtain rfl := hunique i j hi hj howns hj'.toOwns
    exact hj'

/-! ## Events -/

theorem busDispatch_other (h : (busCompletion bus.pending bus.count e).1 ≤ 0) :
    busDispatch env bus e = ⟨(busCompletion bus.pending bus.count e).1, bus, [], [], []⟩ := by
  unfold busDispatch
  exact if_pos h

/-- The result of the decoder of a device. -/
def Bus.hidResult (bus : Bus) (env : HidEnv) (i actual : ℕ) : Bool × BusDevice × List KeyCall :=
  hidDecode env { bus.device i with reports := ((bus.device i).reports + 1) % 2 ^ 32 } (env.report i) actual

theorem busDispatch_owner {actual : ℕ}
    (h : busCompletion bus.pending bus.count e = ((i : ℤ) + 1, actual)) :
    busDispatch env bus e =
      if (bus.hidResult env i actual).1 then
        ⟨if (busQueue env (bus.decode env e i actual) i).1 then 1 else -1,
          (busQueue env (bus.decode env e i actual) i).2.1, [(i, actual)],
          (busQueue env (bus.decode env e i actual) i).2.2, (bus.hidResult env i actual).2.2⟩
      else ⟨-1, bus.decode env e i actual, [(i, actual)], [], (bus.hidResult env i actual).2.2⟩ := by
  unfold busDispatch
  have hpositive : ¬((i : ℤ) + 1 ≤ 0) := by omega
  have hindex : ((i : ℤ) + 1 - 1).toNat = i := by omega
  rw [h]
  dsimp only
  rw [if_neg hpositive, hindex]
  rfl

/-- A decoder keeps what is fixed, the ring and the producer. -/
theorem hidDecode_fixed (env : HidEnv) (d : BusDevice) (report : List UInt8) (actual : ℕ) :
    Fixed d (hidDecode env d report actual).2.1 ∧
      (hidDecode env d report actual).2.1.producer = d.producer := by
  unfold hidDecode
  split
  · exact ⟨⟨rfl, rfl, rfl, rfl, rfl, rfl, rfl⟩, rfl⟩
  · exact ⟨⟨rfl, rfl, rfl, rfl, rfl, rfl, rfl⟩, rfl⟩

/-- A report is decoded: the TRB of the device is not outstanding any more. -/
theorem Turn.decode (h : Turn first bus queued decoded i n) (hcompletes : (bus.pending i).Completes e)
    (env : HidEnv) (actual : ℕ) :
    Waiting first (bus.decode env e i actual) queued (decoded ++ [(i, e.parameter / 16 * 16)]) i (n + 1) := by
  obtain ⟨hfixed, hqueued, hdecoded, hpending, p, hat, hproducer⟩ := h
  obtain ⟨hkept, hsame⟩ := hidDecode_fixed env
    { bus.device i with reports := ((bus.device i).reports + 1) % 2 ^ 32 } (env.report i) actual
  have hnames := hcompletes.names
  rw [hpending] at hnames
  refine ⟨?_, hqueued, ?_, ?_⟩
  · unfold Bus.decode
    dsimp only
    rw [Function.update_self]
    exact ⟨hkept.role.trans hfixed.role, hkept.slot.trans hfixed.slot,
      hkept.endpoint.trans hfixed.endpoint, hkept.packet.trans hfixed.packet,
      hkept.ringIn.trans hfixed.ringIn, hkept.inBus.trans hfixed.inBus,
      hkept.bufferBus.trans hfixed.bufferBus⟩
  · rw [trbsOf_append, hdecoded, hnames, trbsOf_self, List.range_succ, List.map_append]
    rfl
  · unfold Bus.decode
    dsimp only
    rw [Function.update_self, hsame]
    show (bus.device i).producer.At _
    rw [hproducer, ← Nat.add_assoc]
    exact hat.advance

/-- An event that completes the TRB of a device: its next one is outstanding. -/
theorem HidInv.next (h : HidInv first bus queued decoded) (hfirst : HidStart first) (hi : first.Active i)
    (hturn : Turn first bus queued decoded i n) (hcompletes : (bus.pending i).Completes e)
    (env : HidEnv) (actual : ℕ) :
    let q := busQueue env (bus.decode env e i actual) i
    HidInv first q.2.1 (queued ++ q.2.2) (decoded ++ [(i, e.parameter / 16 * 16)]) ∧
      Turn first q.2.1 (queued ++ q.2.2) (decoded ++ [(i, e.parameter / 16 * 16)]) i (n + 1) ∧
      q.2.2 = [(i, (first.device i).address (n + 1))] ∧
      ∀ j, j ≠ i → q.2.1.device j = bus.device j ∧ q.2.1.pending j = bus.pending j := by
  obtain ⟨⟨hcount, hkeyboard, hmouse⟩, hactive, hinactive⟩ := h
  obtain ⟨hnext, hqueued, hothers, hfields⟩ :=
    (hturn.decode hcompletes env actual).queue (hfirst.device hi) env
  have hothers' : ∀ j, j ≠ i → (busQueue env (bus.decode env e i actual) i).2.1.device j = bus.device j ∧
      (busQueue env (bus.decode env e i actual) i).2.1.pending j = bus.pending j := by
    intro j hj
    refine ⟨(hothers j hj).1.trans ?_, (hothers j hj).2.trans ?_⟩
    · exact Function.update_of_ne hj ..
    · exact Function.update_of_ne hj ..
  have htrbs : ∀ j, j ≠ i →
      trbsOf j (queued ++ (busQueue env (bus.decode env e i actual) i).2.2) = trbsOf j queued ∧
        trbsOf j (decoded ++ [(i, e.parameter / 16 * 16)]) = trbsOf j decoded := by
    intro j hj
    rw [trbsOf_append, trbsOf_append, hqueued, trbsOf_other _ hj, trbsOf_other _ hj, List.append_nil,
      List.append_nil]
    exact ⟨rfl, rfl⟩
  refine ⟨⟨?_, ?_, ?_⟩, hnext, hqueued, hothers'⟩
  · exact ⟨hfields.1.trans hcount, hfields.2.1.trans hkeyboard, hfields.2.2.trans hmouse⟩
  · intro j hj
    by_cases hji : j = i
    · subst hji
      exact ⟨n + 1, hnext⟩
    · obtain ⟨m, hm⟩ := hactive j hj
      exact ⟨m, hm.congr (hothers' j hji).1 (hothers' j hji).2 (htrbs j hji).1 (htrbs j hji).2⟩
  · intro j hj
    have hji : j ≠ i := by
      rintro rfl
      exact hj hi
    rw [(hothers' j hji).2, (htrbs j hji).1, (htrbs j hji).2]
    exact hinactive j hj

/-- **An event** that does not return -1 keeps the invariant. -/
theorem HidInv.event (h : HidInv first bus queued decoded) (hfirst : HidStart first)
    (hret : (busDispatch env bus e).ret ≠ -1) :
    HidInv first (busDispatch env bus e).bus (queued ++ (busDispatch env bus e).queued)
      (decoded ++ (busDispatch env bus e).decoded.map fun d => (d.1, e.parameter / 16 * 16)) := by
  cases h.kind hfirst e with
  | other hcompletion hnone =>
    have hle : (busCompletion bus.pending bus.count e).1 ≤ 0 := by rw [hcompletion]
    rw [busDispatch_other hle, List.map_nil, List.append_nil, List.append_nil]
    exact h
  | bad hi howns hnot hcompletion =>
    have hle : (busCompletion bus.pending bus.count e).1 ≤ 0 := by
      rw [hcompletion]
      decide
    rw [busDispatch_other hle] at hret
    exact absurd hcompletion hret
  | good hi hturn hcompletes honly hcompletion =>
    rw [busDispatch_owner hcompletion] at hret ⊢
    split at hret
    · rename_i hdecoded
      rw [if_pos hdecoded]
      exact (h.next hfirst hi hturn hcompletes env _).1
    · exact absurd rfl hret

/-! ## The start -/

/-- The state of the loop that queues the first TRBs, with the devices that are left. -/
structure StartInv (first bus : Bus) (queued : List (ℕ × ℕ)) (left : List ℕ) : Prop where
  fields : bus.count = first.count ∧ bus.keyboard = first.keyboard ∧ bus.mouse = first.mouse
  waiting : ∀ i ∈ left, first.Active i → Waiting first bus queued [] i 0
  turn : ∀ i ∉ left, first.Active i → Turn first bus queued [] i 0
  inactive : ∀ i, ¬first.Active i → (bus.pending i).trb = 0 ∧ trbsOf i queued = []

theorem StartInv.queue {left : List ℕ} (h : StartInv first bus queued (i :: left))
    (hfirst : HidStart first) (hi : first.Active i) (hleft : i ∉ left) (env : HidEnv) :
    StartInv first (busQueue env bus i).2.1 (queued ++ (busQueue env bus i).2.2) left := by
  obtain ⟨⟨hcount, hkeyboard, hmouse⟩, hwaiting, hturn, hinactive⟩ := h
  obtain ⟨hnext, hqueued, hothers, hfields⟩ :=
    (hwaiting i List.mem_cons_self hi).queue (hfirst.device hi) env
  have htrbs : ∀ j, j ≠ i → trbsOf j (queued ++ (busQueue env bus i).2.2) = trbsOf j queued := by
    intro j hj
    rw [trbsOf_append, hqueued, trbsOf_other _ hj, List.append_nil]
  refine ⟨?_, ?_, ?_, ?_⟩
  · exact ⟨hfields.1.trans hcount, hfields.2.1.trans hkeyboard, hfields.2.2.trans hmouse⟩
  · intro j hj hactive
    have hji : j ≠ i := by
      rintro rfl
      exact hleft hj
    exact (hwaiting j (List.mem_cons_of_mem i hj) hactive).congr (hothers j hji).1 (htrbs j hji) rfl
  · intro j hj hactive
    by_cases hji : j = i
    · subst hji
      exact hnext
    · refine (hturn j ?_ hactive).congr (hothers j hji).1 (hothers j hji).2 (htrbs j hji) rfl
      rw [List.mem_cons, not_or]
      exact ⟨hji, hj⟩
  · intro j hj
    have hji : j ≠ i := by
      rintro rfl
      exact hj hi
    rw [(hothers j hji).2, htrbs j hji]
    exact hinactive j hj

theorem busStart_inv {left : List ℕ} (hfirst : HidStart first) (hleft : left.Nodup)
    (h : StartInv first bus queued left) {bus' : Bus} {more : List (ℕ × ℕ)}
    (hstart : busStart env bus left = some (bus', more)) : StartInv first bus' (queued ++ more) [] := by
  induction left generalizing bus queued more with
  | nil =>
    obtain ⟨rfl, rfl⟩ := Prod.mk.inj (Option.some.inj hstart)
    rwa [List.append_nil]
  | cons i left ih =>
    obtain ⟨hnew, hleft⟩ := List.nodup_cons.mp hleft
    obtain ⟨hcount, hkeyboard, hmouse⟩ := h.fields
    unfold busStart at hstart
    rw [hkeyboard, hmouse] at hstart
    split at hstart
    · rename_i hskip
      have hi : ¬first.Active i := fun hi => hi.elim hskip.1 hskip.2
      refine ih hleft ⟨h.fields, ?_, ?_, h.inactive⟩ hstart
      · exact fun j hj => h.waiting j (List.mem_cons_of_mem i hj)
      · intro j hj hactive
        refine h.turn j ?_ hactive
        rw [List.mem_cons, not_or]
        exact ⟨fun hji => hi (hji ▸ hactive), hj⟩
    · rename_i hactive
      have hi : first.Active i := by
        unfold Bus.Active
        tauto
      dsimp only at hstart
      split at hstart
      · obtain ⟨⟨rest, tail⟩, hrest, heq⟩ := Option.map_eq_some_iff.mp hstart
        obtain ⟨rfl, rfl⟩ := Prod.mk.inj heq
        rw [← List.append_assoc]
        exact ih hleft (h.queue hfirst hi hnew env) hrest
      · cases hstart

/-- **Every state of a run** has the invariant. -/
theorem HidReach.inv (h : HidReach first bus queued decoded) (hfirst : HidStart first) :
    HidInv first bus queued decoded := by
  induction h with
  | start env hstart =>
    have hbegin : StartInv first first [] (List.range first.count) := by
      refine ⟨⟨rfl, rfl, rfl⟩, ?_, ?_, fun i _ => ⟨hfirst.pending i, rfl⟩⟩
      · intro i _ hi
        refine ⟨⟨rfl, rfl, rfl, rfl, rfl, rfl, rfl⟩, rfl, rfl, ?_⟩
        rw [(hfirst.device hi).producer]
        rfl
      · intro i hi hactive
        exact absurd (List.mem_range.mpr (hfirst.lt hactive)) hi
    obtain ⟨hfields, -, hturn, hinactive⟩ := busStart_inv hfirst List.nodup_range hbegin hstart
    rw [List.nil_append] at hturn hinactive
    exact ⟨hfields, fun i hi => ⟨0, hturn i List.not_mem_nil hi⟩,
      fun i hi => ⟨(hinactive i hi).1, (hinactive i hi).2, rfl⟩⟩
  | event env e _ hret ih => exact ih.event hfirst hret

/-! ## What holds -/

theorem Turn.outstanding (h : Turn first bus queued decoded i n) : Outstanding first bus queued decoded i := by
  obtain ⟨hfixed, hqueued, hdecoded, hpending, p, hat, hproducer⟩ := h
  have hlinkIndex := ringLink_eq
  refine ⟨?_, ?_, ⟨p, ?_, hproducer.symm, ?_⟩, ?_, ?_⟩
  · rw [hqueued, hdecoded, hpending, List.range_succ, List.map_append]
    rfl
  · intro m hm
    simp only [hqueued, List.getElem_map, List.getElem_range]
    rfl
  · rw [hat.eq.1, hlinkIndex]
    exact Nat.mod_lt _ (by decide)
  · rw [hpending, hat.eq.1]
    unfold BusDevice.pendingFor BusDevice.address
    rw [hlinkIndex, Nat.add_mod_left]
  · rw [hpending]
    exact ⟨rfl, rfl⟩
  · rw [hpending]
    exact ⟨rfl, rfl⟩

/-- The decoder of a device accepts a report that is as long as its minimum. -/
theorem hidResult_ok (hfirst : HidStart first) (hi : first.Active i)
    (hturn : Turn first bus queued decoded i n) (hcompletes : (bus.pending i).Completes e)
    (hwidth : env.width ≠ 0) (hheight : env.height ≠ 0) :
    (bus.hidResult env i ((bus.pending i).requested - e.status % 2 ^ 24)).1 = true := by
  have hlength := hcompletes.length
  have hpacket := (hfirst.device hi).packet
  rw [hturn.pending] at hlength ⊢
  unfold BusDevice.pendingFor BusDevice.bytes at hlength ⊢
  unfold Bus.hidResult hidDecode
  dsimp only at hlength ⊢
  rw [hturn.fixed.role]
  rcases hfirst.role hi with hrole | hrole
  · rw [hrole, if_pos rfl] at hlength ⊢
    rw [if_pos rfl] at hlength ⊢
    have hactual : 8 - e.status % 2 ^ 24 = 8 := by omega
    rw [hactual]
    unfold pi4UsbKeyboardDecode
    rw [if_neg (by decide)]
    split <;> rfl
  · rw [hrole, if_neg (by decide)] at hlength ⊢
    rw [if_neg (by decide)] at hlength ⊢
    unfold mouseDecode
    rw [if_neg (by omega)]
    rfl

/-- What an event does in a state of a run. -/
inductive DispatchKind (first bus : Bus) (queued decoded : List (ℕ × ℕ)) (e : Event) (env : HidEnv) :
    Prop where
  | other (hnone : ∀ i, first.Active i → ¬(bus.pending i).Owns e)
      (hstep : busDispatch env bus e = ⟨0, bus, [], [], []⟩)
  | bad {i : ℕ} (hi : first.Active i) (howns : (bus.pending i).Owns e)
      (hnot : ∀ j, first.Active j → ¬(bus.pending j).Completes e)
      (hstep : busDispatch env bus e = ⟨-1, bus, [], [], []⟩)
  | good {i n actual : ℕ} (hi : first.Active i) (hturn : Turn first bus queued decoded i n)
      (hcompletes : (bus.pending i).Completes e)
      (honly : ∀ j, first.Active j → (bus.pending j).Completes e → j = i)
      (hactual : (bus.pending i).requested - e.status % 2 ^ 24 = actual)
      (hstep : busDispatch env bus e =
        if (bus.hidResult env i actual).1 then
          ⟨if (busQueue env (bus.decode env e i actual) i).1 then 1 else -1,
            (busQueue env (bus.decode env e i actual) i).2.1, [(i, actual)],
            (busQueue env (bus.decode env e i actual) i).2.2, (bus.hidResult env i actual).2.2⟩
        else ⟨-1, bus.decode env e i actual, [(i, actual)], [], (bus.hidResult env i actual).2.2⟩)

theorem HidInv.dispatch (h : HidInv first bus queued decoded) (hfirst : HidStart first) (e : Event)
    (env : HidEnv) : DispatchKind first bus queued decoded e env := by
  cases h.kind hfirst e with
  | other hcompletion hnone =>
    refine .other hnone ?_
    rw [busDispatch_other (by rw [hcompletion]), hcompletion]
  | bad hi howns hnot hcompletion =>
    refine .bad hi howns hnot ?_
    have hle : (busCompletion bus.pending bus.count e).1 ≤ 0 := by
      rw [hcompletion]
      decide
    rw [busDispatch_other hle, hcompletion]
  | good hi hturn hcompletes honly hcompletion =>
    exact .good hi hturn hcompletes honly rfl (busDispatch_owner hcompletion)

/-- An event that returns 1: a report is decoded, and the next TRB is queued. -/
theorem HidInv.returned (h : HidInv first bus queued decoded) (hfirst : HidStart first)
    (hret : (busDispatch env bus e).ret = 1) :
    ∃ i n actual, first.Active i ∧ Turn first bus queued decoded i n ∧ (bus.pending i).Completes e ∧
      (∀ j, first.Active j → (bus.pending j).Completes e → j = i) ∧
      (bus.pending i).requested - e.status % 2 ^ 24 = actual ∧
      busDispatch env bus e = ⟨1, (busQueue env (bus.decode env e i actual) i).2.1, [(i, actual)],
        (busQueue env (bus.decode env e i actual) i).2.2, (bus.hidResult env i actual).2.2⟩ := by
  cases h.dispatch hfirst e env with
  | other hnone hstep =>
    rw [hstep] at hret
    exact absurd hret (by simp)
  | bad hi howns hnot hstep =>
    rw [hstep] at hret
    exact absurd hret (by simp)
  | @good i n actual hi hturn hcompletes honly hactual hstep =>
    refine ⟨i, n, actual, hi, hturn, hcompletes, honly, hactual, ?_⟩
    rw [hstep] at hret ⊢
    split at hret
    · rename_i hok
      rw [if_pos hok]
      dsimp only at hret
      rw [hret]
    · exact absurd hret (by simp)

/-- While no call returns -1, a call returns 1 for the events that complete a TRB. -/
theorem HidInv.one (h : HidInv first bus queued decoded) (hfirst : HidStart first)
    (hret : (busDispatch env bus e).ret ≠ -1) :
    (busDispatch env bus e).ret = 1 ↔ ∃ i, first.Active i ∧ (bus.pending i).Completes e := by
  constructor
  · intro hone
    obtain ⟨i, -, -, hi, -, hcompletes, -, -, -⟩ := h.returned hfirst hone
    exact ⟨i, hi, hcompletes⟩
  · rintro ⟨i, hi, hcompletes⟩
    cases h.dispatch hfirst e env with
    | other hnone hstep => exact absurd hcompletes.toOwns (hnone i hi)
    | bad hi' howns hnot hstep => exact absurd hcompletes (hnot i hi)
    | good hi' hturn hcompletes' honly hactual hstep =>
      rw [hstep] at hret ⊢
      split at hret
      · rename_i hok
        rw [if_pos hok]
        dsimp only at hret ⊢
        split at hret
        · rename_i hbell
          rw [if_pos hbell]
        · exact absurd rfl hret
      · exact absurd rfl hret

/-- With a framebuffer and doorbells that answer, no event that completes a TRB is refused. -/
theorem HidInv.accepted (h : HidInv first bus queued decoded) (hfirst : HidStart first)
    (hi : first.Active i) (hcompletes : (bus.pending i).Completes e) (hwidth : env.width ≠ 0)
    (hheight : env.height ≠ 0) (hwrite : ∀ register value, env.write register value = true)
    (hread : ∀ register, env.read register = true) : (busDispatch env bus e).ret = 1 := by
  cases h.dispatch hfirst e env with
  | other hnone hstep => exact absurd hcompletes.toOwns (hnone i hi)
  | bad hi' howns hnot hstep => exact absurd hcompletes (hnot i hi)
  | @good i' n actual hi' hturn hcompletes' honly hactual hstep =>
    obtain rfl := honly i hi hcompletes
    have hok := hidResult_ok hfirst hi hturn hcompletes hwidth hheight
    rw [hactual] at hok
    obtain ⟨hfixed, -, -, hproducer⟩ := hturn.decode hcompletes env actual
    obtain ⟨ring, hqueue⟩ := busQueue_eq (hfirst.device hi) hfixed hproducer env
    rw [hstep, if_pos hok, hqueue]
    dsimp only
    rw [hwrite, hread]
    rfl

/-- The device of a report that was decoded, when its next TRB is queued. -/
theorem Turn.decoded_device (h : Turn first bus queued decoded i n) (hd : HidDevice (first.device i))
    (hcompletes : (bus.pending i).Completes e)
    (env : HidEnv) (actual : ℕ) :
    ∃ ring, (busQueue env (bus.decode env e i actual) i).2.1.device i =
      { (bus.hidResult env i actual).2.1 with
        producer := (bus.hidResult env i actual).2.1.producer.advance
        ring := ring } := by
  obtain ⟨hfixed, -, -, hproducer⟩ := h.decode hcompletes env actual
  obtain ⟨ring, hqueue⟩ := busQueue_eq hd hfixed hproducer env
  refine ⟨ring, ?_⟩
  rw [hqueue]
  dsimp only
  rw [Function.update_self]
  unfold Bus.decode
  dsimp only
  rw [Function.update_self]
  rfl

theorem HidInv.effect (h : HidInv first bus queued decoded) (hfirst : HidStart first)
    (hi : first.Active i) (hcompletes : (bus.pending i).Completes e)
    (hret : (busDispatch env bus e).ret = 1) : Decoded env bus e i (busDispatch env bus e) := by
  obtain ⟨i', n, actual, -, hturn, -, honly, hactual, hstep⟩ := h.returned hfirst hret
  obtain rfl := honly i hi hcompletes
  subst hactual
  obtain ⟨-, hnext, hqueued, hothers⟩ := h.next hfirst hi hturn hcompletes env
    ((bus.pending i).requested - e.status % 2 ^ 24)
  obtain ⟨ring, hdevice⟩ := hturn.decoded_device (hfirst.device hi) hcompletes env
    ((bus.pending i).requested - e.status % 2 ^ 24)
  rw [hstep]
  refine ⟨rfl, ?_, ?_, ?_, hothers⟩
  · intro hrole
    rw [hdevice]
    unfold Bus.hidResult hidDecode
    rw [if_pos hrole]
    exact ⟨rfl, rfl⟩
  · intro hrole
    rw [hdevice]
    unfold Bus.hidResult hidDecode
    rw [if_neg hrole]
    exact ⟨rfl, rfl⟩
  · dsimp only
    rw [hqueued, hnext.pending]
    rfl

/-- An event returns 0 if it is of no HID endpoint, and then nothing changes. -/
theorem HidInv.zero (h : HidInv first bus queued decoded) (hfirst : HidStart first) (env : HidEnv)
    (e : Event) :
    ((busDispatch env bus e).ret = 0 ↔ ∀ i, first.Active i → ¬(bus.pending i).Owns e) ∧
      ((busDispatch env bus e).ret = 0 → busDispatch env bus e = ⟨0, bus, [], [], []⟩) := by
  cases h.dispatch hfirst e env with
  | other hnone hstep =>
    rw [hstep]
    exact ⟨iff_of_true rfl hnone, fun _ => rfl⟩
  | bad hi howns hnot hstep =>
    have hne : (busDispatch env bus e).ret ≠ 0 := by simp [hstep]
    exact ⟨iff_of_false hne fun hall => hall _ hi howns, fun hzero => absurd hzero hne⟩
  | good hi hturn hcompletes honly hactual hstep =>
    have hne : (busDispatch env bus e).ret ≠ 0 := by
      rw [hstep]
      split
      · dsimp only
        split <;> decide
      · simp
    exact ⟨iff_of_false hne fun hall => hall _ hi hcompletes.toOwns, fun hzero => absurd hzero hne⟩

/-- Nothing is decoded for an event that completes no TRB. -/
theorem HidInv.bad (h : HidInv first bus queued decoded) (hfirst : HidStart first) (env : HidEnv)
    (hnone : ¬∃ i, first.Active i ∧ (bus.pending i).Completes e) :
    (busDispatch env bus e).decoded = [] ∧ (busDispatch env bus e).bus = bus := by
  cases h.dispatch hfirst e env with
  | other _ hstep =>
    rw [hstep]
    exact ⟨rfl, rfl⟩
  | bad hi howns hnot hstep =>
    rw [hstep]
    exact ⟨rfl, rfl⟩
  | good hi hturn hcompletes honly hactual hstep => exact absurd ⟨_, hi, hcompletes⟩ hnone

/-- An event that is delivered once more does not complete the next TRB. -/
theorem HidInv.again (h : HidInv first bus queued decoded) (hfirst : HidStart first) (env' : HidEnv)
    (hret : (busDispatch env bus e).ret = 1) :
    (busDispatch env' (busDispatch env bus e).bus e).ret = -1 ∧
      (busDispatch env' (busDispatch env bus e).bus e).decoded = [] := by
  obtain ⟨i, n, actual, hi, hturn, hcompletes, -, -, hstep⟩ := h.returned hfirst hret
  obtain ⟨hinv, hnext, -, -⟩ := h.next hfirst hi hturn hcompletes env actual
  have hbus : (busDispatch env bus e).bus = (busQueue env (bus.decode env e i actual) i).2.1 := by
    rw [hstep]
  have hlinkIndex := ringLink_eq
  have howns : ((busDispatch env bus e).bus.pending i).Owns e := by
    obtain ⟨htype, hslot, hdci⟩ := hcompletes.toOwns
    rw [hturn.pending] at hslot hdci
    rw [hbus, hnext.pending]
    exact ⟨htype, hslot, hdci⟩
  have hnot : ¬((busDispatch env bus e).bus.pending i).Completes e := by
    intro hagain
    have hnames := hcompletes.names
    have hnames' := hagain.names
    rw [hturn.pending] at hnames
    rw [hbus, hnext.pending] at hnames'
    unfold BusDevice.pendingFor BusDevice.address at hnames hnames'
    rw [hlinkIndex] at hnames hnames'
    dsimp only at hnames hnames'
    omega
  rw [hbus] at howns hnot ⊢
  cases hinv.dispatch hfirst e env' with
  | other hnone _ => exact absurd howns (hnone i hi)
  | bad _ _ _ hstep' =>
    rw [hstep']
    exact ⟨rfl, rfl⟩
  | @good j m _ hj hturn' hcompletes' _ _ _ =>
    have hslot := hcompletes'.slot.symm.trans howns.slot
    rw [hturn'.pending, hnext.pending] at hslot
    obtain rfl := hfirst.unique hj hi hslot
    exact absurd hcompletes' hnot

/-- TRBs that are decoded have different numbers; their addresses are those of the laps. -/
theorem HidInv.distinct (h : HidInv first bus queued decoded) {m : ℕ}
    (hn : n < (trbsOf i decoded).length) (hm : m < (trbsOf i decoded).length)
    (heq : (trbsOf i decoded)[n] = (trbsOf i decoded)[m]) : n % ringLink = m % ringLink := by
  by_cases hi : first.Active i
  · obtain ⟨k, hturn⟩ := h.active i hi
    simp only [hturn.decoded, List.getElem_map, List.getElem_range] at heq
    unfold BusDevice.address at heq
    omega
  · rw [(h.inactive i hi).2.2] at hn
    cases hn

/-- **Completions are consumed once by their owner**, in every state of a run. -/
theorem hid_completions (hfirst : HidStart first) (h : HidReach first bus queued decoded) :
    HidSafe first bus queued decoded := by
  have hinv := h.inv hfirst
  constructor
  · intro i hi
    obtain ⟨n, hturn⟩ := hinv.active i hi
    exact hturn.outstanding
  · exact fun i hi => ⟨(hinv.inactive i hi).1, (hinv.inactive i hi).2.1⟩
  · exact fun env e hret => hinv.one hfirst hret
  · exact fun env e i hi hcompletes => hinv.accepted hfirst hi hcompletes
  · exact fun env e i hi hcompletes => hinv.effect hfirst hi hcompletes
  · exact fun env e => hinv.zero hfirst env e
  · exact fun env e => hinv.bad hfirst env
  · exact fun env env' e hret => hinv.again hfirst env' hret
  · exact fun i n m hn hm => hinv.distinct hn hm

/-- A keyboard and a mouse before their first TRBs. -/
def exampleBus : Bus :=
  let mouse : MouseState := ⟨500, 500, 0, 0, 0, 0, 0, 0⟩
  let device : ℕ → BusDevice := fun i =>
    ⟨i + 1, i + 2, 0x81, 8, 0x1000, 0x404100000 + i * 0x10000, 0x404110000 + i * 0x10000, fun _ => 0,
      ⟨0, 1, 0⟩, List.replicate 8 0, mouse, 0⟩
  ⟨2, 0, 1, device, fun _ => ⟨0, 0, 0, 0, 0⟩, 0, 0, false, 0⟩

theorem exampleBus_start : HidStart exampleBus := by
  refine ⟨by decide, ⟨by decide, ⟨?_, ?_, ?_, ?_, ?_, ?_, rfl⟩, rfl⟩,
    ⟨by decide, ⟨?_, ?_, ?_, ?_, ?_, ?_, rfl⟩, rfl⟩, by decide, fun _ => rfl⟩ <;> decide

/-- The run of a keyboard and a mouse whose first TRBs are queued. -/
theorem hid_completions_example : ∃ bus queued, HidReach exampleBus bus queued [] ∧
    HidSafe exampleBus bus queued [] := by
  have hsome : (busStart ⟨fun _ => [], 1000, 1000, fun _ _ => true, fun _ => true⟩ exampleBus
      (List.range exampleBus.count)).isSome = true := rfl
  obtain ⟨⟨bus, queued⟩, hstart⟩ := Option.isSome_iff_exists.mp hsome
  have hreach : HidReach exampleBus bus queued [] := .start _ hstart
  exact ⟨bus, queued, hreach, hid_completions exampleBus_start hreach⟩

end ZealBringup.Pi4
