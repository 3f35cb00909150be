import ZealBringup.Lib.Bitmap
import ZealBringup.Pi4.ConfigStep

/-!
# What the validator of configurations accepts

The walk over the chain is a run over the descriptors, and so one over the interfaces.

* `Visited.step` — one interface with its descriptors.
* `configLoop_chain` — the loop over the bytes.
* `configurationCheck_decides` — the validator accepts the well-formed configurations and no
  others, and says what they say.
-/

namespace ZealBringup.Pi4

open Bitmap Checked Records

variable {d r : List UInt8} {rs ms : List (List UInt8)} {gs : List Group} {g : Group}
  {w w₀ : ConfigWalk}

/-! ## One interface -/

/-- What the descriptors of an interface need, taken together. -/
structure MembersOk (bot : Bool) (expected : ℕ) (ms : List (List UInt8)) : Prop where
  count : (ms.filter isEndpoint).length ≤ expected
  endpoint : ∀ e ∈ ms, isEndpoint e → EndpointOk bot e
  bulkIn : bot → (ms.filter isBulkIn).length ≤ 1
  bulkOut : bot → (ms.filter isBulkOut).length ≤ 1
  companion : bot → ∀ u c v, ms = u ++ c :: v → isCompanion c →
    CompanionOk c ∧ ∃ e ∈ u.getLast?, isEndpoint e ∧ isBulk e

theorem membersOk_iff {bot : Bool} {expected : ℕ} :
    (∀ u r v, ms = u ++ r :: v → Needs bot expected u r) ↔ MembersOk bot expected ms := by
  constructor
  · intro h
    refine ⟨?_, fun e he hend => ?_, fun hbot => ?_, fun hbot => ?_, fun hbot u c v heq hc => ?_⟩
    · exact length_filter_le_iff.mpr fun u r v heq hr => (h u r v heq).count hr
    · obtain ⟨u, v, heq⟩ := List.append_of_mem he
      exact (h u e v heq).endpoint hend
    · exact length_filter_le_iff.mpr fun u r v heq hr => (h u r v heq).bulkIn hr hbot
    · exact length_filter_le_iff.mpr fun u r v heq hr => (h u r v heq).bulkOut hr hbot
    · exact (h u c v heq).companion hc hbot
  · intro h u r v heq
    have hmem : r ∈ ms := by
      rw [heq]
      exact List.mem_append_right _ List.mem_cons_self
    exact ⟨length_filter_le_iff.mp h.count u r v heq, h.endpoint r hmem,
      fun hr hbot => length_filter_le_iff.mp (h.bulkIn hbot) u r v heq hr,
      fun hr hbot => length_filter_le_iff.mp (h.bulkOut hbot) u r v heq hr,
      fun hc hbot => h.companion hbot u r v heq hc⟩

/-- **The descriptors of an interface.** -/
theorem members_decides {es : List (List UInt8)} (hhave : w₀.haveInterface)
    (h : Walking w₀ es [] w) (hms : ∀ r ∈ ms, ¬isInterface r) :
    Decides .reject (ms.foldlM stepRecord w)
      (MembersOk w₀.currentBotInterface w₀.expectedEndpoints ms) (Walking w₀ es ms) := by
  have hstep : ∀ r ∈ ms, ∀ u s, Walking w₀ es u s → Decides .reject (stepRecord s r)
      (Needs w₀.currentBotInterface w₀.expectedEndpoints u r) (Walking w₀ es (u ++ [r])) :=
    fun r hr u s hs => hs.step hhave (hms r hr)
  refine (Decides.foldlM hstep h).congr ?_
  simp only [List.nil_append]
  exact membersOk_iff

/-! ## The interfaces so far -/

/-- The group has all its endpoints. -/
def Group.full (g : Group) : Prop := g.endpoints.length = byte g.1 4

/-- The state after the interfaces of the list. -/
structure Visited (gs : List Group) (w : ConfigWalk) : Prop where
  seen : ∀ n, (w.seenInterfaces (n / 8)).testBit (n % 8) ↔ n ∈ interfaceNumbers gs
  unique : w.uniqueInterfaces = (interfaceNumbers gs).card
  count : w.interfaceDescriptors = gs.length
  endpoints : w.endpointDescriptors = (gs.flatMap Group.endpoints).length
  closed : w.closed ↔ ∀ g ∈ gs.getLast?, g.full
  firstInterface : w.firstInterface = firstInterfaceOf gs
  firstEndpoint : w.firstEndpoint = firstEndpointOf (gs.flatMap Group.endpoints)
  found : w.botInterfaceFound = (storage gs).isSome
  botInterface : w.botInterface = ((storage gs).map botInterfaceOf).getD {}
  bulkIn : w.bulkIn = ((storage gs).map fun g => bulkEnd isBulkIn g.2).getD {}
  bulkOut : w.bulkOut = ((storage gs).map fun g => bulkEnd isBulkOut g.2).getD {}

theorem visited_start : Visited [] {} where
  seen n := by simp [interfaceNumbers]
  unique := rfl
  count := rfl
  endpoints := rfl
  closed := iff_of_true rfl fun g hg => by cases hg
  firstInterface := rfl
  firstEndpoint := rfl
  found := rfl
  botInterface := rfl
  bulkIn := rfl
  bulkOut := rfl

theorem interfaceNumbers_concat (gs : List Group) (g : Group) :
    interfaceNumbers (gs ++ [g]) = insert (byte g.1 2) (interfaceNumbers gs) := by
  rw [interfaceNumbers, List.map_append, List.toFinset_append, Finset.union_comm]
  rfl

/-- Seeing a number adds it to the set, and counts it when it is new. -/
theorem Visited.see (h : Visited gs w) (g : Group) :
    (∀ n, ((w.see (byte g.1 2)).seenInterfaces (n / 8)).testBit (n % 8) ↔
      n ∈ interfaceNumbers (gs ++ [g])) ∧
      (w.see (byte g.1 2)).uniqueInterfaces = (interfaceNumbers (gs ++ [g])).card := by
  rw [interfaceNumbers_concat]
  by_cases hnew : w.seenInterfaces (byte g.1 2 / 8) &&& 1 <<< (byte g.1 2 % 8) = 0
  · have hmem : byte g.1 2 ∉ interfaceNumbers gs := by
      rw [← h.seen, ← and_bit_ne_zero]
      exact not_not.mpr hnew
    rw [ConfigWalk.see, if_pos hnew]
    refine ⟨fun n => ?_, ?_⟩
    · rw [testBit_mark, h.seen, Finset.mem_insert, or_comm]
    · rw [Finset.card_insert_of_notMem hmem, ← h.unique]
  · have hmem : byte g.1 2 ∈ interfaceNumbers gs := by
      rw [← h.seen, ← and_bit_ne_zero]
      exact hnew
    rw [ConfigWalk.see, if_neg hnew, Finset.insert_eq_self.mpr hmem]
    exact ⟨h.seen, h.unique⟩

theorem storage_concat (gs : List Group) (g : Group) :
    storage (gs ++ [g]) = (storage gs).or (if g.bot then some g else none) := by
  rw [storage, List.find?_append]
  congr 1
  rw [List.find?_singleton]

theorem flatMap_concat (gs : List Group) (g : Group) :
    (gs ++ [g]).flatMap Group.endpoints = gs.flatMap Group.endpoints ++ g.endpoints := by
  rw [List.flatMap_append]
  simp

/-- What an interface needs of those before it. -/
structure GroupNeeds (gs : List Group) (g : Group) : Prop where
  size : 9 ≤ g.1.length
  full : ∀ h ∈ gs.getLast?, h.full
  bot : g.bot → storage gs = none
  members : MembersOk g.bot (byte g.1 4) g.2

/-- A run over one interface. -/
def stepGroup (w : ConfigWalk) (g : Group) : Except Stop ConfigWalk :=
  stepRecord w g.1 >>= fun w => g.2.foldlM stepRecord w

theorem opened_eq (hr : isInterface r) (w : ConfigWalk) : (w.await (byte r 1)).opened r =
    { w with
      seenInterfaces := (w.see (byte r 2)).seenInterfaces
      uniqueInterfaces := (w.see (byte r 2)).uniqueInterfaces
      firstInterface :=
        if w.interfaceDescriptors = 0 then ⟨byte r 2, byte r 5, byte r 6, byte r 7, byte r 4⟩
        else w.firstInterface
      interfaceDescriptors := w.interfaceDescriptors + 1
      expectedEndpoints := byte r 4
      currentEndpoints := 0
      haveInterface := true
      currentBotInterface := isBot r
      botInterfaceFound := w.botInterfaceFound || isBot r
      botInterface := if isBot r then ⟨byte r 2, byte r 3, byte r 4⟩ else w.botInterface
      companionEndpoint := 0 } := by
  have hawait : w.await (byte r 1) = { w with companionEndpoint := 0 } := by
    rw [ConfigWalk.await, if_pos]
    rw [beq_iff_eq.mp hr]
    decide
  rw [hawait]
  unfold ConfigWalk.opened ConfigWalk.see
  dsimp only
  split <;> rfl

theorem after_nil {es : List (List UInt8)} (hcount : w.endpointDescriptors = es.length)
    (hcurrent : w.currentEndpoints = 0) (hfirst : w.firstEndpoint = firstEndpointOf es)
    (hin : w.currentBotInterface → w.bulkIn = {}) (hout : w.currentBotInterface → w.bulkOut = {})
    (hcomp : w.companionEndpoint = 0) : w = w.after es [] := by
  cases w
  dsimp only at hcount hcurrent hfirst hin hout hcomp
  subst hcount hcurrent hfirst hcomp
  unfold ConfigWalk.after
  simp only [List.filter_nil, List.append_nil, List.length_nil, ConfigWalk.mk.injEq, true_and]
  split
  case isTrue hbot => exact ⟨hin hbot, hout hbot, rfl⟩
  case isFalse => exact ⟨rfl, rfl, rfl⟩

theorem Visited.opened (h : Visited gs w) (hi : isInterface g.1) (hg : g.bot → storage gs = none) :
    Walking ((w.await (byte g.1 1)).opened g.1) (gs.flatMap Group.endpoints) []
      ((w.await (byte g.1 1)).opened g.1) := by
  have hnone : g.bot → w.bulkIn = {} ∧ w.bulkOut = {} := by
    intro hbot
    rw [h.bulkIn, h.bulkOut, hg hbot]
    exact ⟨rfl, rfl⟩
  rw [opened_eq hi]
  exact ⟨after_nil h.endpoints rfl h.firstEndpoint (fun hbot => (hnone hbot).1)
    (fun hbot => (hnone hbot).2) rfl, fun _ => Nat.zero_le _, fun _ => Nat.zero_le _⟩

theorem firstInterfaceOf_concat (gs : List Group) (g : Group) : firstInterfaceOf (gs ++ [g]) =
    if gs.length = 0 then ⟨byte g.1 2, byte g.1 5, byte g.1 6, byte g.1 7, byte g.1 4⟩
    else firstInterfaceOf gs := by
  cases gs <;> rfl

theorem Visited.behind (h : Visited gs w) (hi : isInterface g.1) (hbot : g.bot → storage gs = none) :
    Visited (gs ++ [g])
      (((w.await (byte g.1 1)).opened g.1).after (gs.flatMap Group.endpoints) g.2) := by
  have hsee := h.see g
  -- The storage interface is the new one, or the one there was.
  have hstorage : storage (gs ++ [g]) = if g.bot then some g else storage gs := by
    rw [storage_concat]
    split
    case isTrue hb => rw [hbot hb, Option.none_or]
    case isFalse => rw [Option.or_none]
  rw [opened_eq hi]
  unfold ConfigWalk.after
  refine ⟨hsee.1, hsee.2, ?_, ?_, ?_, ?_, ?_, ?_, ?_, ?_, ?_⟩
  · dsimp only
    rw [List.length_append, List.length_singleton, h.count]
  · rw [flatMap_concat]
    rfl
  · rw [List.getLast?_concat]
    simp only [Option.mem_some_iff, forall_eq']
    exact beq_iff_eq
  · dsimp only
    rw [firstInterfaceOf_concat, ← h.count, ← h.firstInterface]
  · rw [flatMap_concat]
    rfl
  · have hisBot : isBot g.1 = g.bot := rfl
    dsimp only
    rw [hstorage, h.found, hisBot]
    cases g.bot
    · simp
    · simp
  · rw [hstorage, h.botInterface]
    show (if g.bot = true then _ else _) = _
    split <;> rfl
  · rw [hstorage]
    show (if g.bot = true then _ else _) = _
    split
    · rfl
    · exact h.bulkIn
  · rw [hstorage]
    show (if g.bot = true then _ else _) = _
    split
    · rfl
    · exact h.bulkOut

/-- **One interface with its descriptors.** -/
theorem Visited.step (h : Visited gs w) (hi : isInterface g.1) (hms : ∀ r ∈ g.2, ¬isInterface r) :
    Decides .reject (stepGroup w g) (GroupNeeds gs g) (Visited (gs ++ [g])) := by
  have hopen := configDescriptor_interface (readsAs_self g.1) hi w
  have hstorage : w.botInterfaceFound = false ↔ storage gs = none := by
    rw [h.found, Option.isSome_eq_false_iff, Option.isNone_iff_eq_none]
  have hrun : Decides .reject (stepGroup w g)
      (((9 ≤ g.1.length ∧ w.closed) ∧ ¬(isBot g.1 ∧ w.botInterfaceFound)) ∧
        MembersOk g.bot (byte g.1 4) g.2)
      (Walking ((w.await (byte g.1 1)).opened g.1) (gs.flatMap Group.endpoints) g.2) := by
    refine hopen.bind fun hok w' hw' => ?_
    subst hw'
    have hwalk := h.opened hi fun hbot => hstorage.mp (by simpa using fun hf => hok.2 ⟨hbot, hf⟩)
    have hmembers := members_decides (by rw [opened_eq hi]) hwalk hms
    rw [opened_eq hi] at hmembers ⊢
    exact hmembers
  have hiff : ((9 ≤ g.1.length ∧ w.closed) ∧ ¬(isBot g.1 ∧ w.botInterfaceFound)) ∧
      MembersOk g.bot (byte g.1 4) g.2 ↔ GroupNeeds gs g := by
    constructor
    · rintro ⟨⟨⟨hsize, hclosed⟩, hbot⟩, hmem⟩
      exact ⟨hsize, h.closed.mp hclosed,
        fun hb => hstorage.mp (by simpa using fun hf => hbot ⟨hb, hf⟩), hmem⟩
    · rintro ⟨hsize, hfull, hbot, hmem⟩
      refine ⟨⟨⟨hsize, h.closed.mpr hfull⟩, fun hb => ?_⟩, hmem⟩
      rw [hstorage.mpr (hbot hb.1)] at hb
      exact Bool.false_ne_true hb.2
  refine (hrun.congr hiff).imp fun hneeds w' hw' => ?_
  rw [hw'.state]
  exact h.behind hi hneeds.bot

/-! ## All interfaces -/

theorem storage_eq_none_iff : storage gs = none ↔ (gs.filter Group.bot).length < 1 := by
  rw [storage, List.find?_eq_none, Nat.lt_one_iff, List.length_eq_zero_iff,
    List.filter_eq_nil_iff]

/-- What each interface needs of those before it, and all of them together. -/
theorem groupNeeds_iff :
    ((∀ u g v, gs = u ++ g :: v → GroupNeeds u g) ∧ ∀ g ∈ gs.getLast?, g.full) ↔
      (∀ g ∈ gs, GroupOk g) ∧ (gs.filter Group.bot).length ≤ 1 := by
  constructor
  · rintro ⟨h, hlast⟩
    -- An interface is full at the next one, or at the end.
    have hfull : ∀ g ∈ gs, g.full := by
      intro g hg
      obtain ⟨u, v, rfl⟩ := List.append_of_mem hg
      cases v with
      | nil => exact hlast g (by rw [List.getLast?_concat]; rfl)
      | cons g' v =>
        refine (h (u ++ [g]) g' v (List.append_cons u g _)).full g ?_
        rw [List.getLast?_concat]
        rfl
    refine ⟨fun g hg => ?_, length_filter_le_iff.mpr fun u g v heq hb =>
      storage_eq_none_iff.mp ((h u g v heq).bot hb)⟩
    obtain ⟨u, v, heq⟩ := List.append_of_mem hg
    obtain ⟨hsize, -, -, hmem⟩ := h u g v heq
    exact ⟨hsize, hfull g hg, hmem.endpoint, hmem.bulkIn, hmem.bulkOut, hmem.companion⟩
  · rintro ⟨hok, hbot⟩
    refine ⟨fun u g v heq => ?_, fun g hg => (hok g (List.mem_of_getLast? hg)).count⟩
    have hmem : ∀ g' ∈ u ++ [g], GroupOk g' := by
      intro g' hg'
      refine hok g' ?_
      rw [heq, List.append_cons]
      exact List.mem_append_left _ hg'
    have hg := hmem g (List.mem_append_right _ List.mem_cons_self)
    exact ⟨hg.size,
      fun g' hg' => (hmem g' (List.mem_append_left _ (List.mem_of_getLast? hg'))).count,
      fun hb => storage_eq_none_iff.mpr (length_filter_le_iff.mp hbot u g v heq hb),
      hg.count.le, hg.endpoint, hg.bulkIn, hg.bulkOut, hg.companion⟩

/-- In front of the first interface there is no endpoint. -/
theorem lead_decides (hms : ∀ r ∈ ms, ¬isInterface r) :
    Decides .reject (ms.foldlM stepRecord {}) (∀ r ∈ ms, ¬isEndpoint r) (· = {}) := by
  have hstep : ∀ r ∈ ms, ∀ (_ : List (List UInt8)) (w : ConfigWalk), w = {} →
      Decides .reject (stepRecord w r) (¬isEndpoint r) (· = {}) := by
    rintro r hr - w rfl
    refine ((configDescriptor_member (readsAs_self r) (hms r hr) {}).congr ?_).imp ?_
    · constructor
      · intro hok hend
        exact Bool.false_ne_true (hok.endpoint hend).1.1
      · intro hend
        exact ⟨fun he => absurd he hend, fun _ hb => absurd hb Bool.false_ne_true⟩
    · intro hend w' hw'
      rw [hw', ConfigWalk.member, if_neg hend, if_neg fun hb => Bool.false_ne_true hb.2,
        ConfigWalk.await]
      split <;> rfl
  refine (@Decides.foldlM _ _ _ _ _ _ _ [] _ _ hstep rfl).congr ?_
  constructor
  · intro h r hr
    obtain ⟨u, v, heq⟩ := List.append_of_mem hr
    exact h u r v heq
  · rintro h u r v rfl
    exact h r (List.mem_append_right _ List.mem_cons_self)

/-- **The run over the descriptors of a configuration.** -/
theorem records_decides (rs : List (List UInt8)) :
    Decides .reject (rs.foldlM stepRecord {})
      ((∀ r ∈ (cut isInterface rs).1, ¬isEndpoint r) ∧
        ∀ u g v, groups rs = u ++ g :: v → GroupNeeds u g) (Visited (groups rs)) := by
  have hno : ∀ r, isInterface r = false → ¬isInterface r := fun r hr hyes => by
    rw [hr] at hyes
    exact Bool.false_ne_true hyes
  have hlead := @lead_decides (cut isInterface rs).1 fun r hr => hno r (cut_lead r hr)
  have hstep : ∀ g ∈ groups rs, ∀ u w, Visited u w →
      Decides .reject (stepGroup w g) (GroupNeeds u g) (Visited (u ++ [g])) := fun g hg u w hw =>
    hw.step (cut_heading g hg) fun r hr => hno r (cut_members g hg r hr)
  rw [foldlM_cut isInterface]
  refine hlead.bind fun _ w hw => ?_
  subst hw
  exact Decides.foldlM hstep visited_start

/-! ## The bytes -/

theorem readByte_eq {i : ℕ} (h : i < d.length) : readByte d i = .ok (byte d i) := if_pos h

theorem readWord_eq {i : ℕ} (h : i + 1 < d.length) : readWord d i = .ok (word d i) := by
  have hword := (readsAs_self d).word h
  rwa [Nat.zero_add] at hword

theorem byte_drop (d : List UInt8) (offset k : ℕ) : byte (d.drop offset) k = byte d (offset + k) := by
  rw [byte, byte, List.getD_eq_getElem?_getD, List.getD_eq_getElem?_getD, List.getElem?_drop]

variable {offset : ℕ}

theorem readsAs_drop {s : List UInt8} (h : d.drop offset = r ++ s) :
    ReadsAs d offset r := by
  intro k hk
  have hlen := congrArg List.length h
  rw [List.length_drop, List.length_append] at hlen
  rw [readByte_eq (by omega), ← byte_drop, h, byte_append_left hk]

theorem configDescriptor_eq (h : ReadsAs d offset r) (w : ConfigWalk) :
    configDescriptor d offset r.length (byte r 1) w = stepRecord w r := by
  by_cases hr : isInterface r
  · exact (configDescriptor_interface h hr w).unique
      (configDescriptor_interface (readsAs_self r) hr w)
  · exact (configDescriptor_member h hr w).unique (configDescriptor_member (readsAs_self r) hr w)

variable {fuel : ℕ}

theorem configLoop_record {s : List UInt8} (h : d.drop offset = r ++ s) (hr : IsRecord r)
    (w : ConfigWalk) : configLoop d d.length (fuel + 1) offset w =
      stepRecord w r >>= configLoop d d.length fuel (offset + r.length) := by
  have hin := readsAs_drop h
  have htwo := hr.two_le
  have hlen := congrArg List.length h
  rw [List.length_drop, List.length_append] at hlen
  have hsize : readByte d offset = .ok r.length := by
    have hzero := hin 0 (by omega)
    rwa [Nat.add_zero, hr.length] at hzero
  rw [configLoop, if_pos (by omega), if_neg (by omega), hsize, ok_bind, hin 1 (by omega), ok_bind,
    if_neg (by omega), configDescriptor_eq hin]

/-- **On a chain the loop is a run over the descriptors.** -/
theorem configLoop_chain (h : IsChain (d.drop offset) rs) (hfuel : d.length - offset < fuel)
    (w : ConfigWalk) :
    configLoop d d.length fuel offset w = rs.foldlM stepRecord w := by
  induction rs generalizing offset fuel w with
  | nil =>
    obtain ⟨fuel, rfl⟩ := Nat.exists_eq_add_one_of_ne_zero (Nat.ne_zero_of_lt hfuel)
    have hend := List.drop_eq_nil_iff.mp h.flatten.symm
    rw [configLoop, if_neg (Nat.not_lt.mpr hend)]
    rfl
  | cons r rs ih =>
    obtain ⟨fuel, rfl⟩ := Nat.exists_eq_add_one_of_ne_zero (Nat.ne_zero_of_lt hfuel)
    have hr := h.record r List.mem_cons_self
    have hcut : d.drop offset = r ++ rs.flatten := by rw [← h.flatten, List.flatten_cons]
    have hrest : IsChain (d.drop (offset + r.length)) rs := by
      rw [← List.drop_drop, hcut, List.drop_left]
      exact ⟨rfl, fun x hx => h.record x (List.mem_cons_of_mem _ hx)⟩
    have hlen := congrArg List.length hcut
    rw [List.length_drop, List.length_append] at hlen
    have hpos := hr.pos
    rw [configLoop_record hcut hr, List.foldlM_cons]
    exact bind_congr fun w => ih hrest (by omega) w

/-- **What is not a chain is refused.** -/
theorem configLoop_no_chain (h : ¬∃ rs, IsChain (d.drop offset) rs)
    (hfuel : d.length - offset < fuel) (w : ConfigWalk) :
    configLoop d d.length fuel offset w = .error .reject := by
  induction fuel generalizing offset w with
  | zero => exact absurd hfuel (Nat.not_lt_zero _)
  | succ fuel ih =>
    have hlt : offset < d.length := by
      by_contra hge
      refine h ⟨[], ?_⟩
      rw [List.drop_eq_nil_iff.mpr (Nat.not_lt.mp hge)]
      exact isChain_nil
    by_cases htwo : d.length - offset < 2
    · rw [configLoop, if_pos hlt, if_pos htwo]
    have hbyte : byte (d.drop offset) 0 = byte d offset := byte_drop d offset 0
    by_cases hfit : byte d offset < 2 ∨ d.length - offset < byte d offset
    · rw [configLoop, if_pos hlt, if_neg htwo, readByte_eq hlt, ok_bind,
        readByte_eq (by omega), ok_bind, if_pos hfit]
    -- The record in front is taken; the rest is no chain either.
    have hr : IsRecord ((d.drop offset).take (byte d offset)) := by
      rw [← hbyte]
      refine isRecord_take ?_ ?_
      · omega
      · rw [hbyte, List.length_drop]
        omega
    have hlen : ((d.drop offset).take (byte d offset)).length = byte d offset := by
      rw [List.length_take, List.length_drop]
      omega
    have hcut := (List.take_append_drop (byte d offset) (d.drop offset)).symm
    rw [configLoop_record hcut hr, hlen]
    have hrest : ¬∃ rs, IsChain (d.drop (offset + byte d offset)) rs := by
      rintro ⟨rs, hrs⟩
      refine h ⟨(d.drop offset).take (byte d offset) :: rs, ?_⟩
      nth_rewrite 1 [hcut]
      refine isChain_append hr ?_
      rwa [List.drop_drop]
    have hnext : ∀ w, configLoop d d.length fuel (offset + byte d offset) w = .error .reject :=
      fun w => ih hrest (by omega) w
    by_cases hi : isInterface ((d.drop offset).take (byte d offset))
    · rcases configDescriptor_interface (readsAs_self _) hi w with ⟨-, w', hw, -⟩ | ⟨-, hw⟩
      · rw [stepRecord, hw, ok_bind, hnext]
      · rw [stepRecord, hw]
        rfl
    · rcases configDescriptor_member (readsAs_self _) hi w with ⟨-, w', hw, -⟩ | ⟨-, hw⟩
      · rw [stepRecord, hw, ok_bind, hnext]
      · rw [stepRecord, hw]
        rfl

/-! ## The validator -/

theorem headerOk_eq (h : 9 ≤ d.length) : configurationHeaderOk d 9 =
    .ok (decide ((((byte d 0 = 9 ∧ byte d 1 = 2) ∧ byte d 4 ≠ 0 ∧ byte d 5 ≠ 0) ∧
      byte d 7 &&& 0x80 ≠ 0) ∧ 9 ≤ word d 2)) := by
  unfold configurationHeaderOk
  rw [if_neg (by omega), readByte_eq (by omega), readByte_eq (by omega), readByte_eq (by omega),
    readByte_eq (by omega), readByte_eq (by omega), readWord_eq (by omega)]
  simp only [ok_bind]
  split
  case isTrue hno =>
    refine congrArg Except.ok (decide_eq_false ?_).symm
    tauto
  case isFalse hyes =>
    refine congrArg Except.ok (Bool.eq_iff_iff.mpr ?_)
    simp only [not_or, not_not, ne_eq] at hyes
    simp only [Bool.and_eq_true, decide_eq_true_iff]
    tauto

theorem end_iff (h : Visited (groups rs) w) :
    ¬(!w.closed ∨ w.uniqueInterfaces ≠ byte d 4 ∨ w.interfaceDescriptors = 0) ↔
      (∀ g ∈ (groups rs).getLast?, g.full) ∧
        (interfaceNumbers (groups rs)).card = byte d 4 ∧ groups rs ≠ [] := by
  rw [h.unique, h.count, ← h.closed, List.length_eq_zero_iff]
  simp only [not_or, not_not, Bool.not_eq_true', Bool.not_eq_false, ne_eq]

theorem configuration_iff (hrs : IsChain (d.drop 9) rs) : Configuration d rs ↔ HeaderOk d ∧
    ((∀ r ∈ (cut isInterface rs).1, ¬isEndpoint r) ∧
      ∀ u g v, groups rs = u ++ g :: v → GroupNeeds u g) ∧
    (∀ g ∈ (groups rs).getLast?, g.full) ∧
      (interfaceNumbers (groups rs)).card = byte d 4 ∧ groups rs ≠ [] := by
  constructor
  · rintro ⟨hheader, -, hlead, hgroup, hnumbers, hbot⟩
    obtain ⟨hneeds, hlast⟩ := groupNeeds_iff.mpr ⟨hgroup, hbot⟩
    refine ⟨hheader, ⟨hlead, hneeds⟩, hlast, hnumbers, fun hnil => hheader.interfaces ?_⟩
    rw [← hnumbers, hnil]
    rfl
  · rintro ⟨hheader, ⟨hlead, hneeds⟩, hlast, hnumbers, -⟩
    obtain ⟨hgroup, hbot⟩ := groupNeeds_iff.mp ⟨hneeds, hlast⟩
    exact ⟨hheader, hrs, hlead, hgroup, hnumbers, hbot⟩

/-- **The validator accepts the well-formed configurations that are not too long and no others,
and its summary is what they say.** -/
theorem configurationCheck_decides (d : List UInt8) (maxLength : ℕ) :
    Decides .reject (configurationCheck d maxLength)
      (d.length ≤ maxLength ∧ ∃ rs, Configuration d rs)
      fun s => ∀ rs, Configuration d rs → s = summaryOf d rs := by
  unfold configurationCheck
  by_cases hsize : d.length < 9 ∨ maxLength < d.length
  · rw [if_pos hsize]
    refine (Decides.refuse _).congr (iff_of_false not_false ?_)
    rintro ⟨hmax, rs, hrs⟩
    have hnine := hrs.header.size
    omega
  have hnine : 9 ≤ d.length := by omega
  rw [if_neg hsize, headerOk_eq hnine, ok_bind, readWord_eq (by omega), readByte_eq (by omega),
    readByte_eq (by omega)]
  simp only [ok_bind]
  have hheader : HeaderOk d ↔ ((((byte d 0 = 9 ∧ byte d 1 = 2) ∧ byte d 4 ≠ 0 ∧ byte d 5 ≠ 0) ∧
      byte d 7 &&& 0x80 ≠ 0) ∧ 9 ≤ word d 2) ∧ word d 2 = d.length := by
    constructor
    · rintro ⟨-, h0, h1, htotal, h4, h5, h7⟩
      exact ⟨⟨⟨⟨⟨h0, h1⟩, h4, h5⟩, h7⟩, htotal ▸ hnine⟩, htotal⟩
    · rintro ⟨⟨⟨⟨⟨h0, h1⟩, h4, h5⟩, h7⟩, -⟩, htotal⟩
      exact ⟨hnine, h0, h1, htotal, h4, h5, h7⟩
  by_cases hchain : ∃ rs, IsChain (d.drop 9) rs
  · obtain ⟨rs, hrs⟩ := hchain
    have hone : ∀ rs', Configuration d rs' → rs' = rs := fun rs' h => h.chain.unique hrs
    refine Decides.congr (Decides.guard fun _ => Decides.guard fun htotal =>
      Decides.bind (P := (∀ r ∈ (cut isInterface rs).1, ¬isEndpoint r) ∧
        ∀ u g v, groups rs = u ++ g :: v → GroupNeeds u g) (R := Visited (groups rs)) ?_
      fun _ w hw => Decides.congr (Decides.guard fun _ => Decides.pure ?_)
        ((and_iff_left trivial).trans (end_iff hw))) ?_
    · rw [not_not.mp htotal, configLoop_chain hrs (by omega)]
      exact records_decides rs
    · intro rs' hrs'
      rw [hone rs' hrs', summaryOf, ← not_not.mp htotal, hw.count, hw.unique, hw.endpoints,
        hw.firstInterface, hw.firstEndpoint, hw.found, hw.botInterface, hw.bulkIn, hw.bulkOut]
    · rw [Bool.not_eq_true', decide_eq_false_iff_not, not_not, not_not, ← and_assoc, ← hheader]
      constructor
      · intro h
        exact ⟨by omega, rs, (configuration_iff hrs).mpr h⟩
      · rintro ⟨-, rs', hrs'⟩
        rw [hone rs' hrs'] at hrs'
        exact (configuration_iff hrs).mp hrs'
  · refine Decides.congr (Decides.guard fun _ => Decides.guard fun htotal =>
      Decides.bind (P := False) (R := fun _ => True) (Q := True) ?_ fun hno => hno.elim) ?_
    · rw [not_not.mp htotal, configLoop_no_chain hchain (by omega)]
      exact Decides.refuse _
    · refine iff_of_false (fun h => h.2.2.1) ?_
      rintro ⟨-, rs, hrs⟩
      exact hchain ⟨rs, hrs.chain⟩

end ZealBringup.Pi4
