import ZealBringup.Lib.Checked
import ZealBringup.Pi4.Config

/-!
# One descriptor of a configuration

What the validator needs of a descriptor, and the state behind it.  The descriptors of an
interface are then seen together: the counts and the bulk endpoints in the state are those of
the descriptors so far.

* `configDescriptor_interface`, `configDescriptor_member` — one descriptor, read from its bytes.
* `Walking.step` — one descriptor more in an interface.
-/

namespace ZealBringup.Pi4

open Checked Records

variable {d r e : List UInt8} {es u : List (List UInt8)} {offset k : ℕ} {w w₀ : ConfigWalk}

/-! ## Reading a descriptor -/

/-- The descriptor is in the string from the offset on. -/
def ReadsAs (d : List UInt8) (offset : ℕ) (r : List UInt8) : Prop :=
  ∀ k < r.length, readByte d (offset + k) = .ok (byte r k)

theorem readsAs_self (r : List UInt8) : ReadsAs r 0 r := by
  intro k hk
  rw [Nat.zero_add, readByte, if_pos hk]

theorem ReadsAs.word (h : ReadsAs d offset r) (hk : k + 1 < r.length) :
    readWord d (offset + k) = .ok (word r k) := by
  rw [readWord, h k (by omega), Nat.add_assoc, h (k + 1) hk]
  rfl

/-! ## One descriptor -/

/-- The state behind an interface descriptor. -/
def ConfigWalk.opened (w : ConfigWalk) (r : List UInt8) : ConfigWalk :=
  let w := w.see (byte r 2)
  { w with
    firstInterface :=
      if w.interfaceDescriptors = 0 then ⟨byte r 2, byte r 5, byte r 6, byte r 7, byte r 4⟩
      else w.firstInterface
    interfaceDescriptors := w.interfaceDescriptors + 1
    expectedEndpoints := byte r 4
    currentEndpoints := 0
    haveInterface := true
    currentBotInterface := isBot r
    botInterfaceFound := w.botInterfaceFound || isBot r
    botInterface := if isBot r then ⟨byte r 2, byte r 3, byte r 4⟩ else w.botInterface }

theorem see_eq (w : ConfigWalk) (number : ℕ) : w.see number =
    { w with
      seenInterfaces := (w.see number).seenInterfaces
      uniqueInterfaces := (w.see number).uniqueInterfaces } := by
  rw [ConfigWalk.see]
  split <;> rfl

theorem openInterface_decides (h : ReadsAs d offset r) (hsize : 9 ≤ r.length) (w : ConfigWalk) :
    Decides .reject (openInterface d offset w) (¬(isBot r ∧ w.botInterfaceFound))
      (· = w.opened r) := by
  unfold openInterface
  rw [h 2 (by omega), h 3 (by omega), h 4 (by omega), h 5 (by omega), h 6 (by omega),
    h 7 (by omega)]
  simp only [ok_bind]
  refine Decides.congr (Decides.guard fun _ => Decides.pure rfl) ?_
  rw [see_eq, and_true]
  rfl

/-- The state behind a bulk endpoint of the storage interface. -/
def ConfigWalk.bulked (w : ConfigWalk) (e : List UInt8) : ConfigWalk :=
  if isIn e then
    { w with
      bulkIn := { bulkRecord e none with maxBurst := w.bulkIn.maxBurst, streams := w.bulkIn.streams }
      companionEndpoint := 1 }
  else
    { w with
      bulkOut :=
        { bulkRecord e none with maxBurst := w.bulkOut.maxBurst, streams := w.bulkOut.streams }
      companionEndpoint := 2 }

/-- The endpoint of the direction is still to come. -/
def ConfigWalk.Free (w : ConfigWalk) (e : List UInt8) : Prop :=
  if isIn e then w.bulkIn.address = UINT32_MAX else w.bulkOut.address = UINT32_MAX

theorem recordBulk_decides (w : ConfigWalk) (e : List UInt8) :
    Decides .reject (w.recordBulk (byte e 2) (byte e 3) (word e 4) (byte e 6)) (w.Free e)
      (· = w.bulked e) := by
  have hin : isIn e ↔ byte e 2 &&& 0x80 ≠ 0 := by simp [isIn]
  unfold ConfigWalk.recordBulk ConfigWalk.Free ConfigWalk.bulked
  by_cases h : byte e 2 &&& 0x80 ≠ 0
  · simp only [if_pos h, if_pos (hin.mpr h)]
    refine Decides.congr (Decides.guard fun _ => Decides.pure rfl) ?_
    rw [and_true, not_not]
  · simp only [if_neg h, if_neg (hin.not.mpr h)]
    refine Decides.congr (Decides.guard fun _ => Decides.pure rfl) ?_
    rw [and_true, not_not]

/-- The state where an endpoint has been recorded. -/
def ConfigWalk.recorded (w : ConfigWalk) (e : List UInt8) : ConfigWalk :=
  let w := { w with
    firstEndpoint :=
      if w.endpointDescriptors = 0 then ⟨byte e 2, byte e 3, word e 4, byte e 6⟩
      else w.firstEndpoint }
  if w.currentBotInterface && isBulk e then w.bulked e else w

theorem recordEndpoint_decides (w : ConfigWalk) (e : List UInt8) :
    Decides .reject (w.recordEndpoint (byte e 2) (byte e 3) (word e 4) (byte e 6))
      (w.currentBotInterface && isBulk e → w.Free e) (· = w.recorded e) := by
  unfold ConfigWalk.recordEndpoint ConfigWalk.recorded
  by_cases hb : w.currentBotInterface && isBulk e
  · have hb' : (w.currentBotInterface && byte e 3 &&& 3 == 2) = true := hb
    simp only [if_pos hb, if_pos hb']
    exact (recordBulk_decides _ e).congr ⟨fun hfree _ => hfree, fun hall => hall hb⟩
  · have hb' : ¬(w.currentBotInterface && byte e 3 &&& 3 == 2) = true := hb
    simp only [if_neg hb, if_neg hb']
    exact Decides.congr (Decides.pure rfl) (iff_of_true trivial fun hyes => absurd hyes hb)

/-- The state behind an endpoint descriptor. -/
def ConfigWalk.endpointed (w : ConfigWalk) (e : List UInt8) : ConfigWalk :=
  { w.recorded e with
    endpointDescriptors := (w.recorded e).endpointDescriptors + 1
    currentEndpoints := (w.recorded e).currentEndpoints + 1 }

theorem configEndpoint_decides (h : ReadsAs d offset e) (w : ConfigWalk) :
    Decides .reject (configEndpoint d offset e.length w)
      ((w.haveInterface ∧ w.currentEndpoints < w.expectedEndpoints) ∧
        EndpointOk w.currentBotInterface e ∧ (w.currentBotInterface && isBulk e → w.Free e))
      (· = w.endpointed e) := by
  unfold configEndpoint
  by_cases hsize : e.length < 7
  · rw [if_pos (.inl hsize)]
    refine (Decides.refuse _).congr (iff_of_false not_false fun hall => ?_)
    exact absurd hall.2.1.size (by omega)
  rw [h 2 (by omega), h 3 (by omega), h.word (show 4 + 1 < e.length by omega), h 6 (by omega)]
  simp only [ok_bind]
  refine Decides.congr (Decides.guard fun _ => Decides.guard fun _ => Decides.guard fun _ =>
    Decides.bind (recordEndpoint_decides w e) fun _ a ha => Decides.pure ?_) ?_
  · rw [ha]
    rfl
  · constructor
    · rintro ⟨h1, h2, h3, hfree, -⟩
      simp only [not_or, not_and, not_not, Bool.not_eq_true', Bool.not_eq_false, not_le] at h1 h2 h3
      refine ⟨h1.2, ⟨by omega, h2.1, h2.2, fun hbot hbulk => h3 ?_⟩, hfree⟩
      rw [hbot]
      exact hbulk
    · rintro ⟨⟨h1, h2⟩, hok, hfree⟩
      refine ⟨?_, ?_, ?_, hfree, trivial⟩
      · simp only [not_or, Bool.not_eq_true', Bool.not_eq_false, not_le]
        exact ⟨hsize, h1, h2⟩
      · simp only [not_or, not_not]
        exact ⟨hok.number, hok.reserved⟩
      · rintro ⟨hbulk, hne⟩
        obtain ⟨hbot, hbulk⟩ := Bool.and_eq_true_iff.mp hbulk
        exact hne (hok.packet hbot hbulk)

/-- The state behind a companion descriptor. -/
def ConfigWalk.companioned (w : ConfigWalk) (c : List UInt8) : ConfigWalk :=
  if w.companionEndpoint = 1 then
    { w with
      bulkIn := { w.bulkIn with maxBurst := byte c 2, streams := byte c 3 }
      companionEndpoint := 0 }
  else
    { w with
      bulkOut := { w.bulkOut with maxBurst := byte c 2, streams := byte c 3 }
      companionEndpoint := 0 }

theorem configCompanion_decides (h : ReadsAs d offset r) (w : ConfigWalk) :
    Decides .reject (configCompanion d offset r.length w)
      (CompanionOk r ∧ w.companionEndpoint ≠ 0) (· = w.companioned r) := by
  unfold configCompanion
  by_cases hsize : r.length = 6
  · rw [h 2 (by omega), h 3 (by omega), h 4 (by omega), h 5 (by omega)]
    simp only [ok_bind]
    refine Decides.congr (Decides.guard fun _ => Decides.guard fun _ =>
      Decides.ite (fun h1 => Decides.pure ?_) fun h1 => Decides.pure ?_) ?_
    · rw [ConfigWalk.companioned, if_pos h1]
    · rw [ConfigWalk.companioned, if_neg h1]
    · simp only [not_or, not_not, not_lt, and_true]
      constructor
      · rintro ⟨⟨h1, h2⟩, h3, h4, h5, h6⟩
        exact ⟨⟨h1, h3, h4, h5, h6⟩, h2⟩
      · rintro ⟨⟨h1, h3, h4, h5, h6⟩, h2⟩
        exact ⟨⟨h1, h2⟩, h3, h4, h5, h6⟩
  · rw [if_pos (.inl hsize)]
    exact (Decides.refuse _).congr (iff_of_false not_false fun hall => hsize hall.1.size)

theorem await_eq (w : ConfigWalk) (type : ℕ) :
    w.await type = { w with companionEndpoint := (w.await type).companionEndpoint } := by
  rw [ConfigWalk.await]
  split <;> rfl

/-- What a descriptor needs that is no interface. -/
structure MemberOk (w : ConfigWalk) (r : List UInt8) : Prop where
  endpoint : isEndpoint r → (w.haveInterface ∧ w.currentEndpoints < w.expectedEndpoints) ∧
    EndpointOk w.currentBotInterface r ∧ (w.currentBotInterface && isBulk r → w.Free r)
  companion : isCompanion r → w.currentBotInterface → CompanionOk r ∧ w.companionEndpoint ≠ 0

/-- The state behind a descriptor that is no interface. -/
def ConfigWalk.member (w : ConfigWalk) (r : List UInt8) : ConfigWalk :=
  if isEndpoint r then (w.await (byte r 1)).endpointed r
  else if isCompanion r ∧ w.currentBotInterface then w.companioned r
  else w.await (byte r 1)

/-- **An interface descriptor.** -/
theorem configDescriptor_interface (h : ReadsAs d offset r) (hr : isInterface r) (w : ConfigWalk) :
    Decides .reject (configDescriptor d offset r.length (byte r 1) w)
      ((9 ≤ r.length ∧ w.closed) ∧ ¬(isBot r ∧ w.botInterfaceFound))
      (· = (w.await (byte r 1)).opened r) := by
  have htype : byte r 1 = 4 := beq_iff_eq.mp hr
  have hclosed : (w.await (byte r 1)).closed = w.closed := by rw [await_eq]; rfl
  have hfound : (w.await (byte r 1)).botInterfaceFound = w.botInterfaceFound := by rw [await_eq]
  unfold configDescriptor
  rw [if_pos htype, hclosed, ← hfound]
  refine Decides.congr (Decides.guard fun hno => openInterface_decides h ?_ _) ?_
  · omega
  · simp only [not_or, not_lt, Bool.not_eq_true', Bool.not_eq_false]

/-- **A descriptor that is no interface.** -/
theorem configDescriptor_member (h : ReadsAs d offset r) (hr : ¬isInterface r) (w : ConfigWalk) :
    Decides .reject (configDescriptor d offset r.length (byte r 1) w) (MemberOk w r)
      (· = w.member r) := by
  have htype : byte r 1 ≠ 4 := fun heq => hr (beq_iff_eq.mpr heq)
  unfold configDescriptor ConfigWalk.member
  rw [if_neg htype]
  by_cases hend : byte r 1 = 5
  · -- An endpoint is no companion.
    have hno : ¬isCompanion r := by
      rw [isCompanion, hend]
      decide
    have hend' : isEndpoint r := beq_iff_eq.mpr hend
    rw [if_pos hend, if_pos hend']
    refine (configEndpoint_decides h _).congr ?_
    rw [await_eq]
    exact ⟨fun hok => ⟨fun _ => hok, fun hc => absurd hc hno⟩, fun hok => hok.endpoint hend'⟩
  have hno : ¬isEndpoint r := fun hyes => hend (beq_iff_eq.mp hyes)
  rw [if_neg hend, if_neg hno]
  have hbot : (w.await (byte r 1)).currentBotInterface = w.currentBotInterface := by rw [await_eq]
  rw [hbot]
  by_cases hcomp : byte r 1 = 48 ∧ w.currentBotInterface
  · have hw : w.await (byte r 1) = w := if_neg (not_not.mpr hcomp.1)
    have hcomp' : isCompanion r ∧ w.currentBotInterface := ⟨beq_iff_eq.mpr hcomp.1, hcomp.2⟩
    rw [if_pos hcomp, if_pos hcomp', hw]
    refine (configCompanion_decides h w).congr ?_
    exact ⟨fun hok => ⟨fun he => absurd he hno, fun _ _ => hok⟩,
      fun hok => hok.companion hcomp'.1 hcomp'.2⟩
  · have hcomp' : ¬(isCompanion r ∧ w.currentBotInterface) := fun hyes =>
      hcomp ⟨beq_iff_eq.mp hyes.1, hyes.2⟩
    rw [if_neg hcomp, if_neg hcomp']
    refine Decides.congr (Decides.pure rfl) (iff_of_true trivial ?_)
    exact ⟨fun he => absurd he hno, fun hc hb => absurd ⟨hc, hb⟩ hcomp'⟩

/-! ## Bulk endpoints and their companions -/

section Bulk

variable {kind : List UInt8 → Bool} {u v : List (List UInt8)}

theorem byte_lt (r : List UInt8) (k : ℕ) : byte r k < 256 := UInt8.toNat_lt _

theorem bulkEnd_none (h : ∀ e ∈ u, kind e = false) (v : List (List UInt8)) :
    bulkEnd kind (u ++ v) = bulkEnd kind v := by
  induction u with
  | nil => rfl
  | cons e u ih =>
    rw [List.cons_append, bulkEnd, h e List.mem_cons_self, if_neg Bool.false_ne_true]
    exact ih fun e' he' => h e' (List.mem_cons_of_mem _ he')

theorem bulkEnd_new (h : ∀ e ∈ u, kind e = false) (hr : kind r) :
    bulkEnd kind (u ++ [r]) = bulkRecord r none := by
  rw [bulkEnd_none h, bulkEnd, if_pos hr]
  rfl

theorem bulkEnd_next (h : ∀ e ∈ u, kind e = false) (he : kind e) :
    bulkEnd kind (u ++ [e] ++ [r]) = bulkRecord e (some r) := by
  rw [List.append_assoc, bulkEnd_none h, List.singleton_append, bulkEnd, if_pos he]
  rfl

/-- A descriptor that is neither the endpoint nor right behind it changes nothing. -/
theorem bulkEnd_same (hr : kind r → ∃ e ∈ u, kind e)
    (hc : isCompanion r → ∀ e ∈ u.getLast?, kind e = false) :
    bulkEnd kind (u ++ [r]) = bulkEnd kind u := by
  induction u with
  | nil =>
    have hno : ¬kind r := fun hyes => by
      obtain ⟨e, he, -⟩ := hr hyes
      cases he
    simp [bulkEnd, hno]
  | cons e u ih =>
    rw [List.cons_append, bulkEnd, bulkEnd]
    by_cases he : kind e
    · rw [if_pos he, if_pos he]
      cases u with
      | nil =>
        -- The descriptor is right behind the endpoint, so it is no companion.
        have hno : ¬isCompanion r := fun hyes => by
          have hlast := hc hyes e rfl
          rw [he] at hlast
          cases hlast
        simp [bulkRecord, companionField, hno]
      | cons e' u => rfl
    · rw [if_neg he, if_neg he]
      refine ih (fun hyes => ?_) fun hyes e' he' => hc hyes e' ?_
      · obtain ⟨e', he', hk⟩ := hr hyes
        rcases List.mem_cons.mp he' with rfl | he'
        · exact absurd hk he
        · exact ⟨e', he', hk⟩
      · rw [List.getLast?_cons]
        rw [Option.mem_def.mp he']
        rfl

theorem bulkEnd_address : (bulkEnd kind u).address = UINT32_MAX ↔ ∀ e ∈ u, kind e = false := by
  induction u with
  | nil => simp [bulkEnd]
  | cons e u ih =>
    rw [bulkEnd, List.forall_mem_cons, ← ih]
    by_cases he : kind e
    · have hlt := byte_lt e 2
      have hne : byte e 2 ≠ UINT32_MAX := by
        rw [UINT32_MAX]
        omega
      rw [if_pos he]
      exact iff_of_false hne fun hno => absurd hno.1 (by rw [he]; decide)
    · rw [if_neg he]
      exact (and_iff_right (by simpa using he)).symm

theorem filter_lt_one : (u.filter kind).length < 1 ↔ ∀ e ∈ u, kind e = false := by
  rw [Nat.lt_one_iff, List.length_eq_zero_iff, List.filter_eq_nil_iff]
  simp

end Bulk

/-! ## The descriptors of one interface -/

/-- Which companion may come next. -/
def awaited (u : List (List UInt8)) : ℕ :=
  match u.getLast? with
  | some e => if isBulkIn e then 1 else if isBulkOut e then 2 else 0
  | none => 0

/-- The state after some descriptors of an interface, where `es` are the endpoints of the interfaces
before it. -/
def ConfigWalk.after (w : ConfigWalk) (es u : List (List UInt8)) : ConfigWalk :=
  { w with
    endpointDescriptors := (es ++ u.filter isEndpoint).length
    currentEndpoints := (u.filter isEndpoint).length
    firstEndpoint := firstEndpointOf (es ++ u.filter isEndpoint)
    bulkIn := if w.currentBotInterface then bulkEnd isBulkIn u else w.bulkIn
    bulkOut := if w.currentBotInterface then bulkEnd isBulkOut u else w.bulkOut
    companionEndpoint := if w.currentBotInterface then awaited u else 0 }

/-- What a descriptor needs of those before it in its interface. -/
structure Needs (bot : Bool) (expected : ℕ) (u : List (List UInt8)) (r : List UInt8) : Prop where
  count : isEndpoint r → (u.filter isEndpoint).length < expected
  endpoint : isEndpoint r → EndpointOk bot r
  bulkIn : isBulkIn r → bot → (u.filter isBulkIn).length < 1
  bulkOut : isBulkOut r → bot → (u.filter isBulkOut).length < 1
  companion : isCompanion r → bot → CompanionOk r ∧ ∃ e ∈ u.getLast?, isEndpoint e ∧ isBulk e

theorem awaited_ne_zero {u : List (List UInt8)} :
    awaited u ≠ 0 ↔ ∃ e ∈ u.getLast?, isEndpoint e ∧ isBulk e := by
  unfold awaited
  cases u.getLast? with
  | none => simp
  | some e =>
    simp only [Option.mem_some_iff, exists_eq_left', isBulkIn, isBulkOut]
    by_cases h1 : isEndpoint e <;> by_cases h2 : isBulk e <;> by_cases h3 : isIn e <;>
      simp [h1, h2, h3]

/-- The states of the walk in an interface: what was needed so far has been there. -/
structure Walking (w₀ : ConfigWalk) (es u : List (List UInt8)) (w : ConfigWalk) : Prop where
  state : w = w₀.after es u
  bulkIn : w₀.currentBotInterface → (u.filter isBulkIn).length ≤ 1
  bulkOut : w₀.currentBotInterface → (u.filter isBulkOut).length ≤ 1

/-- The slot of a bulk endpoint is free if no such endpoint has come yet. -/
theorem free_iff (w₀ : ConfigWalk) (es u : List (List UInt8)) (hend : isEndpoint r) :
    (w₀.currentBotInterface && isBulk r → (w₀.after es u).Free r) ↔
      (isBulkIn r → w₀.currentBotInterface → (u.filter isBulkIn).length < 1) ∧
        (isBulkOut r → w₀.currentBotInterface → (u.filter isBulkOut).length < 1) := by
  simp only [ConfigWalk.Free, ConfigWalk.after, isBulkIn, isBulkOut, filter_lt_one]
  by_cases hbot : w₀.currentBotInterface <;> by_cases hbulk : isBulk r <;>
    by_cases hin : isIn r <;> simp [hend, hbot, hbulk, hin, bulkEnd_address, isBulkIn, isBulkOut]

theorem memberOk_iff (hhave : w₀.haveInterface) (es u : List (List UInt8)) :
    MemberOk (w₀.after es u) r ↔ Needs w₀.currentBotInterface w₀.expectedEndpoints u r := by
  have hawait : w₀.currentBotInterface → ((w₀.after es u).companionEndpoint ≠ 0 ↔
      ∃ e ∈ u.getLast?, isEndpoint e ∧ isBulk e) := by
    intro hbot
    have hstate : (w₀.after es u).companionEndpoint = awaited u := if_pos hbot
    rw [hstate]
    exact awaited_ne_zero
  constructor
  · rintro ⟨hend, hcomp⟩
    refine ⟨fun he => (hend he).1.2, fun he => (hend he).2.1, fun hb => ?_, fun hb => ?_,
      fun hc hbot => ?_⟩
    · have he : isEndpoint r := (Bool.and_eq_true_iff.mp (Bool.and_eq_true_iff.mp hb).1).1
      exact ((free_iff w₀ es u he).mp (hend he).2.2).1 hb
    · have he : isEndpoint r := (Bool.and_eq_true_iff.mp (Bool.and_eq_true_iff.mp hb).1).1
      exact ((free_iff w₀ es u he).mp (hend he).2.2).2 hb
    · obtain ⟨hok, hwait⟩ := hcomp hc hbot
      exact ⟨hok, (hawait hbot).mp hwait⟩
  · rintro ⟨hcount, hend, hin, hout, hcomp⟩
    refine ⟨fun he => ⟨⟨hhave, hcount he⟩, hend he, (free_iff w₀ es u he).mpr ⟨hin, hout⟩⟩,
      fun hc hbot => ?_⟩
    obtain ⟨hok, hlast⟩ := hcomp hc hbot
    exact ⟨hok, (hawait hbot).mpr hlast⟩

theorem awaited_concat (u : List (List UInt8)) (r : List UInt8) :
    awaited (u ++ [r]) = if isBulkIn r then 1 else if isBulkOut r then 2 else 0 := by
  rw [awaited, List.getLast?_concat]

theorem firstEndpointOf_concat (es : List (List UInt8)) (e : List UInt8) :
    firstEndpointOf (es ++ [e]) =
      if es.length = 0 then ⟨byte e 2, byte e 3, word e 4, byte e 6⟩ else firstEndpointOf es := by
  cases es <;> rfl

theorem isEndpoint_not_companion (h : isEndpoint r) : ¬isCompanion r := by
  rw [isCompanion, beq_iff_eq, beq_iff_eq.mp h]
  decide

theorem await_endpoint (w : ConfigWalk) (h : isEndpoint r) :
    w.await (byte r 1) = { w with companionEndpoint := 0 } := by
  rw [ConfigWalk.await, if_pos]
  rw [beq_iff_eq.mp h]
  decide

theorem after_endpoint (hend : isEndpoint r)
    (h : Needs w₀.currentBotInterface w₀.expectedEndpoints u r) :
    (w₀.after es u).member r = w₀.after es (u ++ [r]) := by
  have hno := isEndpoint_not_companion hend
  have hfilter : (u ++ [r]).filter isEndpoint = u.filter isEndpoint ++ [r] := by
    rw [List.filter_append, List.filter_cons_of_pos hend]
    rfl
  have hfirst := firstEndpointOf_concat (es ++ u.filter isEndpoint) r
  rw [ConfigWalk.member, if_pos hend, await_endpoint _ hend]
  have hkeep : ∀ kind : List UInt8 → Bool, ¬kind r → bulkEnd kind (u ++ [r]) = bulkEnd kind u :=
    fun kind hk => bulkEnd_same (fun hyes => absurd hyes hk) fun hc => absurd hc hno
  have hnew : ∀ kind : List UInt8 → Bool, kind r → (u.filter kind).length < 1 →
      bulkEnd kind (u ++ [r]) = bulkRecord r none ∧ bulkEnd kind u = {} := by
    intro kind hk hlt
    have hnone := filter_lt_one.mp hlt
    refine ⟨bulkEnd_new hnone hk, ?_⟩
    have hnil := bulkEnd_none hnone []
    rwa [List.append_nil] at hnil
  unfold ConfigWalk.endpointed ConfigWalk.recorded ConfigWalk.bulked ConfigWalk.after
  rw [hfilter, ← List.append_assoc, hfirst, awaited_concat]
  by_cases hbot : w₀.currentBotInterface
  · by_cases hbulk : isBulk r
    · by_cases hin : isIn r
      · have hr : isBulkIn r := by simp [isBulkIn, hend, hbulk, hin]
        have hout : ¬isBulkOut r := by simp [isBulkOut, hin]
        obtain ⟨h1, h2⟩ := hnew isBulkIn hr (h.bulkIn hr hbot)
        simp [hbot, hbulk, hin, hr, h1, h2, hkeep isBulkOut hout, Nat.add_assoc]
        rfl
      · have hr : isBulkOut r := by simp [isBulkOut, hend, hbulk, hin]
        have hout : ¬isBulkIn r := by simp [isBulkIn, hin]
        obtain ⟨h1, h2⟩ := hnew isBulkOut hr (h.bulkOut hr hbot)
        simp [hbot, hbulk, hin, hr, hout, h1, h2, hkeep isBulkIn hout, Nat.add_assoc]
        rfl
    · have hin : ¬isBulkIn r := by simp [isBulkIn, hbulk]
      have hout : ¬isBulkOut r := by simp [isBulkOut, hbulk]
      simp [hbot, hbulk, hin, hout, hkeep isBulkIn hin, hkeep isBulkOut hout, Nat.add_assoc]
  · simp [hbot, Nat.add_assoc]

/-- A companion in the storage interface belongs to the endpoint before it. -/
theorem after_companion (hcomp : isCompanion r)
    (hbot : w₀.currentBotInterface) (hw : Walking w₀ es u w)
    (h : Needs w₀.currentBotInterface w₀.expectedEndpoints u r) :
    w.member r = w₀.after es (u ++ [r]) := by
  obtain ⟨rfl, hin, hout⟩ := hw
  have hend : ¬isEndpoint r := fun hyes => isEndpoint_not_companion hyes hcomp
  have hfilter : (u ++ [r]).filter isEndpoint = u.filter isEndpoint := by
    rw [List.filter_append, List.filter_cons_of_neg hend]
    exact List.append_nil _
  obtain ⟨-, e, hlast, he, hbulk⟩ := h.companion hcomp hbot
  obtain ⟨v, rfl⟩ : ∃ v, u = v ++ [e] := List.getLast?_eq_some_iff.mp hlast
  have hr : ¬isBulkIn r ∧ ¬isBulkOut r := by simp [isBulkIn, isBulkOut, hend]
  -- The endpoint is the first one of its direction.
  have hbefore : ∀ kind : List UInt8 → Bool, kind e → ((v ++ [e]).filter kind).length ≤ 1 →
      ∀ x ∈ v, kind x = false := by
    intro kind hk hle
    rw [← filter_lt_one]
    rw [List.filter_append, List.filter_cons_of_pos hk, List.length_append] at hle
    simp only [List.length_cons, List.filter_nil, List.length_nil] at hle
    omega
  have hrecord : bulkRecord e (some r) =
      { bulkRecord e none with maxBurst := byte r 2, streams := byte r 3 } := by
    simp [bulkRecord, companionField, hcomp]
  have hmember : ConfigWalk.member (w₀.after es (v ++ [e])) r =
      (w₀.after es (v ++ [e])).companioned r := by
    rw [ConfigWalk.member, if_neg hend, if_pos ⟨hcomp, hbot⟩]
  rw [hmember]
  unfold ConfigWalk.companioned ConfigWalk.after
  rw [hfilter, awaited_concat, awaited_concat]
  by_cases hdir : isIn e
  · have hk : isBulkIn e := by simp [isBulkIn, he, hbulk, hdir]
    have hk' : isBulkOut e = false := by simp [isBulkOut, hdir]
    have hnone := hbefore isBulkIn hk (hin hbot)
    have hsame : bulkEnd isBulkOut (v ++ [e] ++ [r]) = bulkEnd isBulkOut (v ++ [e]) := by
      refine bulkEnd_same (fun hyes => absurd hyes hr.2) fun _ x hx => ?_
      rw [List.getLast?_concat, Option.mem_some_iff] at hx
      rwa [← hx]
    rw [hsame, bulkEnd_next hnone hk, bulkEnd_new hnone hk, hrecord]
    simp [hbot, hk, hr]
  · have hk : isBulkOut e := by simp [isBulkOut, he, hbulk, hdir]
    have hk' : isBulkIn e = false := by simp [isBulkIn, hdir]
    have hnone := hbefore isBulkOut hk (hout hbot)
    have hsame : bulkEnd isBulkIn (v ++ [e] ++ [r]) = bulkEnd isBulkIn (v ++ [e]) := by
      refine bulkEnd_same (fun hyes => absurd hyes hr.1) fun _ x hx => ?_
      rw [List.getLast?_concat, Option.mem_some_iff] at hx
      rwa [← hx]
    rw [hsame, bulkEnd_next hnone hk, bulkEnd_new hnone hk, hrecord]
    simp [hbot, hk, hk', hr]

theorem after_other (hend : ¬isEndpoint r)
    (hcomp : ¬(isCompanion r ∧ w₀.currentBotInterface)) :
    (w₀.after es u).member r = w₀.after es (u ++ [r]) := by
  have hfilter : (u ++ [r]).filter isEndpoint = u.filter isEndpoint := by
    rw [List.filter_append, List.filter_cons_of_neg hend]
    exact List.append_nil _
  have hr : ¬isBulkIn r ∧ ¬isBulkOut r := by simp [isBulkIn, isBulkOut, hend]
  have hmember : (w₀.after es u).member r = (w₀.after es u).await (byte r 1) := by
    rw [ConfigWalk.member, if_neg hend]
    exact if_neg hcomp
  rw [hmember]
  unfold ConfigWalk.await ConfigWalk.after
  rw [hfilter, awaited_concat]
  by_cases hbot : w₀.currentBotInterface
  · have hno : ¬isCompanion r := fun hyes => hcomp ⟨hyes, hbot⟩
    have htype : byte r 1 ≠ 48 := fun heq => hno (beq_iff_eq.mpr heq)
    have hkeep : ∀ kind : List UInt8 → Bool, ¬kind r → bulkEnd kind (u ++ [r]) = bulkEnd kind u :=
      fun kind hk => bulkEnd_same (fun hyes => absurd hyes hk) fun hc => absurd hc hno
    simp [hbot, htype, hr, hkeep isBulkIn hr.1, hkeep isBulkOut hr.2]
  · simp [hbot]

/-- The descriptor is read from itself. -/
def stepRecord (w : ConfigWalk) (r : List UInt8) : Except Stop ConfigWalk :=
  configDescriptor r 0 r.length (byte r 1) w

/-- **One descriptor more in an interface.** -/
theorem Walking.step (hhave : w₀.haveInterface) (h : Walking w₀ es u w) (hr : ¬isInterface r) :
    Decides .reject (stepRecord w r) (Needs w₀.currentBotInterface w₀.expectedEndpoints u r)
      (Walking w₀ es (u ++ [r])) := by
  have hstep := configDescriptor_member (readsAs_self r) hr w
  have hstate := h.state
  refine (hstep.congr ?_).imp fun hneeds w' hw' => ?_
  · rw [hstate]
    exact memberOk_iff hhave es u
  · subst hw'
    have hle : ∀ kind : List UInt8 → Bool, (kind r → (u.filter kind).length < 1) →
        (u.filter kind).length ≤ 1 → ((u ++ [r]).filter kind).length ≤ 1 := by
      intro kind hlt hle
      rw [List.filter_append, List.length_append]
      by_cases hk : kind r
      · rw [List.filter_cons_of_pos hk]
        exact hlt hk
      · rw [List.filter_cons_of_neg hk]
        exact hle
    refine ⟨?_, fun hbot => hle _ (fun hk => hneeds.bulkIn hk hbot) (h.bulkIn hbot),
      fun hbot => hle _ (fun hk => hneeds.bulkOut hk hbot) (h.bulkOut hbot)⟩
    by_cases hend : isEndpoint r
    · rw [hstate]
      exact after_endpoint hend hneeds
    · by_cases hcomp : isCompanion r ∧ w₀.currentBotInterface
      · exact after_companion hcomp.1 hcomp.2 h hneeds
      · rw [hstate]
        exact after_other hend hcomp

end ZealBringup.Pi4
