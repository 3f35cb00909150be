import Mathlib.Data.List.Basic
import Mathlib.Data.Nat.Notation
import Mathlib.Tactic.SplitIfs

/-!
# Configuration descriptors

`usb_config_parse` of `usb_xhci.h` on the bytes of a configuration, with the records of the endpoints
that it makes.

* `UsbEpRecord`, `ConfigState` — an endpoint as it is recorded, and the locals of the loop.
* `usbConfigParse` — the function; a read outside of the bytes is `none`.
* `descriptors`, `interruptIn` — the descriptors in the bytes, and what they say of an endpoint.
* `usbConfigParse_exact` — nothing is read outside, at most four endpoints are recorded, and on success
  they are the ones of the descriptors.
-/

namespace ZealBringup.Usb

/-! ## The function -/

/-- `USB_EPS`. -/
abbrev usbEps : ℕ := 4

/-- The fields of `struct usb_ep` that the parser sets. -/
structure UsbEpRecord where
  dci : ℕ
  packet : ℕ
  interval : ℕ
  interface : ℕ
  protocol : ℕ
  subclass : ℕ
  reportDescriptorLength : ℕ
  kind : ℕ
  deriving DecidableEq

/-- The locals of the loop, and the records so far. -/
structure ConfigState where
  interface : ℕ := 0
  protocol : ℕ := 0
  subclass : ℕ := 0
  hid : Bool := false
  hub : Bool := false
  reportLen : ℕ := 0
  eps : List UsbEpRecord := []
  deriving DecidableEq

/-- A byte, if it is there. -/
def byteAt (p : List UInt8) (i : ℕ) : Option ℕ := p[i]?.map UInt8.toNat

/-- `usb_le16`. -/
def usbLe16 (p : List UInt8) (i : ℕ) : Option ℕ := do
  let lo ← byteAt p i
  let hi ← byteAt p (i + 1)
  return lo ||| hi <<< 8

/-- An interface descriptor. -/
def configInterface (st : ConfigState) (p : List UInt8) (n : ℕ) : Option (Bool × ConfigState) :=
  if n < 9 then some (false, st)
  else do
    let interface ← byteAt p 2
    let class_ ← byteAt p 5
    let alternate ← byteAt p 3
    let subclass ← byteAt p 6
    let protocol ← byteAt p 7
    return (true, { st with
      interface := interface
      hid := class_ = 3 && alternate = 0
      hub := class_ = 9 && alternate = 0
      subclass := subclass
      protocol := protocol
      reportLen := 0 })

/-- The loop over the entries of a HID descriptor. -/
def configReports (p : List UInt8) : List ℕ → ℕ → Option ℕ
  | [], reportLen => some reportLen
  | j :: js, reportLen => do
    let type ← byteAt p (6 + 3 * j)
    if type = 0x22 then
      let len ← usbLe16 p (7 + 3 * j)
      configReports p js len
    else configReports p js reportLen

/-- A HID descriptor. -/
def configHid (st : ConfigState) (p : List UInt8) (n : ℕ) : Option (Bool × ConfigState) :=
  if n < 6 then some (false, st)
  else do
    let count ← byteAt p 5
    if 6 + 3 * count > n then some (false, st)
    else
      let reportLen ← configReports p (List.range count) st.reportLen
      return (true, { st with reportLen := reportLen })

/-- An endpoint descriptor. -/
def configEndpoint (st : ConfigState) (p : List UInt8) (n : ℕ) : Option (Bool × ConfigState) :=
  if n < 7 then some (false, st)
  else do
    let address ← byteAt p 2
    let attributes ← byteAt p 3
    if address &&& 0x80 ≠ 0 ∧ attributes &&& 3 = 3 then
      let word ← usbLe16 p 4
      let packet := word &&& 0x7ff
      if packet = 0 ∨ packet > 64 ∨ address &&& 15 = 0 ∨ st.eps.length = usbEps then
        some (false, st)
      else
        let interval ← byteAt p 6
        return (true, { st with eps := st.eps ++ [{
          dci := (address &&& 15) * 2 + 1
          packet := packet
          interval := interval
          interface := st.interface
          protocol := st.protocol
          subclass := st.subclass
          reportDescriptorLength := st.reportLen
          kind := if st.hub then 4 else 0 }] })
    else some (true, st)

/-- One round of the loop behind its first test: whether the loop goes on, and the state. -/
def configStep (st : ConfigState) (p : List UInt8) (n type : ℕ) : Option (Bool × ConfigState) :=
  if type = 4 then configInterface st p n
  else if type = 0x21 ∧ st.hid then configHid st p n
  else if type = 5 ∧ (st.hid ∨ st.hub) then configEndpoint st p n
  else some (true, st)

/-- The loop, from some byte on. -/
def usbConfigLoop (st : ConfigState) (p : List UInt8) : Option (Bool × ConfigState) :=
  if _h : 2 ≤ p.length then do
    let n ← byteAt p 0
    let type ← byteAt p 1
    if _hn : n < 2 ∨ n > p.length then some (false, st)
    else
      let (more, st) ← configStep st p n type
      if more then usbConfigLoop st (p.drop n) else some (false, st)
  else some (st.eps ≠ [], st)
termination_by p.length
decreasing_by
  rw [List.length_drop]
  omega

/-- `usb_config_parse` for a new device: what it returns, and the endpoints. -/
def usbConfigParse (buffer : List UInt8) : Option (Bool × List UsbEpRecord) :=
  (usbConfigLoop {} buffer).map fun (ok, st) => (ok, st.eps)

/-! ## Descriptors -/

/-- A byte of a descriptor. -/
def field (d : List UInt8) (i : ℕ) : ℕ := (d.getD i 0).toNat

/-- A word of a descriptor. -/
def wordField (d : List UInt8) (i : ℕ) : ℕ := field d i ||| field d (i + 1) <<< 8

/-- The descriptors at the front of some bytes. -/
def descriptors (p : List UInt8) : List (List UInt8) :=
  if _h : 2 ≤ p.length ∧ 2 ≤ field p 0 ∧ field p 0 ≤ p.length then
    p.take (field p 0) :: descriptors (p.drop (field p 0))
  else []
termination_by p.length
decreasing_by
  rw [List.length_drop]
  omega

/-- The last interface descriptor. -/
def ownInterface (before : List (List UInt8)) : Option (List UInt8) :=
  before.reverse.find? fun d => field d 1 = 4

/-- The descriptors behind the last interface descriptor, the last one first. -/
def sinceInterface (before : List (List UInt8)) : List (List UInt8) :=
  before.reverse.takeWhile fun d => field d 1 ≠ 4

/-- The lengths of the report descriptors that a HID descriptor declares. -/
def reportLengths (d : List UInt8) : List ℕ :=
  ((List.range (field d 5)).filter fun j => field d (6 + 3 * j) = 0x22).map
    fun j => wordField d (7 + 3 * j)

/-- The last length that was declared for the interface at hand. -/
def reportLength (before : List (List UInt8)) : ℕ :=
  ((sinceInterface before).reverse.filter fun d => field d 1 = 0x21).flatMap reportLengths
    |>.getLastD 0

/-- An interface of the class, and not an alternate setting. -/
def OfClass (d : List UInt8) (c : ℕ) : Prop := field d 5 = c ∧ field d 3 = 0

instance (d : List UInt8) (c : ℕ) : Decidable (OfClass d c) := inferInstanceAs (Decidable (_ ∧ _))

/-- An endpoint descriptor of an interrupt IN endpoint. -/
def IsInterruptIn (d : List UInt8) : Prop :=
  field d 1 = 5 ∧ field d 2 &&& 0x80 ≠ 0 ∧ field d 3 &&& 3 = 3

instance (d : List UInt8) : Decidable (IsInterruptIn d) := inferInstanceAs (Decidable (_ ∧ _))

/-- What the descriptors say of an endpoint: `length` is the one of its interface's report
descriptor. -/
def epRecord (interface d : List UInt8) (length : ℕ) : UsbEpRecord where
  dci := 2 * (field d 2 &&& 15) + 1
  packet := wordField d 4 &&& 0x7ff
  interval := field d 6
  interface := field interface 2
  protocol := field interface 7
  subclass := field interface 6
  reportDescriptorLength := if OfClass interface 3 then length else 0
  kind := if OfClass interface 9 then 4 else 0

/-- The endpoint of a descriptor, if it is an interrupt IN endpoint of a HID or hub interface. -/
def epOf (before : List (List UInt8)) (d : List UInt8) : Option UsbEpRecord :=
  match ownInterface before with
  | some i =>
    if IsInterruptIn d ∧ (OfClass i 3 ∨ OfClass i 9) then some (epRecord i d (reportLength before))
    else none
  | none => none

/-- The interrupt IN endpoints of HID and hub interfaces, in order. -/
def interruptIn (before : List (List UInt8)) : List (List UInt8) → List UsbEpRecord
  | [] => []
  | d :: ds => (epOf before d).toList ++ interruptIn (before ++ [d]) ds

/-! ## Bytes -/

variable {p d i : List UInt8} {before ds : List (List UInt8)} {st st' : ConfigState} {n k : ℕ}
  {ok : Bool} {eps : List UsbEpRecord}

theorem byteAt_field (h : k < p.length) : byteAt p k = some (field p k) := by
  rw [byteAt, field, List.getD_eq_getElem?_getD, List.getElem?_eq_getElem h]
  rfl

theorem usbLe16_field (h : k + 1 < p.length) : usbLe16 p k = some (wordField p k) := by
  rw [usbLe16, byteAt_field (by omega), byteAt_field h]
  rfl

/-- A descriptor has the bytes at its place. -/
theorem field_take (h : k < n) : field (p.take n) k = field p k := by
  rw [field, field, List.getD_eq_getElem?_getD, List.getD_eq_getElem?_getD,
    List.getElem?_take_of_lt h]

theorem wordField_take (h : k + 1 < n) : wordField (p.take n) k = wordField p k := by
  rw [wordField, wordField, field_take (by omega), field_take h]

/-! ## One more descriptor -/

theorem ownInterface_append (before : List (List UInt8)) (d : List UInt8) :
    ownInterface (before ++ [d]) = if field d 1 = 4 then some d else ownInterface before := by
  rw [ownInterface, List.reverse_concat, List.find?_cons, ownInterface]
  by_cases h : field d 1 = 4 <;> simp [h]

theorem sinceInterface_append (before : List (List UInt8)) (d : List UInt8) :
    sinceInterface (before ++ [d]) = if field d 1 = 4 then [] else d :: sinceInterface before := by
  rw [sinceInterface, List.reverse_concat, List.takeWhile_cons, sinceInterface]
  by_cases h : field d 1 = 4 <;> simp [h]

theorem reportLength_append (before : List (List UInt8)) (d : List UInt8) :
    reportLength (before ++ [d]) =
      if field d 1 = 4 then 0
      else if field d 1 = 0x21 then (reportLengths d).getLastD (reportLength before)
      else reportLength before := by
  rw [reportLength, sinceInterface_append, reportLength]
  split_ifs with h h'
  · rfl
  · rw [List.reverse_cons, List.filter_append, List.flatMap_append]
    simp [h', List.getLastD_eq_getLast?, List.getLast?_append]
  · rw [List.reverse_cons, List.filter_append, List.flatMap_append]
    simp [h']

theorem interruptIn_append (before ds : List (List UInt8)) (d : List UInt8) :
    interruptIn before (ds ++ [d]) = interruptIn before ds ++ (epOf (before ++ ds) d).toList := by
  induction ds generalizing before with
  | nil => simp [interruptIn]
  | cons e ds ih =>
    rw [List.cons_append, interruptIn, interruptIn, ih, List.append_assoc, List.append_assoc]
    rfl

theorem epOf_other (h : field d 1 ≠ 5) : epOf before d = none := by
  rw [epOf]
  cases ownInterface before with
  | none => rfl
  | some i => exact if_neg fun hd => h hd.1.1

/-! ## The state -/

/-- The endpoints are sound records. -/
def RecordsOk (eps : List UsbEpRecord) : Prop :=
  eps.length ≤ usbEps ∧ ∀ e ∈ eps, 1 ≤ e.packet ∧ e.packet ≤ 64 ∧ 3 ≤ e.dci ∧ e.dci ≤ 31

/-- The locals are about the last interface, and the records about all of the descriptors. -/
structure Tracks (before : List (List UInt8)) (st : ConfigState) : Prop where
  eps : st.eps = interruptIn [] before
  none : ownInterface before = none → st.hid = false ∧ st.hub = false
  own : ∀ i, ownInterface before = some i →
    st.interface = field i 2 ∧ st.protocol = field i 7 ∧ st.subclass = field i 6 ∧
      st.hid = decide (OfClass i 3) ∧ st.hub = decide (OfClass i 9) ∧
      st.reportLen = if OfClass i 3 then reportLength before else 0

theorem tracks_start : Tracks [] {} where
  eps := rfl
  none := fun _ => ⟨rfl, rfl⟩
  own := fun _ h => by cases h

theorem Tracks.skip (h : Tracks before st) (h4 : field d 1 ≠ 4)
    (h21 : field d 1 = 0x21 → st.hid = false) (h5 : epOf before d = .none) :
    Tracks (before ++ [d]) st where
  eps := by rw [h.eps, interruptIn_append, List.nil_append, h5, Option.toList_none, List.append_nil]
  none := fun hn => by
    rw [ownInterface_append, if_neg h4] at hn
    exact h.none hn
  own := fun i hi => by
    rw [ownInterface_append, if_neg h4] at hi
    obtain ⟨h₁, h₂, h₃, hhid, h₅, hlen⟩ := h.own i hi
    refine ⟨h₁, h₂, h₃, hhid, h₅, ?_⟩
    rw [reportLength_append, if_neg h4, hlen]
    split_ifs with hclass h21'
    · rw [h21 h21', eq_comm, decide_eq_false_iff_not] at hhid
      exact absurd hclass hhid
    · rfl
    · rfl

/-- What a round does: it reads inside of the descriptor, and goes on with the descriptor tracked. -/
def Advances (before : List (List UInt8)) (d : List UInt8) (out : Option (Bool × ConfigState)) :
    Prop :=
  ∃ more st', out = some (more, st') ∧ RecordsOk st'.eps ∧
    (more = true → Tracks (before ++ [d]) st')

theorem configInterface_advances (h : Tracks before st) (hok : RecordsOk st.eps)
    (hn : n ≤ p.length) (h4 : field (p.take n) 1 = 4) :
    Advances before (p.take n) (configInterface st p n) := by
  rw [configInterface]
  split_ifs with hshort
  · exact ⟨false, st, rfl, hok, fun h => by cases h⟩
  · rw [byteAt_field (by omega), byteAt_field (by omega), byteAt_field (by omega),
      byteAt_field (by omega), byteAt_field (by omega)]
    refine ⟨true, _, rfl, hok, fun _ => ⟨?_, ?_, ?_⟩⟩
    · rw [interruptIn_append, List.nil_append, epOf_other (by omega), Option.toList_none,
        List.append_nil]
      exact h.eps
    · intro hnone
      rw [ownInterface_append, if_pos h4] at hnone
      cases hnone
    · intro i hi
      rw [ownInterface_append, if_pos h4] at hi
      cases hi
      rw [reportLength_append, if_pos h4, ite_self]
      simp only [OfClass, field_take (show 2 < n by omega), field_take (show 3 < n by omega),
        field_take (show 5 < n by omega), field_take (show 6 < n by omega),
        field_take (show 7 < n by omega)]
      simp

theorem configReports_eq (js : List ℕ) (m : ℕ) (hin : ∀ j ∈ js, 8 + 3 * j < n)
    (hn : n ≤ p.length) :
    configReports p js m =
      some ((((js.filter fun j => field (p.take n) (6 + 3 * j) = 0x22).map
        fun j => wordField (p.take n) (7 + 3 * j))).getLastD m) := by
  induction js generalizing m with
  | nil => rfl
  | cons j js ih =>
    have hj := hin j List.mem_cons_self
    have hjs : ∀ k ∈ js, 8 + 3 * k < n := fun k hk => hin k (List.mem_cons_of_mem j hk)
    rw [configReports, byteAt_field (by omega), List.filter_cons, field_take (by omega)]
    by_cases htype : field p (6 + 3 * j) = 0x22
    · rw [decide_eq_true htype, if_pos rfl, List.map_cons, List.getLastD_cons,
        wordField_take (by omega), ← ih _ hjs]
      simp only [Option.bind_eq_bind, Option.bind_some, htype, if_true,
        usbLe16_field (show 7 + 3 * j + 1 < p.length by omega)]
    · rw [decide_eq_false htype, if_neg Bool.false_ne_true, ← ih _ hjs]
      simp only [Option.bind_eq_bind, Option.bind_some, htype, if_false]

theorem configHid_advances (h : Tracks before st) (hok : RecordsOk st.eps) (hn : n ≤ p.length)
    (h21 : field (p.take n) 1 = 0x21) (hhid : st.hid = true) :
    Advances before (p.take n) (configHid st p n) := by
  rw [configHid]
  split_ifs with hshort
  · exact ⟨false, st, rfl, hok, fun h => by cases h⟩
  · rw [byteAt_field (by omega), Option.bind_eq_bind, Option.bind_some]
    split_ifs with hcount
    · exact ⟨false, st, rfl, hok, fun h => by cases h⟩
    · have hin : ∀ j ∈ List.range (field p 5), 8 + 3 * j < n := by
        intro j hj
        have := List.mem_range.mp hj
        omega
      rw [configReports_eq _ _ hin hn, ← field_take (show 5 < n by omega)]
      refine ⟨true, _, rfl, hok, fun _ => ⟨?_, ?_, ?_⟩⟩
      · rw [interruptIn_append, List.nil_append, epOf_other (by omega), Option.toList_none,
          List.append_nil]
        exact h.eps
      · intro hnone
        rw [ownInterface_append, if_neg (by omega)] at hnone
        exact h.none hnone
      · intro i hi
        rw [ownInterface_append, if_neg (by omega)] at hi
        obtain ⟨h₁, h₂, h₃, hclass, h₅, hlen⟩ := h.own i hi
        refine ⟨h₁, h₂, h₃, hclass, h₅, ?_⟩
        rw [hhid, eq_comm, decide_eq_true_iff] at hclass
        rw [if_pos hclass] at hlen ⊢
        rw [reportLength_append, if_neg (by omega), if_pos h21, ← hlen]
        rfl

theorem dci_bounds {a : ℕ} (h : a &&& 15 ≠ 0) : 3 ≤ (a &&& 15) * 2 + 1 ∧ (a &&& 15) * 2 + 1 ≤ 31 := by
  have hle : a &&& 15 ≤ 15 := Nat.and_le_right
  omega

theorem configEndpoint_advances (h : Tracks before st) (hok : RecordsOk st.eps)
    (hn : n ≤ p.length) (h5 : field (p.take n) 1 = 5) (hown : st.hid = true ∨ st.hub = true) :
    Advances before (p.take n) (configEndpoint st p n) := by
  rw [configEndpoint]
  by_cases hshort : n < 7
  · rw [if_pos hshort]
    exact ⟨false, st, rfl, hok, fun h => by cases h⟩
  rw [if_neg hshort, byteAt_field (by omega), byteAt_field (by omega)]
  simp only [Option.bind_eq_bind, Option.bind_some]
  obtain ⟨i, hi⟩ : ∃ i, ownInterface before = some i := by
    cases hi : ownInterface before with
    | none =>
      obtain ⟨hhid, hhub⟩ := h.none hi
      rw [hhid, hhub] at hown
      rcases hown with h | h <;> cases h
    | some i => exact ⟨i, rfl⟩
  obtain ⟨hitf, hproto, hsub, hhid, hhub, hlen⟩ := h.own i hi
  have hclass : OfClass i 3 ∨ OfClass i 9 := by simpa [hhid, hhub] using hown
  by_cases hint : field p 2 &&& 0x80 ≠ 0 ∧ field p 3 &&& 3 = 3
  · rw [if_pos hint, usbLe16_field (by omega), Option.bind_some]
    by_cases hbad : wordField p 4 &&& 0x7ff = 0 ∨ wordField p 4 &&& 0x7ff > 64 ∨
        field p 2 &&& 15 = 0 ∨ st.eps.length = usbEps
    · rw [if_pos hbad]
      exact ⟨false, st, rfl, hok, fun h => by cases h⟩
    · rw [if_neg hbad, byteAt_field (by omega), Option.bind_some]
      have hdci := dci_bounds (a := field p 2) (by omega)
      have hlength : st.eps.length < usbEps := by
        have := hok.1
        omega
      refine ⟨true, _, rfl, ⟨?_, fun e he => ?_⟩, fun _ => ⟨?_, ?_, ?_⟩⟩
      · rw [List.length_append]
        exact hlength
      · rcases List.mem_append.mp he with he | he
        · exact hok.2 e he
        · rw [List.mem_singleton.mp he]
          exact ⟨by dsimp only; omega, by dsimp only; omega, hdci⟩
      · have hep : IsInterruptIn (p.take n) := by
          refine ⟨h5, ?_⟩
          rw [field_take (by omega), field_take (by omega)]
          exact hint
        rw [interruptIn_append, List.nil_append, epOf, hi]
        simp only [if_pos (And.intro hep hclass), Option.toList_some]
        rw [h.eps, epRecord, field_take (by omega), field_take (by omega), wordField_take (by omega),
          hitf, hproto, hsub, hlen, Nat.mul_comm]
        simp only [hhub, decide_eq_true_eq]
      · intro hnone
        rw [ownInterface_append, if_neg (by omega)] at hnone
        exact h.none hnone
      · intro j hj
        rw [ownInterface_append, if_neg (by omega)] at hj
        have h4 : field (p.take n) 1 ≠ 4 := by omega
        have h21 : field (p.take n) 1 ≠ 0x21 := by omega
        rw [reportLength_append, if_neg h4, if_neg h21]
        exact h.own j hj
  · rw [if_neg hint]
    refine ⟨true, st, rfl, hok, fun _ => h.skip (by omega) (fun h => by omega) ?_⟩
    rw [epOf, hi]
    refine if_neg fun hd => hint ?_
    rw [← field_take (show 2 < n by omega), ← field_take (show 3 < n by omega)]
    exact hd.1.2

/-- **One round** of the loop. -/
theorem configStep_advances (h : Tracks before st) (hok : RecordsOk st.eps) (hn₂ : 2 ≤ n)
    (hn : n ≤ p.length) : Advances before (p.take n) (configStep st p n (field p 1)) := by
  rw [← field_take (show 1 < n by omega), configStep]
  split_ifs with h4 h21 h5
  · exact configInterface_advances h hok hn h4
  · exact configHid_advances h hok hn h21.1 h21.2
  · exact configEndpoint_advances h hok hn h5.1 h5.2
  · refine ⟨true, st, rfl, hok, fun _ => h.skip h4 (fun h => ?_) ?_⟩
    · exact Bool.eq_false_iff.mpr fun hhid => h21 ⟨h, hhid⟩
    · by_cases htype : field (p.take n) 1 = 5
      · rw [epOf]
        cases hi : ownInterface before with
        | none => rfl
        | some i =>
          obtain ⟨-, -, -, hhid, hhub, -⟩ := h.own i hi
          refine if_neg fun hd => h5 ⟨htype, ?_⟩
          simpa [hhid, hhub] using hd.2
      · exact epOf_other htype

/-! ## The loop -/

theorem descriptors_cons (h₂ : 2 ≤ field p 0) (h : field p 0 ≤ p.length) :
    descriptors p = p.take (field p 0) :: descriptors (p.drop (field p 0)) := by
  rw [descriptors, dif_pos ⟨Nat.le_trans h₂ h, h₂, h⟩]

/-- The bytes are descriptors, and at most one byte more. -/
def WellFormed (p : List UInt8) : Prop :=
  ∃ rest, p = (descriptors p).flatten ++ rest ∧ rest.length < 2

/-- **The loop**: it ends, nothing outside is read, and on success the records are those of all of the
descriptors. -/
theorem usbConfigLoop_exact (h : Tracks before st) (hok : RecordsOk st.eps) :
    ∃ ok st', usbConfigLoop st p = some (ok, st') ∧ RecordsOk st'.eps ∧
      (ok = true → WellFormed p ∧ st'.eps ≠ [] ∧
        st'.eps = interruptIn [] (before ++ descriptors p)) := by
  induction hp : p.length using Nat.strongRecOn generalizing p before st with
  | _ len ih =>
    rw [usbConfigLoop]
    by_cases hlen : 2 ≤ p.length
    · rw [dif_pos hlen, byteAt_field (by omega), byteAt_field (by omega)]
      simp only [Option.bind_eq_bind, Option.bind_some]
      by_cases hbad : field p 0 < 2 ∨ field p 0 > p.length
      · rw [dif_pos hbad]
        exact ⟨false, st, rfl, hok, fun h => by cases h⟩
      · obtain ⟨more, st', hstep, hok', hmore⟩ :=
          configStep_advances (p := p) (n := field p 0) h hok (by omega) (by omega)
        rw [dif_neg hbad, hstep, Option.bind_some]
        cases more with
        | false => exact ⟨false, st', rfl, hok', fun h => by cases h⟩
        | true =>
          have hdrop : (p.drop (field p 0)).length < len := by
            rw [List.length_drop]
            omega
          obtain ⟨ok, st'', hloop, hok'', hsuccess⟩ :=
            ih _ hdrop (p := p.drop (field p 0)) (hmore rfl) hok' rfl
          refine ⟨ok, st'', hloop, hok'', fun hok => ?_⟩
          obtain ⟨⟨rest, hrest, hshort⟩, hne, heps⟩ := hsuccess hok
          have hcons := descriptors_cons (p := p) (by omega) (by omega)
          refine ⟨⟨rest, ?_, hshort⟩, hne, ?_⟩
          · rw [hcons, List.flatten_cons, List.append_assoc, ← hrest, List.take_append_drop]
          · rw [heps, hcons, List.append_assoc]
            rfl
    · rw [dif_neg hlen]
      have hnil : descriptors p = [] := by
        rw [descriptors, dif_neg fun h => hlen h.1]
      refine ⟨_, st, rfl, hok, fun hne => ⟨⟨p, ?_, by omega⟩, of_decide_eq_true hne, ?_⟩⟩
      · rw [hnil]
        rfl
      · rw [hnil, List.append_nil, h.eps]

/-- **Configuration parsing is safe and faithful**: it ends without a read outside of the bytes and with
at most four endpoints; when it succeeds the bytes are descriptors throughout, and the endpoints are the
interrupt IN endpoints of the HID and hub interfaces, in order. -/
theorem usbConfigParse_exact (buffer : List UInt8) :
    ∃ ok eps, usbConfigParse buffer = some (ok, eps) ∧ RecordsOk eps ∧
      (ok = true → WellFormed buffer ∧ eps ≠ [] ∧ eps = interruptIn [] (descriptors buffer)) := by
  have hstart : RecordsOk [] := ⟨Nat.zero_le _, fun _ h => absurd h List.not_mem_nil⟩
  obtain ⟨ok, st, hloop, hok, hsuccess⟩ := usbConfigLoop_exact (p := buffer) tracks_start hstart
  exact ⟨ok, st.eps, by rw [usbConfigParse, hloop]; rfl, hok, hsuccess⟩

/-- The endpoints with the last length that is declared for their interface anywhere up to the next
one. -/
def interruptInWhole (before : List (List UInt8)) : List (List UInt8) → List UsbEpRecord
  | [] => []
  | d :: ds =>
    let length := reportLength (before ++ d :: ds.takeWhile fun e => field e 1 ≠ 4)
    ((epOf before d).map fun ep =>
      { ep with reportDescriptorLength :=
        if (ownInterface before).any (OfClass · 3) then length else 0 }).toList ++
      interruptInWhole (before ++ [d]) ds

/-- An interface, its endpoint and, behind it, its HID descriptor. -/
def lateHid : List UInt8 :=
  [9, 4, 0, 0, 1, 3, 1, 1, 0, 7, 5, 0x81, 3, 8, 0, 10, 9, 0x21, 0x11, 1, 0, 1, 0x22, 63, 0]

/-- A HID descriptor behind the endpoint comes too late for it. -/
theorem late_hid_missed : ¬ ∀ buffer eps, buffer.length ≤ 4096 →
    usbConfigParse buffer = some (true, eps) → eps = interruptInWhole [] (descriptors buffer) := by
  intro h
  have hlate := h lateHid _ (by decide) (show usbConfigParse lateHid =
    some (true, [⟨3, 8, 10, 0, 1, 1, 0, 0⟩]) by decide +kernel)
  exact absurd hlate (by decide +kernel)

end ZealBringup.Usb
