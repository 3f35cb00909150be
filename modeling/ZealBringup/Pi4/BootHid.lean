import ZealBringup.Pi4.ConfigRun

/-!
# Which keyboard or mouse is selected

The selection walks a chain that the validator has accepted, and relies on what it has checked:
where an interface or an endpoint descriptor is, there are the bytes that are read of it.  Each
boot interface is judged by itself, and one that is not as it should be refuses the whole
configuration.

* `CandidateOk` — a boot interface as it should be.
* `choices` — the boot interfaces with a report descriptor and an interrupt endpoint.
* `bootHidCheck_decides` — the selection succeeds if and only if every boot interface of the
  protocol is as it should be and there is exactly one choice.
-/

namespace ZealBringup.Pi4

open Bitmap Checked Records

variable {d r : List UInt8} {rs u : List (List UInt8)} {gs : List Group} {g : Group}
  {pos protocol minPacket : ℕ} {w w₀ : SelectWalk}

/-! ## Boot interfaces -/

def isHid (r : List UInt8) : Bool := byte r 1 == 0x21

def isInterruptIn (e : List UInt8) : Bool := isEndpoint e && isIn e && byte e 3 == 3

/-- An alternate-zero boot interface of the protocol. -/
def isBoot (protocol : ℕ) (r : List UInt8) : Bool :=
  byte r 3 == 0 && byte r 5 == 3 && byte r 6 == 1 && byte r 7 == protocol

/-- The entry of a HID descriptor is a report descriptor. -/
def isReport (h : List UInt8) (i : ℕ) : Bool := byte h (6 + 3 * i) == 0x22

/-- The lengths of the report descriptors among some entries of a HID descriptor. -/
def reportLengths (h : List UInt8) (is : List ℕ) : List ℕ :=
  (is.filter (isReport h)).map fun i => word h (7 + 3 * i)

/-- The lengths of the report descriptors of a HID descriptor. -/
def reportsOf (h : List UInt8) : List ℕ := reportLengths h (List.range (byte h 5))

/-- A HID descriptor as it should be: it has the entries it declares, and one report descriptor at
most. -/
structure HidOk (h : List UInt8) : Prop where
  size : 6 ≤ h.length
  entries : byte h 5 ≠ 0
  length : h.length = 6 + 3 * byte h 5
  one : (reportsOf h).length ≤ 1
  report : ∀ n ∈ reportsOf h, 0 < n ∧ n ≤ 4096

/-- An interrupt endpoint that can be used. -/
structure Admissible (minPacket : ℕ) (e : List UInt8) : Prop where
  low : minPacket ≤ word e 4
  high : word e 4 ≤ 64
  interval : byte e 6 ≠ 0

/-- The report descriptors of some descriptors of an interface. -/
def reports (ms : List (List UInt8)) : List ℕ := (ms.filter isHid).flatMap reportsOf

/-- A boot interface as it should be: no two endpoints have one address, one of them at most is an
interrupt endpoint to the host and this one can be used, and there is no HID descriptor behind
one with a report descriptor. -/
structure CandidateOk (minPacket : ℕ) (g : Group) : Prop where
  hid : ∀ h ∈ g.2, isHid h → HidOk h
  once : ∀ u h v, g.2 = u ++ h :: v → isHid h → reports u = []
  address : (g.endpoints.map fun e => byte e 2).Nodup
  one : (g.2.filter isInterruptIn).length ≤ 1
  admissible : ∀ e ∈ g.2, isInterruptIn e → Admissible minPacket e

/-- What an interface offers: a report descriptor and an interrupt endpoint to the host. -/
def choice (g : Group) : Option KeyboardInterface :=
  match reports g.2, g.2.filter isInterruptIn with
  | n :: _, e :: _ => some ⟨1, byte g.1 2, byte e 2, word e 4, byte e 6, n⟩
  | _, _ => none

/-- What the boot interfaces of the protocol offer. -/
def choices (protocol : ℕ) (gs : List Group) : List KeyboardInterface :=
  (gs.filter fun g => isBoot protocol g.1).filterMap choice

/-! ## HID descriptors -/

theorem headD_ne_zero {l : List ℕ} (h : ∀ n ∈ l, 0 < n) : l.headD 0 ≠ 0 ↔ l ≠ [] := by
  cases l with
  | nil => simp
  | cons n l => simpa using (h n List.mem_cons_self).ne'

theorem entries_decides (h : ReadsAs d pos r) (hlen : r.length = 6 + 3 * byte r 5) :
    Decides .reject ((List.range (byte r 5)).foldlM (selectEntry d pos) 0)
      ((reportsOf r).length ≤ 1 ∧ ∀ n ∈ reportsOf r, 0 < n ∧ n ≤ 4096)
      (· = (reportsOf r).headD 0) := by
  have hstep : ∀ i ∈ List.range (byte r 5), ∀ (is : List ℕ) (n : ℕ),
      (n = (reportLengths r is).headD 0 ∧ ∀ m ∈ reportLengths r is, 0 < m) →
      Decides .reject (selectEntry d pos n i)
        (isReport r i → reportLengths r is = [] ∧ 0 < word r (7 + 3 * i) ∧ word r (7 + 3 * i) ≤ 4096)
        fun n => n = (reportLengths r (is ++ [i])).headD 0 ∧
          ∀ m ∈ reportLengths r (is ++ [i]), 0 < m := by
    rintro i hi is n ⟨rfl, hpos⟩
    have hlt := List.mem_range.mp hi
    have hword : readWord d (pos + 7 + 3 * i) = .ok (word r (7 + 3 * i)) := by
      rw [Nat.add_assoc]
      exact h.word (by omega)
    have htype : readByte d (pos + 6 + 3 * i) = .ok (byte r (6 + 3 * i)) := by
      rw [Nat.add_assoc]
      exact h _ (by omega)
    unfold selectEntry
    rw [htype, ok_bind, hword, ok_bind]
    by_cases hr : isReport r i
    · have heq : reportLengths r (is ++ [i]) = reportLengths r is ++ [word r (7 + 3 * i)] := by
        rw [reportLengths, List.filter_append, List.filter_cons_of_pos hr, List.map_append]
        rfl
      rw [if_neg (not_not.mpr (beq_iff_eq.mp hr)), heq]
      refine Decides.congr (Decides.guard fun hnone => Decides.guard fun hbad =>
        Decides.pure ?_) ?_
      · have hnil : reportLengths r is = [] := not_not.mp fun hne =>
          hnone ((headD_ne_zero hpos).mpr hne)
        rw [hnil]
        refine ⟨rfl, fun m hm => ?_⟩
        rw [List.nil_append, List.mem_singleton] at hm
        omega
      · rw [headD_ne_zero hpos, not_not, and_true]
        simp only [hr, forall_const]
        exact and_congr_right fun _ => by omega
    · have heq : reportLengths r (is ++ [i]) = reportLengths r is := by
        rw [reportLengths, List.filter_append, List.filter_cons_of_neg hr]
        exact congrArg (List.map _) (List.append_nil _)
      rw [if_pos fun hyes => hr (beq_iff_eq.mpr hyes), heq]
      exact Decides.congr (Decides.pure ⟨rfl, hpos⟩) (iff_of_true trivial fun hyes => absurd hyes hr)
  have hnil : (0 : ℕ) = (reportLengths r []).headD 0 ∧ ∀ m ∈ reportLengths r [], 0 < m :=
    ⟨rfl, fun m hm => by cases hm⟩
  refine ((Decides.foldlM hstep hnil).congr ?_).imp fun _ n hn => hn.1
  have hone : (reportsOf r).length ≤ 1 ↔ ∀ u i v, List.range (byte r 5) = u ++ i :: v →
      isReport r i → (u.filter (isReport r)).length < 1 := by
    rw [reportsOf, reportLengths, List.length_map]
    exact length_filter_le_iff
  rw [hone]
  simp only [List.nil_append, Nat.lt_one_iff, List.length_eq_zero_iff]
  constructor
  · intro h
    refine ⟨fun u i v heq hi => List.map_eq_nil_iff.mp (h u i v heq hi).1, fun n hn => ?_⟩
    obtain ⟨i, hi, rfl⟩ := List.mem_map.mp hn
    obtain ⟨hmem, hr⟩ := List.mem_filter.mp hi
    obtain ⟨u, v, heq⟩ := List.append_of_mem hmem
    exact (h u i v heq hr).2
  · rintro ⟨hfirst, hsize⟩ u i v heq hi
    refine ⟨List.map_eq_nil_iff.mpr (hfirst u i v heq hi), hsize _ (List.mem_map_of_mem ?_)⟩
    refine List.mem_filter.mpr ⟨?_, hi⟩
    rw [heq]
    exact List.mem_append_right _ List.mem_cons_self

/-- **A HID descriptor of a candidate.** -/
theorem selectHid_decides (h : ReadsAs d pos r) (hr : IsRecord r) (w : SelectWalk) :
    Decides .reject (selectHid d pos w) (HidOk r ∧ w.reportLength = 0)
      (· = { w with reportLength := (reportsOf r).headD 0 }) := by
  have hpos := hr.pos
  have hsize : readByte d pos = .ok r.length := by
    have hzero := h 0 hpos
    rwa [Nat.add_zero, hr.length] at hzero
  unfold selectHid
  rw [hsize, ok_bind]
  by_cases hsix : 6 ≤ r.length
  · rw [if_pos hsix, h 5 (by omega), ok_bind]
    have hrun := @entries_decides d r pos h
    refine Decides.congr (Decides.guard fun hbad => Decides.bind
      (P := (reportsOf r).length ≤ 1 ∧ ∀ n ∈ reportsOf r, 0 < n ∧ n ≤ 4096)
      (R := (· = (reportsOf r).headD 0)) ?_ fun _ n hn => Decides.pure ?_) ?_
    · have hzero : w.reportLength = 0 := by
        by_contra hne
        exact hbad (.inr (.inr hne))
      rw [hzero]
      exact hrun (by omega)
    · rw [hn]
    · simp only [not_or, not_not]
      constructor
      · rintro ⟨⟨h1, h2, h3⟩, ⟨h4, h5⟩, -⟩
        exact ⟨⟨hsix, h1, h2, h4, h5⟩, h3⟩
      · rintro ⟨⟨-, h1, h2, h4, h5⟩, h3⟩
        exact ⟨⟨h1, h2, h3⟩, ⟨h4, h5⟩, trivial⟩
  · rw [if_neg hsix, ok_bind]
    beta_reduce
    rw [if_pos (.inl rfl)]
    exact (Decides.refuse _).congr (iff_of_false not_false fun hall => hsix hall.1.size)

/-! ## Endpoint descriptors -/

/-- The state behind an endpoint descriptor of a candidate. -/
def SelectWalk.selected (w : SelectWalk) (e : List UInt8) : SelectWalk :=
  let w := { w with seen := w.seen ||| 1 <<< endpointBit (byte e 2) }
  if isInterruptIn e then
    { w with
      count := w.count + 1
      endpoint := byte e 2
      packet := word e 4
      interval := byte e 6 }
  else w

/-- **An endpoint descriptor of a candidate.** -/
theorem selectEndpoint_decides (h : ReadsAs d pos r) (hr : isEndpoint r) (hsize : 7 ≤ r.length)
    (w : SelectWalk) : Decides .reject (selectEndpoint d minPacket pos w)
      (¬w.seen.testBit (endpointBit (byte r 2)) ∧
        (isInterruptIn r → w.count = 0 ∧ Admissible minPacket r)) (· = w.selected r) := by
  unfold selectEndpoint SelectWalk.selected
  rw [h 2 (by omega), h 3 (by omega), h.word (show 4 + 1 < r.length by omega), h 6 (by omega)]
  simp only [ok_bind]
  have hin : isInterruptIn r ↔ byte r 2 &&& 0x80 ≠ 0 ∧ byte r 3 = 3 := by
    simp [isInterruptIn, isIn, hr]
  refine Decides.congr (Decides.guard fun _ => Decides.ite
    (P := isInterruptIn r → w.count = 0 ∧ Admissible minPacket r) (fun hyes => ?_) fun hno => ?_) ?_
  · rw [if_pos (hin.mpr hyes)]
    refine Decides.congr (Decides.guard fun _ => Decides.guard fun _ => Decides.pure rfl) ?_
    simp only [hin.mpr hyes, forall_const, not_or, not_not, not_lt, and_true]
    constructor
    · rintro ⟨h1, h2, h3, h4⟩
      exact ⟨by omega, h2, h3, h4⟩
    · rintro ⟨h1, h2, h3, h4⟩
      exact ⟨by omega, h2, h3, h4⟩
  · have hno' : ¬isInterruptIn r := fun hyes => hno (hin.mp hyes)
    rw [if_neg hno']
    exact Decides.congr (Decides.pure rfl) (iff_of_true trivial fun hyes => absurd hyes hno')
  · rw [not_not, ← and_bit_ne_zero, not_not]

/-! ## One descriptor -/

/-- The bytes that the selection reads of an interface or of an endpoint are there. -/
structure Long (r : List UInt8) : Prop where
  record : IsRecord r
  interface : isInterface r → 9 ≤ r.length
  endpoint : isEndpoint r → 7 ≤ r.length

/-- The state behind an interface descriptor. -/
def SelectWalk.opened (w : SelectWalk) (protocol : ℕ) (r : List UInt8) : SelectWalk where
  chosen := w.chosen
  candidate := isBoot protocol r
  number := byte r 2

theorem selectInterface_eq (h : ReadsAs d pos r) (hsize : 9 ≤ r.length) (w : SelectWalk) :
    selectInterface d protocol pos w = .ok (w.opened protocol r) := by
  unfold selectInterface
  rw [h 3 (by omega), h 5 (by omega), h 6 (by omega), h 7 (by omega), h 2 (by omega)]
  rfl

/-- What a descriptor of a candidate needs. -/
structure SelectOk (minPacket : ℕ) (w : SelectWalk) (r : List UInt8) : Prop where
  hid : isHid r → HidOk r ∧ w.reportLength = 0
  endpoint : isEndpoint r → ¬w.seen.testBit (endpointBit (byte r 2)) ∧
    (isInterruptIn r → w.count = 0 ∧ Admissible minPacket r)

/-- The state behind a descriptor that is no interface. -/
def SelectWalk.member (w : SelectWalk) (r : List UInt8) : SelectWalk :=
  if isHid r then { w with reportLength := (reportsOf r).headD 0 }
  else if isEndpoint r then w.selected r
  else w

/-- **A descriptor of a candidate that is no interface.** -/
theorem selectMember_decides (h : ReadsAs d pos r) (hr : Long r) (hcand : w.candidate) :
    Decides .reject (selectMember d minPacket pos (byte r 1) w) (SelectOk minPacket w r)
      (· = w.member r) := by
  unfold selectMember SelectWalk.member
  by_cases hhid : isHid r
  · have hend : ¬isEndpoint r := by
      rw [isEndpoint, beq_iff_eq, beq_iff_eq.mp hhid]
      decide
    rw [if_pos hhid, if_pos ⟨hcand, beq_iff_eq.mp hhid⟩]
    refine (selectHid_decides h hr.record w).congr ?_
    exact ⟨fun hok => ⟨fun _ => hok, fun he => absurd he hend⟩, fun hok => hok.hid hhid⟩
  rw [if_neg hhid, if_neg fun hyes => hhid (beq_iff_eq.mpr hyes.2)]
  by_cases hend : isEndpoint r
  · rw [if_pos hend, if_pos ⟨hcand, beq_iff_eq.mp hend⟩]
    refine (selectEndpoint_decides h hend (hr.endpoint hend) w).congr ?_
    exact ⟨fun hok => ⟨fun hh => absurd hh hhid, fun _ => hok⟩, fun hok => hok.endpoint hend⟩
  · rw [if_neg hend, if_neg fun hyes => hend (beq_iff_eq.mpr hyes.2)]
    refine Decides.congr (Decides.pure rfl) (iff_of_true trivial ?_)
    exact ⟨fun hh => absurd hh hhid, fun he => absurd he hend⟩

theorem selectMember_other (hcand : ¬w.candidate) (type : ℕ) :
    selectMember d minPacket pos type w = .ok w := by
  rw [selectMember, if_neg fun hyes => hcand hyes.1, if_neg fun hyes => hcand hyes.1]

/-- A descriptor does the same wherever it is read. -/
theorem selectMember_eq (h : ReadsAs d pos r) (hr : Long r) (w : SelectWalk) :
    selectMember d minPacket pos (byte r 1) w = selectMember r minPacket 0 (byte r 1) w := by
  by_cases hcand : w.candidate
  · exact (selectMember_decides h hr hcand).unique (selectMember_decides (readsAs_self r) hr hcand)
  · rw [selectMember_other hcand, selectMember_other hcand]

/-! ## One interface -/

/-- What is kept of an interrupt endpoint. -/
def endpointOf (es : List (List UInt8)) : ℕ × ℕ × ℕ :=
  match es with
  | [] => (0, 0, 0)
  | e :: _ => (byte e 2, word e 4, byte e 6)

/-- The state after some descriptors of a candidate. -/
structure Selecting (w₀ : SelectWalk) (u : List (List UInt8)) (w : SelectWalk) : Prop where
  chosen : w.chosen = w₀.chosen
  candidate : w.candidate = w₀.candidate
  number : w.number = w₀.number
  report : w.reportLength = (reports u).headD 0
  positive : ∀ n ∈ reports u, 0 < n
  seen : ∀ n, w.seen.testBit n ↔ ∃ e ∈ u, isEndpoint e ∧ endpointBit (byte e 2) = n
  count : w.count = (u.filter isInterruptIn).length
  endpoint : (w.endpoint, w.packet, w.interval) = endpointOf (u.filter isInterruptIn)

theorem selecting_nil (w : SelectWalk) (r : List UInt8) :
    Selecting (w.opened protocol r) [] (w.opened protocol r) where
  chosen := rfl
  candidate := rfl
  number := rfl
  report := rfl
  positive n hn := by cases hn
  seen n := by simp [SelectWalk.opened]
  count := rfl
  endpoint := rfl

/-- What a descriptor of a candidate needs of those before it. -/
structure SelectNeeds (minPacket : ℕ) (u : List (List UInt8)) (r : List UInt8) : Prop where
  hid : isHid r → HidOk r
  once : isHid r → reports u = []
  address : isEndpoint r → ∀ e ∈ u, isEndpoint e → endpointBit (byte e 2) ≠ endpointBit (byte r 2)
  one : isInterruptIn r → (u.filter isInterruptIn).length < 1
  admissible : isInterruptIn r → Admissible minPacket r

theorem Selecting.needs_iff (h : Selecting w₀ u w) :
    SelectOk minPacket w r ↔ SelectNeeds minPacket u r := by
  have hreport : w.reportLength = 0 ↔ reports u = [] := by
    rw [h.report, ← not_iff_not]
    exact headD_ne_zero h.positive
  have hseen : ¬w.seen.testBit (endpointBit (byte r 2)) ↔
      ∀ e ∈ u, isEndpoint e → endpointBit (byte e 2) ≠ endpointBit (byte r 2) := by
    rw [h.seen]
    simp only [not_exists, not_and, ne_eq]
  have hone : w.count = 0 ↔ (u.filter isInterruptIn).length < 1 := by
    rw [h.count, Nat.lt_one_iff]
  have hend : isInterruptIn r → isEndpoint r := fun hr =>
    (Bool.and_eq_true_iff.mp (Bool.and_eq_true_iff.mp hr).1).1
  constructor
  · rintro ⟨hhid, he⟩
    exact ⟨fun hr => (hhid hr).1, fun hr => hreport.mp (hhid hr).2, fun hr => hseen.mp (he hr).1,
      fun hr => hone.mp ((he (hend hr)).2 hr).1, fun hr => ((he (hend hr)).2 hr).2⟩
  · rintro ⟨hhid, honce, haddress, hcount, hadmissible⟩
    exact ⟨fun hr => ⟨hhid hr, hreport.mpr (honce hr)⟩, fun hr =>
      ⟨hseen.mpr (haddress hr), fun hi => ⟨hone.mpr (hcount hi), hadmissible hi⟩⟩⟩

theorem reports_concat (u : List (List UInt8)) (r : List UInt8) :
    reports (u ++ [r]) = reports u ++ if isHid r then reportsOf r else [] := by
  rw [reports, List.filter_append, List.flatMap_append]
  by_cases hr : isHid r
  · rw [List.filter_cons_of_pos hr, if_pos hr]
    simp [reports]
  · rw [List.filter_cons_of_neg hr, if_neg hr]
    rfl

theorem seen_concat {seen : ℕ} {r : List UInt8} (h : ∀ n, seen.testBit n ↔
    ∃ e ∈ u, isEndpoint e ∧ endpointBit (byte e 2) = n) (hr : isEndpoint r) (n : ℕ) :
    (seen ||| 1 <<< endpointBit (byte r 2)).testBit n ↔
      ∃ e ∈ u ++ [r], isEndpoint e ∧ endpointBit (byte e 2) = n := by
  rw [Nat.testBit_or, Bool.or_eq_true, h, Nat.one_shiftLeft, Nat.testBit_two_pow,
    decide_eq_true_iff]
  simp [or_and_right, exists_or, hr]

/-- A descriptor that is no HID descriptor and no interrupt endpoint. -/
theorem Selecting.keep {seen : ℕ} (h : Selecting w₀ u w) (hhid : ¬isHid r) (hint : ¬isInterruptIn r)
    (hseen : ∀ n, seen.testBit n ↔ ∃ e ∈ u ++ [r], isEndpoint e ∧ endpointBit (byte e 2) = n) :
    Selecting w₀ (u ++ [r]) { w with seen } := by
  have hreports : reports (u ++ [r]) = reports u := by
    rw [reports_concat, if_neg hhid, List.append_nil]
  have hfilter : (u ++ [r]).filter isInterruptIn = u.filter isInterruptIn := by
    rw [List.filter_append, List.filter_cons_of_neg hint]
    exact List.append_nil _
  refine ⟨h.chosen, h.candidate, h.number, ?_, ?_, hseen, ?_, ?_⟩
  · rw [hreports]
    exact h.report
  · rw [hreports]
    exact h.positive
  · rw [hfilter]
    exact h.count
  · rw [hfilter]
    exact h.endpoint

/-- **One descriptor more of a candidate.** -/
theorem Selecting.step (h : Selecting w₀ u w) (hr : Long r) (hcand : w₀.candidate) :
    Decides .reject (selectMember r minPacket 0 (byte r 1) w) (SelectNeeds minPacket u r)
      (Selecting w₀ (u ++ [r])) := by
  have hstep : Decides .reject (selectMember r minPacket 0 (byte r 1) w) (SelectOk minPacket w r)
      (· = w.member r) := selectMember_decides (readsAs_self r) hr (h.candidate.trans hcand)
  refine (hstep.congr h.needs_iff).imp fun hneeds w' hw' => ?_
  subst hw'
  unfold SelectWalk.member
  have hsame : ¬isEndpoint r → ∀ n, w.seen.testBit n ↔
      ∃ e ∈ u ++ [r], isEndpoint e ∧ endpointBit (byte e 2) = n := by
    intro hend n
    rw [h.seen]
    simp [hend]
  by_cases hhid : isHid r
  · have hend : ¬isEndpoint r := by
      rw [isEndpoint, beq_iff_eq, beq_iff_eq.mp hhid]
      decide
    have hint : ¬isInterruptIn r := by simp [isInterruptIn, hend]
    have hfilter : (u ++ [r]).filter isInterruptIn = u.filter isInterruptIn := by
      rw [List.filter_append, List.filter_cons_of_neg hint]
      exact List.append_nil _
    have hreports : reports (u ++ [r]) = reportsOf r := by
      rw [reports_concat, if_pos hhid, hneeds.once hhid, List.nil_append]
    rw [if_pos hhid]
    refine ⟨h.chosen, h.candidate, h.number, ?_, ?_, hsame hend, ?_, ?_⟩
    · rw [hreports]
    · rw [hreports]
      exact fun n hn => ((hneeds.hid hhid).report n hn).1
    · rw [hfilter]
      exact h.count
    · rw [hfilter]
      exact h.endpoint
  rw [if_neg hhid]
  by_cases hend : isEndpoint r
  · rw [if_pos hend, SelectWalk.selected]
    have hseen := seen_concat h.seen hend
    by_cases hint : isInterruptIn r
    · -- It is the first interrupt endpoint.
      have hnone : u.filter isInterruptIn = [] :=
        List.length_eq_zero_iff.mp (Nat.lt_one_iff.mp (hneeds.one hint))
      have hfilter : (u ++ [r]).filter isInterruptIn = [r] := by
        rw [List.filter_append, hnone, List.filter_cons_of_pos hint]
        rfl
      have hreports : reports (u ++ [r]) = reports u := by
        rw [reports_concat, if_neg hhid, List.append_nil]
      simp only [if_pos hint]
      refine ⟨h.chosen, h.candidate, h.number, ?_, ?_, hseen, ?_, ?_⟩
      · rw [hreports]
        exact h.report
      · rw [hreports]
        exact h.positive
      · rw [hfilter]
        dsimp only
        rw [h.count, hnone]
        rfl
      · rw [hfilter]
        rfl
    · simp only [if_neg hint]
      exact h.keep hhid hint hseen
  · have hint : ¬isInterruptIn r := by simp [isInterruptIn, hend]
    rw [if_neg hend]
    exact h.keep hhid hint (hsame hend)

/-! ## One interface, seen as a whole -/

/-- Two valid addresses have one bit only if they are the same. -/
theorem endpointBit_inj {a b : ℕ} (ha : a < 256) (hb : b < 256) (ha' : a &&& 0x70 = 0)
    (hb' : b &&& 0x70 = 0) (h : endpointBit a = endpointBit b) : a = b := by
  have hback : ∀ n < 256, n &&& 0x70 = 0 →
      n = endpointBit n / 2 + 128 * (endpointBit n % 2) := by
    decide +kernel
  rw [hback a ha ha', hback b hb hb', h]

/-- What the descriptors of a candidate need, taken together. -/
theorem candidateOk_iff (hg : GroupOk g) :
    (∀ u r v, g.2 = u ++ r :: v → SelectNeeds minPacket u r) ↔ CandidateOk minPacket g := by
  have hbit : ∀ a ∈ g.2, ∀ b ∈ g.2, isEndpoint a → isEndpoint b →
      (endpointBit (byte a 2) ≠ endpointBit (byte b 2) ↔ byte a 2 ≠ byte b 2) := by
    intro a ha b hb hea heb
    refine not_congr ⟨endpointBit_inj (byte_lt a 2) (byte_lt b 2) (hg.endpoint a ha hea).reserved
      (hg.endpoint b hb heb).reserved, fun heq => by rw [heq]⟩
  have hmem : ∀ u r v, g.2 = u ++ r :: v → r ∈ g.2 ∧ ∀ e ∈ u, e ∈ g.2 := by
    intro u r v heq
    rw [heq]
    exact ⟨List.mem_append_right _ List.mem_cons_self, fun e he => List.mem_append_left _ he⟩
  constructor
  · intro h
    refine ⟨fun r hr hhid => ?_, fun u r v heq => (h u r v heq).once, ?_, ?_, fun r hr hint => ?_⟩
    · obtain ⟨u, v, heq⟩ := List.append_of_mem hr
      exact (h u r v heq).hid hhid
    · refine nodup_filter_map_iff.mpr fun u r v heq hr e he hend => ?_
      obtain ⟨hr', hu⟩ := hmem u r v heq
      exact (hbit e (hu e he) r hr' hend hr).mp ((h u r v heq).address hr e he hend)
    · exact length_filter_le_iff.mpr fun u r v heq hr => (h u r v heq).one hr
    · obtain ⟨u, v, heq⟩ := List.append_of_mem hr
      exact (h u r v heq).admissible hint
  · intro h u r v heq
    obtain ⟨hr', hu⟩ := hmem u r v heq
    refine ⟨h.hid r hr', h.once u r v heq, fun hr e he hend => ?_, fun hint => ?_,
      h.admissible r hr'⟩
    · exact (hbit e (hu e he) r hr' hend hr).mpr
        (nodup_filter_map_iff.mp h.address u r v heq hr e he hend)
    · exact length_filter_le_iff.mp h.one u r v heq hint

end ZealBringup.Pi4
