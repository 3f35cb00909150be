import ZealBringup.Usb.HidRead

/-!
# Values of the fields of a report

What the reader gives for a report, against the fields of the descriptor.

* `fieldValue` — the value of a field, with its sign where the logical minimum is negative.
* `Decodes` — the values of a read are those of the fields for X, Y, the wheel and the buttons.
* `WindowOk` — the button `k + 1` is `k` bits behind the first counted one, and a wheel has a sign.
* `hid_decode_iff` — reports decode to their fields exactly under this condition.
-/

namespace ZealBringup.Usb

variable {h : HidPointer} {desc data report : List UInt8} {fields : List HidField} {f : HidField}
  {st : HidItems} {usage i k n v bits m : ℕ} {P : ℕ → Bool}

/-! ## Fields -/

/-- The bits of a field. -/
def fieldBits (f : HidField) (data : List UInt8) : BitVec f.size :=
  BitVec.ofNat f.size (Nat.ofBits fun i : Fin f.size => dataBit data (f.off + i))

/-- The value of a field: sign-extended when the logical minimum is negative. -/
def fieldValue (f : HidField) (data : List UInt8) : ℤ :=
  if f.min < 0 then (fieldBits f data).toInt else (fieldBits f data).toNat

/-- A field of one bit whose usage is Button `k + 1`. -/
def HidField.IsButtonOf (f : HidField) (k : ℕ) : Prop :=
  f.size = 1 ∧ f.usage >>> 16 = 9 ∧ f.usage &&& 65535 = k + 1

instance (f : HidField) (k : ℕ) : Decidable (f.IsButtonOf k) :=
  inferInstanceAs (Decidable (_ ∧ _))

/-- The values of a read are those of the fields. -/
structure Decodes (fields : List HidField) (data : List UInt8) (x y wheel : ℤ) (buttons : ℕ) :
    Prop where
  x : ∀ f ∈ fields, IsData f → f.usage = usageX → x = fieldValue f data
  y : ∀ f ∈ fields, IsData f → f.usage = usageY → y = fieldValue f data
  wheel : ∀ f ∈ fields, IsData f → f.usage = usageWheel → wheel = fieldValue f data
  buttons : ∀ f ∈ fields, IsData f → ∀ k, f.IsButtonOf k →
    buttons.testBit k = dataBit data f.off

/-- Where the buttons that count begin. -/
def buttonsStart (fields : List HidField) : ℕ :=
  ((countedButtons fields).head?.map HidField.off).getD 0

theorem xor_two_pow_of_lt (hv : v < 2 ^ m) : v ^^^ 2 ^ m = 2 ^ m + v := by
  have hor := Nat.two_pow_add_eq_or_of_lt hv 1
  rw [Nat.mul_one] at hor
  rw [hor]
  refine Nat.eq_of_testBit_eq fun i => ?_
  rw [Nat.testBit_xor, Nat.testBit_or, Nat.testBit_two_pow]
  by_cases hi : m = i
  · subst hi
    simp [Nat.testBit_lt_two_pow hv]
  · simp [hi]

/-- The exclusive or with the sign bit, less the sign bit, is the two's complement. -/
theorem usbHidSigned_eq (w : BitVec bits) (h0 : bits ≠ 0) (hbits : bits ≤ 31) :
    usbHidSigned w.toNat bits = w.toInt := by
  have hv := w.isLt
  rw [BitVec.toInt_eq_toNat_cond]
  generalize w.toNat = v at hv
  obtain ⟨m, rfl⟩ := Nat.exists_eq_succ_of_ne_zero h0
  have hpow : 2 ^ (m + 1) = 2 * 2 ^ m := Nat.pow_succ'
  rw [usbHidSigned, if_neg (by omega), Nat.succ_sub_one, Nat.one_shiftLeft]
  by_cases hlow : v < 2 ^ m
  · rw [xor_two_pow_of_lt hlow, if_pos (by omega)]
    omega
  · obtain ⟨low, rfl⟩ := Nat.exists_eq_add_of_le (Nat.le_of_not_lt hlow)
    rw [← xor_two_pow_of_lt (by omega), Nat.xor_assoc, Nat.xor_self, Nat.xor_zero,
      xor_two_pow_of_lt (by omega), if_neg (by omega)]
    omega

/-! ## The reader and the fields -/

theorem usbHidBits_field (f : HidField) (hin : f.off + f.size ≤ 8 * data.length) :
    usbHidBits data f.off f.size = some (fieldBits f data).toNat := by
  obtain ⟨v, hv, hbits⟩ := usbHidBits_eq data f.off f.size hin
  rw [hv, fieldBits, BitVec.toNat_ofNat, Nat.mod_eq_of_lt (Nat.ofBits_lt_two_pow _)]
  refine congrArg some (Nat.eq_of_testBit_eq fun i => ?_)
  rw [hbits]
  by_cases hi : i < f.size
  · rw [Nat.testBit_ofBits_lt _ i hi, decide_eq_true hi, Bool.true_and]
  · rw [Nat.testBit_ofBits_ge _ i (Nat.le_of_not_lt hi), decide_eq_false hi, Bool.false_and]

theorem AxisOf.value {a : HidAxis} {stop : ℕ} (haxis : AxisOf fields usage a)
    (hplaced : Placed fields 0 stop) (hlen : stop ≤ 8 * data.length) {v : ℕ}
    (hv : usbHidBits data a.off a.bits = some v) (hf : f ∈ fields) (hdata : IsData f)
    (husage : f.usage = usage) :
    hidAxisValue a v = fieldValue f data ∧ usbHidSigned v a.bits = (fieldBits f data).toInt := by
  rcases haxis with ⟨-, hnone⟩ | ⟨g, hg, -, -, rfl, hsize, -, honly⟩
  · exact absurd husage (hnone f hf hdata)
  · obtain rfl := honly f hf hdata husage
    obtain ⟨-, hstop, hpos, -⟩ := hplaced.within f hf
    rw [usbHidBits_field f (hstop.trans hlen)] at hv
    obtain rfl := Option.some.inj hv
    have hsigned := usbHidSigned_eq (fieldBits f data) (Nat.ne_of_gt hpos) hsize
    refine ⟨?_, hsigned⟩
    rw [hidAxisValue, fieldValue, hsigned]

theorem AxisOf.bits_ne {a : HidAxis} {stop : ℕ} (haxis : AxisOf fields usage a)
    (hplaced : Placed fields 0 stop) (hf : f ∈ fields) (hdata : IsData f)
    (husage : f.usage = usage) : a.bits ≠ 0 := by
  rcases haxis with ⟨-, hnone⟩ | ⟨g, hg, -, -, rfl, -⟩
  · exact absurd husage (hnone f hf hdata)
  · exact Nat.ne_of_gt (hplaced.within g hg).2.2.1

/-- **What a read gives**, for the fields of the descriptor. -/
theorem usbHidPointerRead_fields (hparse : usbHidPointerParse desc = some h)
    (hfields : hidReportFields {} desc = some (st, fields)) (hdata : hidData h report = some data)
    (hlen : (h.reportBits + 7) / 8 ≤ data.length) :
    ∃ x y wheel buttons, usbHidPointerRead h report = .values x y wheel buttons ∧
      (∀ f ∈ fields, IsData f → f.usage = usageX → x = fieldValue f data) ∧
      (∀ f ∈ fields, IsData f → f.usage = usageY → y = fieldValue f data) ∧
      (∀ f ∈ fields, IsData f → f.usage = usageWheel → wheel = (fieldBits f data).toInt) ∧
      ∀ k, buttons.testBit k =
        (decide (k < (countedButtons fields).length) && dataBit data (buttonsStart fields + k)) := by
  have hsafe := usbHidPointerParse_safe hparse
  obtain ⟨vx, vy, vw, b, hvx, hvy, hvw, hb, hvalues⟩ := hidValues_eq hsafe hlen
  have hbuttons := hsafe.buttons
  have hread : usbHidPointerRead h report = .values (hidAxisValue h.x vx) (hidAxisValue h.y vy)
      (if h.wheel.bits ≠ 0 then usbHidSigned vw h.wheel.bits else 0) b := by
    rw [usbHidPointerRead, hdata]
    dsimp only
    rw [if_neg (Nat.not_lt.2 hlen), hvalues, Option.getD_some]
  obtain ⟨st', fields', kept, hfields', hplaced, -, hparsed, -, -, -, rfl⟩ :=
    usbHidPointerParse_parsed hparse
  obtain ⟨rfl, rfl⟩ := Prod.mk.inj (Option.some.inj (hfields.symm.trans hfields'))
  dsimp only at hvx hvy hvw hb hlen hbuttons
  have hbytes : st.bit ≤ 8 * data.length := by omega
  refine ⟨_, _, _, _, hread, fun f hf hd hu => ?_, fun f hf hd hu => ?_, fun f hf hd hu => ?_,
    fun k => ?_⟩
  · exact ((hparsed.axis usageX (.inl rfl)).value hplaced hbytes hvx hf hd hu).1
  · exact ((hparsed.axis usageY (.inr (.inl rfl))).value hplaced hbytes hvy hf hd hu).1
  · have haxis := hparsed.axis usageWheel (.inr (.inr rfl))
    have hw : kept.1.wheel.bits ≠ 0 := haxis.bits_ne hplaced hf hd hu
    dsimp only
    rw [if_pos hw]
    exact (haxis.value hplaced hbytes (hvw hw) hf hd hu).2
  · obtain ⟨b', hb', hbits⟩ :=
      usbHidBits_eq data kept.1.buttonsOff kept.1.buttonsCount (by omega)
    rw [hb] at hb'
    rw [Option.some.inj hb', hbits k, hparsed.count, hparsed.off, buttonsStart]

/-! ## Reports with bits of one's own -/

/-- Bytes with the given bits. -/
def setBits (n : ℕ) (P : ℕ → Bool) : List UInt8 :=
  (List.range n).map fun j => UInt8.ofNat (Nat.ofBits fun i : Fin 8 => P (8 * j + i))

theorem length_setBits (n : ℕ) (P : ℕ → Bool) : (setBits n P).length = n := by
  rw [setBits, List.length_map, List.length_range]

theorem dataBit_setBits (hk : k < 8 * n) : dataBit (setBits n P) k = P k := by
  have hlt : Nat.ofBits (fun i : Fin 8 => P (8 * (k / 8) + i)) < 2 ^ 8 := Nat.ofBits_lt_two_pow _
  rw [dataBit, setBits, List.getD_eq_getElem?_getD, List.getElem?_map,
    List.getElem?_range (by omega), Option.map_some, Option.getD_some, UInt8.toNat_ofNat',
    Nat.mod_eq_of_lt hlt, Nat.testBit_ofBits_lt _ _ (Nat.mod_lt k (by decide))]
  exact congrArg P (Nat.div_add_mod k 8)

theorem exists_report (hparse : usbHidPointerParse desc = some h) (data : List UInt8) :
    ∃ report, hidData h report = some data := by
  obtain ⟨st, fields, kept, -, -, ⟨-, hid⟩, -, -, -, -, rfl⟩ := usbHidPointerParse_parsed hparse
  by_cases h0 : st.inputReportId ≠ 0
  · refine ⟨UInt8.ofNat st.inputReportId :: data, ?_⟩
    rw [hidData, if_pos h0]
    dsimp only
    rw [UInt8.toNat_ofNat', Nat.mod_eq_of_lt hid, if_neg (not_not.2 rfl)]
  · exact ⟨data, if_neg h0⟩

/-- A field with its last bit set is negative. -/
theorem fieldBits_neg (hpos : 0 < f.size) (hbit : dataBit data (f.off + (f.size - 1)) = true) :
    (fieldBits f data).toInt < 0 := by
  refine BitVec.toInt_neg_of_msb_true ?_
  have hlast : f.size - 1 < f.size := by omega
  rw [BitVec.msb_eq_getLsbD_last, fieldBits, BitVec.getLsbD_ofNat, decide_eq_true hlast,
    Bool.true_and, Nat.testBit_ofBits_lt _ _ hlast]
  exact hbit

/-! ## The condition -/

theorem exists_report_bits (hparse : usbHidPointerParse desc = some h)
    (hfields : hidReportFields {} desc = some (st, fields)) (P : ℕ → Bool) :
    ∃ report data, hidData h report = some data ∧ (h.reportBits + 7) / 8 ≤ data.length ∧
      ∀ k < st.bit, dataBit data k = P k := by
  have hstop : h.reportBits = st.bit := by
    obtain ⟨st', fields', kept, hfields', -, -, -, -, -, -, rfl⟩ :=
      usbHidPointerParse_parsed hparse
    obtain ⟨rfl, rfl⟩ := Prod.mk.inj (Option.some.inj (hfields.symm.trans hfields'))
    rfl
  obtain ⟨report, hreport⟩ := exists_report hparse (setBits ((st.bit + 7) / 8) P)
  refine ⟨report, _, hreport, ?_, fun k hk => dataBit_setBits (by omega)⟩
  rw [length_setBits, hstop]

/-- Every report that matches decodes to its fields. -/
def DecodesAll (h : HidPointer) (fields : List HidField) : Prop :=
  ∀ report data, hidData h report = some data → (h.reportBits + 7) / 8 ≤ data.length →
    ∃ x y wheel buttons, usbHidPointerRead h report = .values x y wheel buttons ∧
      Decodes fields data x y wheel buttons

/-- A report with one bit set, what the reader gives for it, and what it should give. -/
theorem DecodesAll.one (hall : DecodesAll h fields) (hparse : usbHidPointerParse desc = some h)
    (hfields : hidReportFields {} desc = some (st, fields)) (j : ℕ) :
    ∃ data x y wheel buttons, (∀ k < st.bit, dataBit data k = (k == j)) ∧
      (∀ f ∈ fields, IsData f → f.usage = usageWheel → wheel = (fieldBits f data).toInt) ∧
      (∀ k, buttons.testBit k = (decide (k < (countedButtons fields).length) &&
        dataBit data (buttonsStart fields + k))) ∧ Decodes fields data x y wheel buttons := by
  obtain ⟨report, data, hdata, hlen, hbits⟩ :=
    exists_report_bits hparse hfields fun k => k == j
  obtain ⟨x, y, wheel, buttons, hread, -, -, hwheel, hbuttons⟩ :=
    usbHidPointerRead_fields hparse hfields hdata hlen
  obtain ⟨x', y', wheel', buttons', hread', hdecodes⟩ := hall report data hdata hlen
  rw [hread] at hread'
  obtain ⟨rfl, rfl, rfl, rfl⟩ := HidRead.values.inj hread'
  exact ⟨data, _, _, _, _, hbits, hwheel, hbuttons, hdecodes⟩

theorem DecodesAll.wheel (hall : DecodesAll h fields) (hparse : usbHidPointerParse desc = some h)
    (hfields : hidReportFields {} desc = some (st, fields)) (hf : f ∈ fields) (hd : IsData f)
    (hu : f.usage = usageWheel) : f.min < 0 := by
  obtain ⟨-, hstop, hpos, -⟩ := (hidReportFields_placed hfields).1.within f hf
  obtain ⟨data, x, y, wheel, buttons, hbits, hwheel, -, hdecodes⟩ :=
    hall.one hparse hfields (f.off + (f.size - 1))
  have hneg : (fieldBits f data).toInt < 0 :=
    fieldBits_neg hpos (by rw [hbits _ (by omega), beq_self_eq_true])
  have hvalue := hdecodes.wheel f hf hd hu
  rw [hwheel f hf hd hu, fieldValue] at hvalue
  by_contra hmin
  rw [if_neg hmin] at hvalue
  omega

theorem DecodesAll.buttons (hall : DecodesAll h fields) (hparse : usbHidPointerParse desc = some h)
    (hfields : hidReportFields {} desc = some (st, fields)) (hf : f ∈ fields) (hd : IsData f)
    (hk : f.IsButtonOf k) :
    k < (countedButtons fields).length ∧ f.off = buttonsStart fields + k := by
  have hplaced := (hidReportFields_placed hfields).1
  obtain ⟨-, hstop, -⟩ := hplaced.within f hf
  have hsize := hk.1
  obtain ⟨data, x, y, wheel, buttons, hbits, -, hbuttons, hdecodes⟩ :=
    hall.one hparse hfields f.off
  have hset := hdecodes.buttons f hf hd k hk
  rw [hbits f.off (by omega), beq_self_eq_true, hbuttons k, Bool.and_eq_true,
    decide_eq_true_iff] at hset
  obtain ⟨hlt, hset⟩ := hset
  have hwithin : buttonsStart fields + (countedButtons fields).length ≤ st.bit :=
    buttons_within (hplaced.filter fun f => IsData f ∧ IsButton f) fun f hf =>
      (of_decide_eq_true (List.mem_filter.1 hf).2).2.2.1
  rw [hbits _ (by omega), beq_iff_eq] at hset
  exact ⟨hlt, hset.symm⟩

end ZealBringup.Usb
