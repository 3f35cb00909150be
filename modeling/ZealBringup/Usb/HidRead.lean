import ZealBringup.Usb.HidFields

/-!
# Reads of a report

What the reader takes from a report, for a descriptor that the parser accepts.

* `dataBit` — a bit of the data of a report.
* `usbHidBits_eq` — the bits of a field, if they are within the data.
* `HidSafe` — a pointer whose fields are within its report, with sound axes.
* `usbHidPointerParse_safe` — the parser accepts only such pointers.
-/

namespace ZealBringup.Usb

variable {h : HidPointer} {desc : List UInt8} {p data report : List UInt8} {off bits i k v : ℕ}
  {fields : List HidField} {usage : ℕ}

/-! ## Bits -/

/-- A bit of the data. -/
def dataBit (p : List UInt8) (k : ℕ) : Bool := (p.getD (k / 8) 0).toNat.testBit (k % 8)

theorem shifted_bit (byte k i j : ℕ) :
    ((byte >>> k &&& 1) <<< i).testBit j = (decide (j = i) && byte.testBit k) := by
  have hbit : byte >>> k &&& 1 = (byte.testBit k).toNat := by
    rw [Nat.toNat_testBit, Nat.and_one_is_mod, Nat.shiftRight_eq_div_pow]
  rw [hbit]
  cases byte.testBit k with
  | false => simp
  | true =>
    rw [Bool.toNat_true, Nat.one_shiftLeft, Nat.testBit_two_pow, Bool.and_true]
    exact decide_eq_decide.2 eq_comm

/-- **The bits of a field** within the data. -/
theorem usbHidBits_eq (p : List UInt8) (off bits : ℕ) (hin : off + bits ≤ 8 * p.length) :
    ∃ v, usbHidBits p off bits = some v ∧
      ∀ i, v.testBit i = (decide (i < bits) && dataBit p (off + i)) := by
  induction bits with
  | zero => exact ⟨0, rfl, fun i => by simp⟩
  | succ bits ih =>
    obtain ⟨v, hv, hbits⟩ := ih (by omega)
    have hbyte : p[(off + bits) / 8]? = some (p.getD ((off + bits) / 8) 0) := by
      have hlt : (off + bits) / 8 < p.length := by omega
      rw [List.getD_eq_getElem?_getD, List.getElem?_eq_getElem hlt, Option.getD_some]
    rw [usbHidBits] at hv
    refine ⟨v ||| ((p.getD ((off + bits) / 8) 0).toNat >>> ((off + bits) % 8) &&& 1) <<< bits, ?_,
      fun i => ?_⟩
    · rw [usbHidBits, List.range_succ, List.foldlM_append, hv]
      simp only [Option.bind_eq_bind, Option.bind_some, List.foldlM_cons, List.foldlM_nil, hbyte]
      rfl
    · rw [Nat.testBit_or, hbits, shifted_bit, dataBit]
      by_cases hi : i = bits
      · subst hi
        simp
      · have hiff : i < bits + 1 ↔ i < bits := by omega
        simp [hi, hiff]

theorem lt_of_usbHidBits (hv : ∀ i, v.testBit i = (decide (i < bits) && dataBit p (off + i))) :
    v < 2 ^ bits := by
  refine Nat.lt_pow_two_of_testBit v fun i hi => ?_
  rw [hv i, decide_eq_false (Nat.not_lt.2 hi), Bool.false_and]

/-! ## Sound pointers -/

/-- An axis within a report. -/
structure AxisSafe (a : HidAxis) (reportBits : ℕ) : Prop where
  within : a.off + a.bits ≤ reportBits
  bits : 1 ≤ a.bits ∧ a.bits ≤ 31
  limits : a.min < a.max
  words : -2 ^ 31 ≤ a.min ∧ a.max < 2 ^ 31

/-- A pointer whose fields are within its report. -/
structure HidSafe (h : HidPointer) : Prop where
  reportBits : h.reportBits ≤ 512
  x : AxisSafe h.x h.reportBits
  y : AxisSafe h.y h.reportBits
  wheel : h.wheel.bits = 0 ∨ AxisSafe h.wheel h.reportBits
  buttons : h.buttonsOff + h.buttonsCount ≤ h.reportBits
  count : h.buttonsCount ≤ 3

theorem AxisOf.safe {a : HidAxis} {stop : ℕ} (hplaced : Placed fields 0 stop)
    (haxis : AxisOf fields usage a) : a.bits = 0 ∨ AxisSafe a stop := by
  rcases haxis with ⟨rfl, -⟩ | ⟨f, hf, -, -, rfl, hsize, hlimits, -⟩
  · exact .inl rfl
  · obtain ⟨-, hstop, hpos, -⟩ := hplaced.within f hf
    exact .inr ⟨hstop, ⟨hpos, hsize⟩, hlimits, hplaced.limits f hf⟩

/-- Buttons in order take up at least as many bits as they are. -/
theorem buttons_within {stop : ℕ} (hplaced : Placed fields 0 stop)
    (hbits : ∀ f ∈ fields, f.size = 1) :
    ((fields.head?.map HidField.off).getD 0) + fields.length ≤ stop := by
  cases fields with
  | nil => exact hplaced.le
  | cons f rest =>
    rw [List.head?_cons, Option.map_some, Option.getD_some]
    induction rest generalizing f with
    | nil =>
      have hwithin := hplaced.within f (List.mem_cons_self ..)
      have hsize := hbits f (List.mem_cons_self ..)
      rw [List.length_singleton]
      omega
    | cons g rest ih =>
      have horder := List.rel_of_pairwise_cons hplaced.order (List.mem_cons_self ..)
      have hsize := hbits f (List.mem_cons_self ..)
      have hrest := ih g ⟨Nat.zero_le _, hplaced.order.of_cons,
        fun f' hf' => hplaced.within f' (List.mem_cons_of_mem f hf'),
        fun f' hf' => hplaced.limits f' (List.mem_cons_of_mem f hf')⟩
        fun f' hf' => hbits f' (List.mem_cons_of_mem f hf')
      simp only [List.length_cons] at hrest ⊢
      omega

theorem Placed.filter {stop : ℕ} (h : Placed fields 0 stop) (P : HidField → Bool) :
    Placed (fields.filter P) 0 stop where
  le := Nat.zero_le stop
  order := h.order.filter P
  within := fun f hf => h.within f (List.mem_of_mem_filter hf)
  limits := fun f hf => h.limits f (List.mem_of_mem_filter hf)

/-- What an accepted descriptor is: its fields, and what the pointer has of them. -/
theorem usbHidPointerParse_parsed (hparse : usbHidPointerParse desc = some h) :
    ∃ st fields kept, hidReportFields {} desc = some (st, fields) ∧ Placed fields 0 st.bit ∧
      (st.bit ≤ 512 ∧ st.inputReportId < 256) ∧ Parsed fields kept ∧ kept.1.x.bits ≠ 0 ∧
      kept.1.y.bits ≠ 0 ∧ kept.1.buttonsCount ≤ 3 ∧ h = { kept.1 with
        absolute := decide (kept.2 = some false), reportBits := st.bit,
        reportId := st.inputReportId } := by
  obtain ⟨st, fields, kept, hfields, hfold, hfull, hh⟩ := usbHidPointerParse_fields hparse
  obtain ⟨hplaced, hstop, hlimits⟩ := hidReportFields_placed hfields
  have hparsed := foldlM_hidField_parsed (fun f hf => (hplaced.within f hf).2.2.1) hfold
  exact ⟨st, fields, kept, hfields, hplaced, ⟨hstop, hlimits.input⟩, hparsed,
    fun hx => hfull (.inl hx), fun hy => hfull (.inr (.inl hy)),
    Nat.le_of_not_lt fun hc => hfull (.inr (.inr hc)), hh⟩

/-- **The parser accepts only pointers whose fields are within the report.** -/
theorem usbHidPointerParse_safe (hparse : usbHidPointerParse desc = some h) : HidSafe h := by
  obtain ⟨st, fields, kept, -, hplaced, ⟨hstop, -⟩, hparsed, hx, hy, hcount, rfl⟩ :=
    usbHidPointerParse_parsed hparse
  have hbuttons := buttons_within (hplaced.filter fun f => IsData f ∧ IsButton f) fun f hf =>
    (of_decide_eq_true (List.mem_filter.1 hf).2).2.2.1
  refine ⟨hstop, ?_, ?_, ?_, ?_, hcount⟩
  · exact ((hparsed.axis usageX (.inl rfl)).safe hplaced).resolve_left hx
  · exact ((hparsed.axis usageY (.inr (.inl rfl))).safe hplaced).resolve_left hy
  · exact (hparsed.axis usageWheel (.inr (.inr rfl))).safe hplaced
  · dsimp only
    rw [hparsed.off, hparsed.count]
    exact hbuttons

/-! ## The reader -/

theorem hidValues_eq (hsafe : HidSafe h) (hlen : (h.reportBits + 7) / 8 ≤ data.length) :
    ∃ vx vy vw b, usbHidBits data h.x.off h.x.bits = some vx ∧
      usbHidBits data h.y.off h.y.bits = some vy ∧
      (h.wheel.bits ≠ 0 → usbHidBits data h.wheel.off h.wheel.bits = some vw) ∧
      usbHidBits data h.buttonsOff h.buttonsCount = some b ∧
      hidValues h data = some (.values (hidAxisValue h.x vx) (hidAxisValue h.y vy)
        (if h.wheel.bits ≠ 0 then usbHidSigned vw h.wheel.bits else 0) b) := by
  have hx := hsafe.x.within
  have hy := hsafe.y.within
  have hbuttons := hsafe.buttons
  obtain ⟨vx, hvx, -⟩ := usbHidBits_eq data h.x.off h.x.bits (by omega)
  obtain ⟨vy, hvy, -⟩ := usbHidBits_eq data h.y.off h.y.bits (by omega)
  obtain ⟨b, hb, -⟩ := usbHidBits_eq data h.buttonsOff h.buttonsCount (by omega)
  by_cases hw : h.wheel.bits ≠ 0
  · have hwheel := (hsafe.wheel.resolve_left hw).within
    obtain ⟨vw, hvw, -⟩ := usbHidBits_eq data h.wheel.off h.wheel.bits (by omega)
    refine ⟨vx, vy, vw, b, hvx, hvy, fun _ => hvw, hb, ?_⟩
    rw [hidValues, hvx, hvy, hb, hidWheel, if_pos hw, if_pos hw, hvw]
    rfl
  · refine ⟨vx, vy, 0, b, hvx, hvy, fun h0 => absurd h0 hw, hb, ?_⟩
    rw [hidValues, hvx, hvy, hb, hidWheel, if_neg hw, if_neg hw]
    rfl

/-- **The reader reads only bytes of its report.** -/
theorem usbHidPointerRead_inside (hsafe : HidSafe h) (report : List UInt8) :
    usbHidPointerRead h report ≠ .outside := by
  rw [usbHidPointerRead]
  cases hidData h report with
  | none => exact fun hout => nomatch hout
  | some data =>
    dsimp only
    split
    · exact fun hout => nomatch hout
    · next hlen =>
      obtain ⟨vx, vy, vw, b, -, -, -, -, hvalues⟩ := hidValues_eq hsafe (Nat.le_of_not_lt hlen)
      rw [hvalues]
      exact fun hout => nomatch hout

theorem usbHidPointerRead_values {x y wheel : ℤ} {buttons : ℕ}
    (hread : usbHidPointerRead h report = .values x y wheel buttons) :
    ∃ data, hidData h report = some data ∧ (h.reportBits + 7) / 8 ≤ data.length ∧
      hidValues h data = some (.values x y wheel buttons) := by
  rw [usbHidPointerRead] at hread
  cases hdata : hidData h report with
  | none =>
    rw [hdata] at hread
    cases hread
  | some data =>
    rw [hdata] at hread
    dsimp only at hread
    split at hread
    · cases hread
    · next hlen =>
      refine ⟨data, rfl, Nat.le_of_not_lt hlen, ?_⟩
      cases hvalues : hidValues h data with
      | none =>
        rw [hvalues] at hread
        cases hread
      | some r =>
        rw [hvalues, Option.getD_some] at hread
        rw [hread]

end ZealBringup.Usb
