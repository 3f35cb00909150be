import Mathlib.Data.List.Basic
import ZealBringup.Usb.Hid

/-!
# The fields of a descriptor

The parser against the list of all fields of a descriptor.

* `hidReportFields` — the fields of all input items, in the order of the report.
* `usbHidPointerParse_fields` — the parser goes through these fields with `hidField`.
* `Placed` — the fields are in order and within the report, which has at most 512 bits.
* `Parsed` — what `hidField` has made of a list of fields.
-/

namespace ZealBringup.Usb

variable {σ : Type} {onField : σ → HidField → Option σ} {st st' : HidItems} {out out' : σ}
  {desc : List UInt8} {fields fields' : List HidField} {b v : ℕ}

/-! ## The loop with the fields apart -/

/-- The use of the fields that only collects them. -/
def collect (fields : List HidField) (f : HidField) : Option (List HidField) := some (fields ++ [f])

theorem foldlM_collect (fields fields' : List HidField) :
    fields'.foldlM collect fields = some (fields ++ fields') := by
  induction fields' generalizing fields with
  | nil => rw [List.foldlM_nil, List.append_nil]; rfl
  | cons f fields' ih =>
    rw [List.foldlM_cons, collect, Option.bind_eq_bind, Option.bind_some, ih, List.append_assoc]
    rfl

/-- The fields of all input items of a descriptor, and the items' state at its end. -/
def hidReportFields (st : HidItems) (desc : List UInt8) : Option (HidItems × List HidField) :=
  hidLoop collect st [] desc

theorem hidStep_fields (onField : σ → HidField → Option σ) (b v : ℕ) (st : HidItems) (out : σ)
    (fields : List HidField) :
    (∃ st' new, hidStep collect b v st fields = some (st', fields ++ new) ∧
      hidStep onField b v st out = (new.foldlM onField out).map fun out => (st', out)) ∨
    hidStep collect b v st fields = none ∧ hidStep onField b v st out = none := by
  rw [hidStep, hidStep]
  by_cases htag : b &&& 0xfc = 0x80
  · rw [if_pos htag, if_pos htag, hidInput, hidInput]
    cases hselect : hidSelect st with
    | none => exact .inr ⟨rfl, rfl⟩
    | some sel =>
      simp only [Option.bind_eq_bind, Option.bind_some]
      by_cases hsize : sel.size = 0 ∨ sel.size > 32 ∨ sel.count > 64 ∨
          sel.size * sel.count > 512 - sel.bit
      · rw [if_pos hsize, if_pos hsize]
        exact .inr ⟨rfl, rfl⟩
      · rw [if_neg hsize, if_neg hsize]
        refine .inl ⟨{ sel with bit := sel.bit + sel.size * sel.count }, hidFields v sel, ?_, ?_⟩
        · rw [foldlM_collect]
          rfl
        · cases (hidFields v sel).foldlM onField out <;> rfl
  · rw [if_neg htag, if_neg htag]
    cases hidItem (b &&& 0xfc) (hidBytes b) v st with
    | none => exact .inr ⟨rfl, rfl⟩
    | some next => exact .inl ⟨next, [], by rw [List.append_nil]; rfl, rfl⟩

theorem hidLoop_fields (onField : σ → HidField → Option σ) (st : HidItems) (out : σ)
    (fields : List HidField) (desc : List UInt8) :
    (∃ st' new, hidLoop collect st fields desc = some (st', fields ++ new) ∧
      hidLoop onField st out desc = (new.foldlM onField out).map fun out => (st', out)) ∨
    hidLoop collect st fields desc = none ∧ hidLoop onField st out desc = none := by
  induction hn : desc.length using Nat.strongRecOn generalizing st out fields desc with
  | ind n ih =>
    cases desc with
    | nil =>
      rw [hidLoop, hidLoop]
      exact .inl ⟨st, [], by rw [List.append_nil], rfl⟩
    | cons b desc =>
      rw [hidLoop, hidLoop]
      by_cases hlong : b = 0xfe
      · rw [if_pos hlong, if_pos hlong]
        exact .inr ⟨rfl, rfl⟩
      rw [if_neg hlong, if_neg hlong]
      by_cases hshort : hidBytes b.toNat > desc.length
      · rw [if_pos hshort, if_pos hshort]
        exact .inr ⟨rfl, rfl⟩
      rw [if_neg hshort, if_neg hshort]
      rcases hidStep_fields onField b.toNat (hidValue (desc.take (hidBytes b.toNat))) st out fields
        with ⟨next, new, hcollect, hstep⟩ | ⟨hcollect, hstep⟩
      · have hlt : (desc.drop (hidBytes b.toNat)).length < n := by
          rw [List.length_drop, ← hn, List.length_cons]
          omega
        rw [hcollect, hstep]
        dsimp only
        cases hnew : new.foldlM onField out with
        | none =>
          -- the parser stops here, whatever the fields behind are
          rcases ih _ hlt (hidLocal b.toNat next) out (fields ++ new) _ rfl
            with ⟨st', rest, hrest, -⟩ | ⟨hrest, -⟩
          · refine .inl ⟨st', new ++ rest, by rw [hrest, List.append_assoc], ?_⟩
            rw [List.foldlM_append, hnew]
            rfl
          · exact .inr ⟨hrest, rfl⟩
        | some mid =>
          rcases ih _ hlt (hidLocal b.toNat next) mid (fields ++ new) _ rfl
            with ⟨st', rest, hrest, hloop⟩ | ⟨hrest, hloop⟩
          · refine .inl ⟨st', new ++ rest, by rw [hrest, List.append_assoc], ?_⟩
            rw [List.foldlM_append, hnew]
            exact hloop
          · exact .inr ⟨hrest, hloop⟩
      · rw [hcollect, hstep]
        exact .inr ⟨rfl, rfl⟩

/-- **The parser goes through the fields of the descriptor.** -/
theorem usbHidPointerParse_fields {h : HidPointer} (hparse : usbHidPointerParse desc = some h) :
    ∃ st fields out, hidReportFields {} desc = some (st, fields) ∧
      fields.foldlM hidField (hidZero, none) = some out ∧
      ¬(out.1.x.bits = 0 ∨ out.1.y.bits = 0 ∨ out.1.buttonsCount > 3) ∧
      h = { out.1 with
        absolute := decide (out.2 = some false), reportBits := st.bit,
        reportId := st.inputReportId } := by
  rw [usbHidPointerParse] at hparse
  rcases hidLoop_fields hidField {} (hidZero, none) [] desc
    with ⟨st, fields, hcollect, hloop⟩ | ⟨-, hloop⟩
  · rw [List.nil_append] at hcollect
    rw [hloop] at hparse
    cases hfold : fields.foldlM hidField (hidZero, none) with
    | none =>
      rw [hfold] at hparse
      cases hparse
    | some out =>
      rw [hfold, Option.map_some, Option.bind_eq_bind, Option.bind_some] at hparse
      dsimp only at hparse
      split at hparse
      · cases hparse
      · next hfull => exact ⟨st, fields, out, hcollect, hfold, hfull, (Option.some.inj hparse).symm⟩
  · rw [hloop] at hparse
    cases hparse

/-! ## Items one by one -/

/-- A short item: its first byte says how many bytes follow. -/
def IsItem (item : UInt8 × List UInt8) : Prop :=
  item.1 ≠ 0xfe ∧ item.2.length = hidBytes item.1.toNat

instance (item : UInt8 × List UInt8) : Decidable (IsItem item) :=
  inferInstanceAs (Decidable (_ ∧ _))

/-- The loop on items that are split already. -/
def hidItems (onField : σ → HidField → Option σ) (st : HidItems) (out : σ)
    (items : List (UInt8 × List UInt8)) : Option (HidItems × σ) :=
  items.foldlM (fun acc item =>
    (hidStep onField item.1.toNat (hidValue item.2) acc.1 acc.2).map fun next =>
      (hidLocal item.1.toNat next.1, next.2)) (st, out)

theorem hidLoop_items (onField : σ → HidField → Option σ) (st : HidItems) (out : σ)
    {items : List (UInt8 × List UInt8)} (hitems : ∀ item ∈ items, IsItem item) :
    hidLoop onField st out (items.flatMap fun item => item.1 :: item.2) =
      hidItems onField st out items := by
  induction items generalizing st out with
  | nil => rw [List.flatMap_nil, hidLoop]; rfl
  | cons item items ih =>
    obtain ⟨hlong, hlength⟩ := hitems item (List.mem_cons_self ..)
    have hrest : ∀ item' ∈ items, IsItem item' :=
      fun item' hitem' => hitems item' (List.mem_cons_of_mem item hitem')
    have hshort : ¬hidBytes item.1.toNat >
        (item.2 ++ items.flatMap fun item => item.1 :: item.2).length := by
      rw [← hlength, List.length_append]
      omega
    rw [List.flatMap_cons, List.cons_append, hidLoop, if_neg hlong, if_neg hshort, ← hlength,
      List.take_left, List.drop_left, hidItems, List.foldlM_cons]
    cases hidStep onField item.1.toNat (hidValue item.2) st out with
    | none => rfl
    | some next => exact ih _ _ hrest

/-! ## The places of the fields -/

/-- The limits of the state are numbers of 32 bits, and its report IDs are bytes. -/
structure Limits (st : HidItems) : Prop where
  min : -2 ^ 31 ≤ st.min
  max : st.max < 2 ^ 31
  current : st.currentReportId < 256
  input : st.inputReportId < 256

/-- Fields in order from one bit to another, of at most 32 bits each, with limits of 32 bits. -/
structure Placed (fields : List HidField) (start stop : ℕ) : Prop where
  le : start ≤ stop
  order : fields.Pairwise fun f g => f.off + f.size ≤ g.off
  within : ∀ f ∈ fields, start ≤ f.off ∧ f.off + f.size ≤ stop ∧ 0 < f.size ∧ f.size ≤ 32
  limits : ∀ f ∈ fields, -2 ^ 31 ≤ f.min ∧ f.max < 2 ^ 31

theorem placed_nil (k : ℕ) : Placed [] k k :=
  ⟨Nat.le_refl k, .nil, fun _ hf => absurd hf List.not_mem_nil,
    fun _ hf => absurd hf List.not_mem_nil⟩

theorem Placed.append {i j k : ℕ} (h : Placed fields i j) (h' : Placed fields' j k) :
    Placed (fields ++ fields') i k where
  le := h.le.trans h'.le
  order := List.pairwise_append.2 ⟨h.order, h'.order, fun f hf g hg =>
    (h.within f hf).2.1.trans (h'.within g hg).1⟩
  within := fun f hf => by
    rcases List.mem_append.1 hf with hf | hf
    · obtain ⟨hstart, hstop, hsize⟩ := h.within f hf
      exact ⟨hstart, hstop.trans h'.le, hsize⟩
    · obtain ⟨hstart, hstop, hsize⟩ := h'.within f hf
      exact ⟨h.le.trans hstart, hstop, hsize⟩
  limits := fun f hf => (List.mem_append.1 hf).elim (h.limits f) (h'.limits f)

theorem hidFields_placed (v : ℕ) (h0 : 0 < st.size) (h32 : st.size ≤ 32) (hlimits : Limits st) :
    Placed (hidFields v st) st.bit (st.bit + st.size * st.count) where
  le := Nat.le_add_right _ _
  order := by
    refine List.Pairwise.map _ (fun i j (hij : i < j) => ?_) List.pairwise_lt_range
    have hmul := Nat.mul_le_mul_right st.size (Nat.succ_le_of_lt hij)
    rw [Nat.succ_mul] at hmul
    dsimp only
    omega
  within := fun f hf => by
    obtain ⟨i, hi, rfl⟩ := List.mem_map.1 hf
    have hmul := Nat.mul_le_mul_right st.size (Nat.succ_le_of_lt (List.mem_range.1 hi))
    rw [Nat.succ_mul, Nat.mul_comm st.count] at hmul
    dsimp only
    omega
  limits := fun f hf => by
    obtain ⟨i, -, rfl⟩ := List.mem_map.1 hf
    exact ⟨hlimits.min, hlimits.max⟩

/-- The sign extension of at most four bytes. -/
theorem hidExtend_bounds {bytes : ℕ} (hbytes : bytes ≤ 4) (h0 : bytes ≠ 0) (v : ℕ) :
    -2 ^ 31 ≤ hidExtend bytes v ∧ hidExtend bytes v < 2 ^ 31 := by
  obtain rfl | rfl | rfl | rfl : bytes = 1 ∨ bytes = 2 ∨ bytes = 3 ∨ bytes = 4 := by omega
  all_goals
    rw [hidExtend]
    simp only [Nat.reduceMul, Nat.reduceSub, Nat.reducePow, Int.reducePow, Int.reduceNeg]
    omega

/-- A result that leaves the place of the next field and has limits of 32 bits. -/
def Keeps (st : HidItems) (r : Option HidItems) : Prop :=
  ∀ next, r = some next → next.bit = st.bit ∧ Limits next

theorem keeps_none : Keeps st none := fun _ h => nomatch h

theorem keeps_some {next : HidItems} (hbit : next.bit = st.bit) (hlimits : Limits next) :
    Keeps st (some next) := fun _ hnext => Option.some.inj hnext ▸ ⟨hbit, hlimits⟩

theorem Keeps.ite {P : Prop} [Decidable P] {r r' : Option HidItems} (h : Keeps st r)
    (h' : Keeps st r') : Keeps st (if P then r else r') := by
  split
  · exact h
  · exact h'

theorem hidSelect_keeps (h : Limits st) : Keeps st (hidSelect st) :=
  .ite (keeps_some rfl ⟨h.min, h.max, h.current, h.current⟩) (.ite keeps_none (keeps_some rfl h))

theorem limits_min {bytes : ℕ} (h : Limits st) (hbytes : bytes ≤ 4) (v : ℕ) :
    Limits { st with min := if bytes ≠ 0 then hidExtend bytes v else 0 } := by
  refine ⟨?_, h.max, h.current, h.input⟩
  dsimp only
  split
  · next h0 => exact (hidExtend_bounds hbytes h0 v).1
  · decide

theorem limits_max {bytes : ℕ} (h : Limits st) (hbytes : bytes ≤ 4) (v : ℕ) :
    Limits { st with
      max := if st.min < 0 ∧ bytes ≠ 0 then hidExtend bytes v else hidExtend 4 v } := by
  refine ⟨h.min, ?_, h.current, h.input⟩
  dsimp only
  split
  · next h0 => exact (hidExtend_bounds hbytes h0.2 v).2
  · exact (hidExtend_bounds (Nat.le_refl 4) (by decide) v).2

theorem hidItem_keeps {bytes : ℕ} (hbytes : bytes ≤ 4) (tag v : ℕ) (h : Limits st) :
    Keeps st (hidItem tag bytes v st) := by
  have hsame : ∀ next : HidItems, next.bit = st.bit → next.min = st.min → next.max = st.max →
      next.currentReportId = st.currentReportId → next.inputReportId = st.inputReportId →
      Keeps st (some next) := fun next hbit hmin hmax hcurrent hinput =>
    keeps_some hbit ⟨hmin ▸ h.min, hmax ▸ h.max, hcurrent ▸ h.current, hinput ▸ h.input⟩
  have hreport : Keeps st (if bytes ≠ 1 ∨ v = 0 ∨ v > 255 then none
      else some { st with currentReportId := v }) := by
    split
    · exact keeps_none
    · next hv => exact keeps_some rfl ⟨h.min, h.max, by dsimp only; omega, h.input⟩
  exact .ite hreport <| .ite keeps_none <| .ite (hsame _ rfl rfl rfl rfl rfl) <|
    .ite (keeps_some rfl (limits_min h hbytes v)) <|
    .ite (keeps_some rfl (limits_max h hbytes v)) <| .ite (hsame _ rfl rfl rfl rfl rfl) <|
    .ite (hsame _ rfl rfl rfl rfl rfl) <| .ite (.ite keeps_none (hsame _ rfl rfl rfl rfl rfl)) <|
    .ite (hsame _ rfl rfl rfl rfl rfl) <|
    .ite (hsame _ rfl rfl rfl rfl rfl) (hsame _ rfl rfl rfl rfl rfl)

theorem hidBytes_le (b : ℕ) : hidBytes b ≤ 4 := by
  have hle : b &&& 3 ≤ 3 := Nat.and_le_right
  rw [hidBytes]
  split <;> omega

theorem hidLocal_keeps (b : ℕ) (h : Limits st) : Keeps st (some (hidLocal b st)) := by
  rw [hidLocal]
  split
  · exact keeps_some rfl ⟨h.min, h.max, h.current, h.input⟩
  · exact keeps_some rfl h

/-- One step places its fields behind those before. -/
theorem hidStep_placed (h : hidStep collect b v st fields = some (st', fields'))
    (hbit : st.bit ≤ 512) (hlimits : Limits st) :
    ∃ new, fields' = fields ++ new ∧ Placed new st.bit st'.bit ∧ st'.bit ≤ 512 ∧ Limits st' := by
  rw [hidStep] at h
  split at h
  · rw [hidInput] at h
    cases hselect : hidSelect st with
    | none =>
      rw [hselect] at h
      cases h
    | some sel =>
      obtain ⟨hsel, hlimits'⟩ := hidSelect_keeps hlimits sel hselect
      rw [hselect, Option.bind_eq_bind, Option.bind_some] at h
      split at h
      · cases h
      · next hsize =>
        rw [foldlM_collect, Option.bind_eq_bind, Option.bind_some] at h
        obtain ⟨rfl, rfl⟩ := Prod.mk.inj (Option.some.inj h)
        refine ⟨hidFields v sel, rfl, ?_, ?_,
          ⟨hlimits'.min, hlimits'.max, hlimits'.current, hlimits'.input⟩⟩
        · rw [← hsel]
          exact hidFields_placed v (by omega) (by omega) hlimits'
        · dsimp only
          omega
  · cases hitem : hidItem (b &&& 0xfc) (hidBytes b) v st with
    | none =>
      rw [hitem] at h
      cases h
    | some next =>
      rw [hitem, Option.map_some] at h
      obtain ⟨rfl, rfl⟩ := Prod.mk.inj (Option.some.inj h)
      obtain ⟨hsame, hlimits'⟩ := hidItem_keeps (hidBytes_le b) _ v hlimits next hitem
      refine ⟨[], (List.append_nil _).symm, ?_, ?_, hlimits'⟩
      · rw [hsame]
        exact placed_nil st.bit
      · rw [hsame]
        exact hbit

theorem hidLoop_placed (h : hidLoop collect st fields desc = some (st', fields'))
    (hbit : st.bit ≤ 512) (hlimits : Limits st) :
    ∃ new, fields' = fields ++ new ∧ Placed new st.bit st'.bit ∧ st'.bit ≤ 512 ∧ Limits st' := by
  induction hn : desc.length using Nat.strongRecOn generalizing st fields desc with
  | ind n ih =>
    cases desc with
    | nil =>
      rw [hidLoop] at h
      obtain ⟨rfl, rfl⟩ := Prod.mk.inj (Option.some.inj h)
      exact ⟨[], (List.append_nil _).symm, placed_nil st.bit, hbit, hlimits⟩
    | cons b desc =>
      rw [hidLoop] at h
      split at h
      · cases h
      split at h
      · cases h
      cases hstep : hidStep collect b.toNat (hidValue (desc.take (hidBytes b.toNat))) st fields with
      | none =>
        rw [hstep] at h
        cases h
      | some r =>
        obtain ⟨next, mid⟩ := r
        rw [hstep] at h
        obtain ⟨new, rfl, hplaced, hbit', hlimits'⟩ := hidStep_placed hstep hbit hlimits
        have hlt : (desc.drop (hidBytes b.toNat)).length < n := by
          rw [List.length_drop, ← hn, List.length_cons]
          omega
        obtain ⟨hlocal, hlimits''⟩ := hidLocal_keeps b.toNat hlimits' _ rfl
        obtain ⟨rest, hfields, hrest, hstop⟩ :=
          ih _ hlt h (by rw [hlocal]; exact hbit') hlimits'' rfl
        rw [hlocal] at hrest
        exact ⟨new ++ rest, by rw [hfields, List.append_assoc], hplaced.append hrest, hstop⟩

/-- **The fields of a descriptor** are in order and within 512 bits. -/
theorem hidReportFields_placed (h : hidReportFields {} desc = some (st', fields)) :
    Placed fields 0 st'.bit ∧ st'.bit ≤ 512 ∧ Limits st' := by
  obtain ⟨new, hfields, hplaced, hstop⟩ :=
    hidLoop_placed h (Nat.zero_le 512) ⟨by decide, by decide, by decide, by decide⟩
  rw [List.nil_append] at hfields
  rw [hfields]
  exact ⟨hplaced, hstop⟩

/-! ## What the parser keeps -/

variable {h : HidPointer} {kept kept' : HidPointer × Option Bool} {usage usage' : ℕ} {f : HidField}

/-- A field that is no constant padding. -/
def IsData (f : HidField) : Prop := f.flags.testBit 0 = false

instance (f : HidField) : Decidable (IsData f) := inferInstanceAs (Decidable (_ = _))

/-- The buttons that count, in the order of the report. -/
def countedButtons (fields : List HidField) : List HidField :=
  fields.filter fun f => IsData f ∧ IsButton f

/-- The axis of a usage is that of its only field, or zero where there is none. -/
def AxisOf (fields : List HidField) (usage : ℕ) (a : HidAxis) : Prop :=
  (a = ⟨0, 0, 0, 0⟩ ∧ ∀ f ∈ fields, IsData f → f.usage ≠ usage) ∨
    ∃ f ∈ fields, IsData f ∧ f.usage = usage ∧ a = ⟨f.off, f.size, f.min, f.max⟩ ∧
      f.size ≤ 31 ∧ f.min < f.max ∧ ∀ g ∈ fields, IsData g → g.usage = usage → g = f

/-- What `hidField` has made of a list of fields. -/
structure Parsed (fields : List HidField) (kept : HidPointer × Option Bool) : Prop where
  axis : ∀ usage, IsAxis usage → AxisOf fields usage (kept.1.axis usage)
  count : kept.1.buttonsCount = (countedButtons fields).length
  off : kept.1.buttonsOff = ((countedButtons fields).head?.map HidField.off).getD 0

theorem axis_setAxis (h : HidPointer) (usage : ℕ) (a : HidAxis) :
    (h.setAxis usage a).axis usage = a := by
  rw [HidPointer.setAxis, HidPointer.axis]
  by_cases hx : usage = usageX
  · rw [if_pos hx, if_pos hx]
  · rw [if_neg hx, if_neg hx]
    by_cases hy : usage = usageY
    · rw [if_pos hy, if_pos hy]
    · rw [if_neg hy, if_neg hy]

theorem axis_setAxis_of_ne (h : HidPointer) (a : HidAxis) (hu : IsAxis usage)
    (hu' : IsAxis usage') (hne : usage' ≠ usage) :
    (h.setAxis usage a).axis usage' = h.axis usage' := by
  rcases hu with rfl | rfl | rfl <;> rcases hu' with rfl | rfl | rfl <;>
    first | exact absurd rfl hne | rfl

theorem setAxis_buttons (h : HidPointer) (usage : ℕ) (a : HidAxis) :
    (h.setAxis usage a).buttonsCount = h.buttonsCount ∧
      (h.setAxis usage a).buttonsOff = h.buttonsOff := by
  rw [HidPointer.setAxis]
  split
  · exact ⟨rfl, rfl⟩
  · split <;> exact ⟨rfl, rfl⟩

theorem IsButton.not_isAxis (h : IsButton f) : ¬IsAxis f.usage := by
  rintro (hu | hu | hu) <;>
  · have hpage := h.1
    rw [hu] at hpage
    exact absurd hpage (by decide)

theorem AxisOf.skip {a : HidAxis} (h : AxisOf fields usage a) (hf : IsData f → f.usage ≠ usage) :
    AxisOf (fields ++ [f]) usage a := by
  rcases h with ⟨ha, hnone⟩ | ⟨g, hg, hdata, hu, ha, hsize, hlimits, honly⟩
  · refine .inl ⟨ha, fun g hg hdata => ?_⟩
    rcases List.mem_append.1 hg with hg | hg
    · exact hnone g hg hdata
    · obtain rfl := List.mem_singleton.1 hg
      exact hf hdata
  · refine .inr ⟨g, List.mem_append_left _ hg, hdata, hu, ha, hsize, hlimits, fun g' hg' hd hu' => ?_⟩
    rcases List.mem_append.1 hg' with hg' | hg'
    · exact honly g' hg' hd hu'
    · obtain rfl := List.mem_singleton.1 hg'
      exact absurd hu' (hf hd)

theorem AxisOf.set {a : HidAxis} (h : AxisOf fields usage a) (hzero : a.bits = 0)
    (hpos : ∀ g ∈ fields, 0 < g.size) (hdata : IsData f) (hu : f.usage = usage)
    (hsize : f.size ≤ 31) (hlimits : f.min < f.max) :
    AxisOf (fields ++ [f]) usage ⟨f.off, f.size, f.min, f.max⟩ := by
  rcases h with ⟨-, hnone⟩ | ⟨g, hg, -, -, rfl, -⟩
  · refine .inr ⟨f, List.mem_append_right _ (List.mem_singleton_self f), hdata, hu, rfl, hsize,
      hlimits, fun g hg hd hug => ?_⟩
    rcases List.mem_append.1 hg with hg | hg
    · exact absurd hug (hnone g hg hd)
    · exact List.mem_singleton.1 hg
  · exact absurd hzero (Nat.ne_of_gt (hpos g hg))

theorem countedButtons_append (fields : List HidField) (f : HidField) :
    countedButtons (fields ++ [f]) =
      countedButtons fields ++ if IsData f ∧ IsButton f then [f] else [] := by
  rw [countedButtons, List.filter_append, countedButtons]
  by_cases hf : IsData f ∧ IsButton f
  · rw [if_pos hf, List.filter_singleton, decide_eq_true hf, cond_true]
  · rw [if_neg hf, List.filter_singleton, decide_eq_false hf, cond_false]

theorem Parsed.skip (h : Parsed fields kept) (haxis : IsData f → ¬IsAxis f.usage)
    (hbutton : ¬(IsData f ∧ IsButton f)) : Parsed (fields ++ [f]) kept := by
  have hcounted : countedButtons (fields ++ [f]) = countedButtons fields := by
    rw [countedButtons_append, if_neg hbutton, List.append_nil]
  refine ⟨fun usage hu => (h.axis usage hu).skip fun hdata hfu => ?_, ?_, ?_⟩
  · exact haxis hdata (hfu ▸ hu)
  · rw [hcounted]
    exact h.count
  · rw [hcounted]
    exact h.off

theorem Parsed.setAxis (h : Parsed fields kept) (hpos : ∀ g ∈ fields, 0 < g.size)
    (hdata : IsData f) (haxis : IsAxis f.usage) (hzero : (kept.1.axis f.usage).bits = 0)
    (hsize : f.size ≤ 31) (hlimits : f.min < f.max) (relative : Option Bool) :
    Parsed (fields ++ [f]) (kept.1.setAxis f.usage ⟨f.off, f.size, f.min, f.max⟩, relative) := by
  have hcounted : countedButtons (fields ++ [f]) = countedButtons fields := by
    rw [countedButtons_append, if_neg (fun hb => hb.2.not_isAxis haxis), List.append_nil]
  obtain ⟨hcount, hoff⟩ := setAxis_buttons kept.1 f.usage ⟨f.off, f.size, f.min, f.max⟩
  refine ⟨fun usage hu => ?_, ?_, ?_⟩
  · by_cases hfu : f.usage = usage
    · subst hfu
      dsimp only
      rw [axis_setAxis]
      exact (h.axis f.usage hu).set hzero hpos hdata rfl hsize hlimits
    · dsimp only
      rw [axis_setAxis_of_ne kept.1 _ haxis hu (Ne.symm hfu)]
      exact (h.axis usage hu).skip fun _ => hfu
  · rw [hcounted, ← h.count]
    exact hcount
  · rw [hcounted, ← h.off]
    exact hoff

theorem Parsed.button (h : Parsed fields kept) (hdata : IsData f) (hbutton : IsButton f) :
    Parsed (fields ++ [f]) ({ kept.1 with
      buttonsOff := if kept.1.buttonsCount = 0 then f.off else kept.1.buttonsOff
      buttonsCount := kept.1.buttonsCount + 1 }, kept.2) := by
  have hcounted : countedButtons (fields ++ [f]) = countedButtons fields ++ [f] := by
    rw [countedButtons_append, if_pos ⟨hdata, hbutton⟩]
  refine ⟨fun usage hu => ?_, ?_, ?_⟩
  · exact (h.axis usage hu).skip fun _ hfu => hbutton.not_isAxis (hfu ▸ hu)
  · rw [hcounted, List.length_append, List.length_singleton, ← h.count]
  · rw [hcounted, h.count, h.off]
    cases countedButtons fields with
    | nil => rfl
    | cons g rest => rfl

theorem hidField_parsed (h : Parsed fields kept) (hpos : ∀ g ∈ fields, 0 < g.size)
    (hfield : hidField kept f = some kept') : Parsed (fields ++ [f]) kept' := by
  rw [hidField] at hfield
  dsimp only at hfield
  by_cases hconst : f.flags.testBit 0 = true
  · rw [if_pos hconst] at hfield
    have hno : ¬IsData f := fun hdata => Bool.false_ne_true (hdata.symm.trans hconst)
    rw [← Option.some.inj hfield]
    exact h.skip (fun hdata => absurd hdata hno) fun hb => hno hb.1
  rw [if_neg hconst] at hfield
  have hdata : IsData f := Bool.eq_false_iff.2 hconst
  split at hfield
  · cases hfield
  by_cases haxis : IsAxis f.usage
  · rw [if_pos haxis] at hfield
    split at hfield
    · cases hfield
    next hlimits =>
    split at hfield
    · cases hfield
    next hzero =>
    have hset := h.setAxis hpos hdata haxis (not_not.1 hzero) (by omega) (by omega)
    split at hfield
    · split at hfield
      · cases hfield
      · rw [← Option.some.inj hfield]
        exact hset _
    · rw [← Option.some.inj hfield]
      exact hset _
  rw [if_neg haxis] at hfield
  by_cases hbutton : IsButton f
  · rw [if_pos hbutton] at hfield
    rw [← Option.some.inj hfield]
    exact h.button hdata hbutton
  · rw [if_neg hbutton] at hfield
    rw [← Option.some.inj hfield]
    exact h.skip (fun _ => haxis) fun hb => hbutton hb.2

/-- **What the parser has made of all fields.** -/
theorem foldlM_hidField_parsed (hpos : ∀ g ∈ fields, 0 < g.size)
    (hfold : fields.foldlM hidField (hidZero, none) = some kept) : Parsed fields kept := by
  induction fields using List.reverseRecOn generalizing kept with
  | nil =>
    rw [List.foldlM_nil] at hfold
    rw [← Option.some.inj hfold]
    refine ⟨fun usage hu => .inl ⟨?_, fun f hf => absurd hf List.not_mem_nil⟩, rfl, rfl⟩
    rcases hu with rfl | rfl | rfl <;> rfl
  | append_singleton fields f ih =>
    rw [List.foldlM_append] at hfold
    cases hmid : fields.foldlM hidField (hidZero, none) with
    | none =>
      rw [hmid] at hfold
      cases hfold
    | some mid =>
      rw [hmid, Option.bind_eq_bind, Option.bind_some, List.foldlM_cons, Option.bind_eq_bind]
        at hfold
      cases hnext : hidField mid f with
      | none =>
        rw [hnext] at hfold
        cases hfold
      | some next =>
        rw [hnext, Option.bind_some, List.foldlM_nil] at hfold
        have hpos' : ∀ g ∈ fields, 0 < g.size := fun g hg => hpos g (List.mem_append_left _ hg)
        have hparsed := hidField_parsed (ih hpos' hmid) hpos' hnext
        rwa [Option.some.inj hfold] at hparsed

end ZealBringup.Usb
