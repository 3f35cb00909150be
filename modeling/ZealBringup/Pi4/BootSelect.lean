import ZealBringup.Pi4.BootHid

/-!
# The selection of a keyboard or a mouse

The walk over a configuration that the validator has accepted, interface by interface.  An
interface is closed where the next one begins, and the last one at the end.

* `selectLoop_chain` — the loop is a run over the descriptors.
* `Selected.step` — one interface more.
* `bootHidCheck_decides` — the selection succeeds if and only if every boot interface of the
  protocol is as it should be and there is exactly one choice.
* `configuration_exact` — the validator and the selection together.
-/

namespace ZealBringup.Pi4

open Checked Records

variable {d r : List UInt8} {rs ms : List (List UInt8)} {gs u : List Group} {g : Group}
  {pos protocol minPacket : ℕ} {w w₀ : SelectWalk} {k : KeyboardInterface}

/-! ## The loop -/

/-- One descriptor. -/
def selectRecord (protocol minPacket : ℕ) (w : SelectWalk) (r : List UInt8) :
    Except Stop SelectWalk :=
  if isInterface r then w.close >>= selectInterface r protocol 0
  else selectMember r minPacket 0 (byte r 1) w

theorem selectLoop_record {fuel : ℕ} {s : List UInt8} (h : d.drop pos = r ++ s) (hr : Long r)
    (w : SelectWalk) : selectLoop d protocol minPacket (fuel + 1) pos w =
      selectRecord protocol minPacket w r >>=
        selectLoop d protocol minPacket fuel (pos + r.length) := by
  have hin := readsAs_drop h
  have htwo := hr.record.two_le
  have hlen := congrArg List.length h
  rw [List.length_drop, List.length_append] at hlen
  have hsize : readByte d pos = .ok r.length := by
    have hzero := hin 0 (by omega)
    rwa [Nat.add_zero, hr.record.length] at hzero
  rw [selectLoop, if_pos (by omega), if_pos (by omega), hin 1 (by omega), ok_bind, selectRecord]
  beta_reduce
  by_cases hi : isInterface r
  · have hopen : ∀ w, selectInterface d protocol pos w = selectInterface r protocol 0 w := by
      intro w
      rw [selectInterface_eq hin (hr.interface hi),
        selectInterface_eq (readsAs_self r) (hr.interface hi)]
    rw [if_pos (beq_iff_eq.mp hi), if_pos hi, bind_assoc]
    refine bind_congr fun w => ?_
    rw [if_neg (by omega), hopen, hsize]
    rfl
  · rw [if_neg fun heq => hi (beq_iff_eq.mpr heq), if_neg hi, selectMember_eq hin hr, hsize]
    rfl

/-- **On a chain the loop is a run over the descriptors, and the last interface is closed.** -/
theorem selectLoop_chain {fuel : ℕ} (h : IsChain (d.drop pos) rs) (hrs : ∀ r ∈ rs, Long r)
    (hpos : pos ≤ d.length) (hfuel : d.length - pos < fuel) (w : SelectWalk) :
    selectLoop d protocol minPacket fuel pos w =
      rs.foldlM (selectRecord protocol minPacket) w >>= SelectWalk.close := by
  induction rs generalizing pos fuel w with
  | nil =>
    obtain ⟨fuel, rfl⟩ := Nat.exists_eq_add_one_of_ne_zero (Nat.ne_zero_of_lt hfuel)
    have hend := List.drop_eq_nil_iff.mp h.flatten.symm
    rw [selectLoop, if_pos hpos, if_neg (Nat.not_lt.mpr hend), ok_bind]
    beta_reduce
    simp only [if_pos (Nat.le_antisymm hpos hend), if_true]
    exact bind_pure w.close
  | cons r rs ih =>
    obtain ⟨fuel, rfl⟩ := Nat.exists_eq_add_one_of_ne_zero (Nat.ne_zero_of_lt hfuel)
    have hr := hrs r List.mem_cons_self
    have hcut : d.drop pos = r ++ rs.flatten := by rw [← h.flatten, List.flatten_cons]
    have hrest : IsChain (d.drop (pos + r.length)) rs := by
      rw [← List.drop_drop, hcut, List.drop_left]
      exact ⟨rfl, fun x hx => h.record x (List.mem_cons_of_mem _ hx)⟩
    have hlen := congrArg List.length hcut
    rw [List.length_drop, List.length_append] at hlen
    have hpos := hr.record.pos
    rw [selectLoop_record hcut hr, List.foldlM_cons, bind_assoc]
    exact bind_congr fun w =>
      ih hrest (fun x hx => hrs x (List.mem_cons_of_mem _ hx)) (by omega) (by omega) w

/-- In a well-formed configuration the bytes that the selection reads are there. -/
theorem Configuration.long (h : Configuration d rs) : ∀ r ∈ rs, Long r := by
  intro r hr
  have hrecord := h.chain.record r hr
  rcases (@mem_cut _ isInterface _ _).mp hr with hlead | ⟨g, hg, rfl | hmem⟩
  · have hno := cut_lead r hlead
    refine ⟨hrecord, fun hi => ?_, fun he => absurd he (h.lead r hlead)⟩
    rw [hno] at hi
    exact absurd hi Bool.false_ne_true
  · have hi := cut_heading g hg
    refine ⟨hrecord, fun _ => (h.group g hg).size, fun he => ?_⟩
    rw [isInterface, beq_iff_eq] at hi
    rw [isEndpoint, hi] at he
    exact absurd he (by decide)
  · have hno := cut_members g hg r hmem
    refine ⟨hrecord, fun hi => ?_, fun he => ((h.group g hg).endpoint r hmem he).size⟩
    rw [hno] at hi
    exact absurd hi Bool.false_ne_true

/-! ## One interface -/

/-- Nothing is looked at when there is no candidate. -/
theorem foldlM_other (hms : ∀ r ∈ ms, ¬isInterface r) (hcand : ¬w.candidate) :
    ms.foldlM (selectRecord protocol minPacket) w = .ok w := by
  induction ms with
  | nil => rfl
  | cons r ms ih =>
    rw [List.foldlM_cons, selectRecord, if_neg (hms r List.mem_cons_self),
      selectMember_other hcand, ok_bind]
    exact ih fun x hx => hms x (List.mem_cons_of_mem _ hx)

/-- **The descriptors of a candidate.** -/
theorem candidate_decides (hg : GroupOk g) (hms : ∀ r ∈ g.2, ¬isInterface r)
    (hlong : ∀ r ∈ g.2, Long r) (hcand : isBoot protocol g.1) (w : SelectWalk) :
    Decides .reject (g.2.foldlM (selectRecord protocol minPacket) (w.opened protocol g.1))
      (CandidateOk minPacket g) (Selecting (w.opened protocol g.1) g.2) := by
  have hstep : ∀ r ∈ g.2, ∀ u w', Selecting (w.opened protocol g.1) u w' →
      Decides .reject (selectRecord protocol minPacket w' r) (SelectNeeds minPacket u r)
        (Selecting (w.opened protocol g.1) (u ++ [r])) := by
    intro r hr u w' hw'
    rw [selectRecord, if_neg (hms r hr)]
    exact hw'.step (hlong r hr) hcand
  exact (Decides.foldlM hstep (selecting_nil w g.1)).congr (candidateOk_iff hg)

/-- What is left to do after a candidate that is as it should be. -/
theorem Selecting.close_eq (h : Selecting (w₀.opened protocol g.1) g.2 w)
    (hcand : isBoot protocol g.1) : w.close =
      match choice g with
      | some k => if w₀.chosen.found ≠ 0 then .error .reject else .ok { w with chosen := k }
      | none => .ok w := by
  have hreport := h.report
  have hend := h.endpoint
  have hpos := h.positive
  have hint : ∀ e ∈ g.2.filter isInterruptIn, byte e 2 ≠ 0 := by
    intro e he hzero
    have hin := (List.mem_filter.mp he).2
    rw [isInterruptIn, isIn, hzero] at hin
    simp at hin
  rw [SelectWalk.close, h.candidate, h.chosen, h.number, choice]
  cases hr : reports g.2 with
  | nil =>
    rw [hr] at hreport
    rw [if_neg fun hyes => hyes.2.2 hreport]
  | cons n ns =>
    cases he : g.2.filter isInterruptIn with
    | nil =>
      rw [he] at hend
      rw [if_neg fun hyes => hyes.2.1 (Prod.ext_iff.mp hend).1]
    | cons e es =>
      rw [he] at hend hint
      rw [hr] at hreport hpos
      have hzero := hpos n List.mem_cons_self
      obtain ⟨haddr, hrest⟩ := Prod.ext_iff.mp hend
      obtain ⟨hpacket, hinterval⟩ := Prod.ext_iff.mp hrest
      dsimp only [endpointOf, List.headD_cons] at haddr hpacket hinterval hreport
      rw [haddr, hpacket, hinterval, hreport,
        if_pos ⟨hcand, hint e List.mem_cons_self, by omega⟩]
      rfl

/-! ## All interfaces -/

theorem choice_found (h : choice g = some k) : k.found = 1 := by
  unfold choice at h
  split at h
  · cases h
    rfl
  · cases h

theorem choices_found (hk : k ∈ choices protocol gs) : k.found = 1 := by
  obtain ⟨g, -, hg⟩ := List.mem_filterMap.mp hk
  exact choice_found hg

theorem found_iff : ((choices protocol gs).headD {}).found ≠ 0 ↔ choices protocol gs ≠ [] := by
  cases h : choices protocol gs with
  | nil => simp
  | cons k ks =>
    have hk := choices_found (h ▸ List.mem_cons_self : k ∈ choices protocol gs)
    simp [hk]

theorem choices_append (u v : List Group) :
    choices protocol (u ++ v) = choices protocol u ++ choices protocol v := by
  rw [choices, List.filter_append, List.filterMap_append]
  rfl

theorem choices_other (hcand : ¬isBoot protocol g.1) : choices protocol [g] = [] := by
  rw [choices, List.filter_cons, if_neg hcand]
  rfl

theorem choices_boot (hcand : isBoot protocol g.1) :
    choices protocol [g] = (choice g).toList := by
  rw [choices, List.filter_cons, if_pos hcand]
  cases h : choice g <;> simp [h]

/-- What is known between two interfaces: closing the last one leaves what there is to choose. -/
def Selected (protocol : ℕ) (u : List Group) (w : SelectWalk) : Prop :=
  Decides .reject w.close ((choices protocol u).length ≤ 1)
    fun w' => w'.chosen = (choices protocol u).headD {}

theorem selected_nil (protocol : ℕ) : Selected protocol [] {} := by
  refine Decides.congr (Decides.pure ?_) (iff_of_true trivial (Nat.zero_le _))
  rfl

theorem Selected.other (hchosen : w.chosen = (choices protocol u).headD {})
    (hone : (choices protocol u).length ≤ 1) (hclose : w.close = .ok w)
    (hnil : choices protocol [g] = []) : Selected protocol (u ++ [g]) w := by
  rw [Selected, choices_append, hnil, List.append_nil, hclose]
  refine Decides.congr (Decides.pure ?_) (iff_of_true trivial hone)
  exact hchosen

theorem Selected.offer (hchosen : w₀.chosen = (choices protocol u).headD {})
    (hclose : w.close = if w₀.chosen.found ≠ 0 then .error .reject else .ok { w with chosen := k })
    (hk : choices protocol [g] = [k]) : Selected protocol (u ++ [g]) w := by
  rw [Selected, choices_append, hk, hclose, hchosen]
  refine Decides.congr (Decides.guard fun hno => Decides.pure ?_) ?_
  · have hnil := not_not.mp (mt found_iff.mpr hno)
    rw [hnil]
    rfl
  · rw [and_true, found_iff, not_not, List.length_append, List.length_singleton,
      ← List.length_eq_zero_iff]
    omega

/-- **One interface more.** -/
theorem Selected.step (h : Selected protocol u w) (hg : GroupOk g) (hi : isInterface g.1)
    (hms : ∀ r ∈ g.2, ¬isInterface r) (hhead : Long g.1) (hlong : ∀ r ∈ g.2, Long r) :
    Decides .reject (selectRecord protocol minPacket w g.1 >>= fun w =>
        g.2.foldlM (selectRecord protocol minPacket) w)
      ((choices protocol u).length ≤ 1 ∧ (isBoot protocol g.1 → CandidateOk minPacket g))
      (Selected protocol (u ++ [g])) := by
  rw [selectRecord, if_pos hi, bind_assoc]
  refine Decides.bind h fun hone w₀ hchosen => ?_
  rw [selectInterface_eq (readsAs_self g.1) (hhead.interface hi), ok_bind]
  by_cases hcand : isBoot protocol g.1
  · refine ((candidate_decides hg hms hlong hcand w₀).imp fun _ w' hw' => ?_).congr
      ⟨fun hok _ => hok, fun hok => hok hcand⟩
    have hclose := hw'.close_eq hcand
    have hchoices := choices_boot hcand
    cases hoffer : choice g with
    | none =>
      rw [hoffer] at hclose hchoices
      refine Selected.other ?_ hone hclose hchoices
      rw [hw'.chosen]
      exact hchosen
    | some k =>
      rw [hoffer] at hclose hchoices
      exact Selected.offer hchosen hclose hchoices
  · have hoff : ¬(w₀.opened protocol g.1).candidate := hcand
    rw [foldlM_other hms hoff]
    refine (Decides.pure ?_).congr (iff_of_true trivial fun hyes => absurd hyes hcand)
    refine Selected.other hchosen hone ?_ (choices_other hcand)
    rw [SelectWalk.close, if_neg fun hyes => hoff hyes.1]

theorem selectable_iff :
    ((∀ u g v, gs = u ++ g :: v →
        (choices protocol u).length ≤ 1 ∧ (isBoot protocol g.1 → CandidateOk minPacket g)) ∧
      (choices protocol gs).length ≤ 1) ↔
    (∀ g ∈ gs, isBoot protocol g.1 → CandidateOk minPacket g) ∧
      (choices protocol gs).length ≤ 1 := by
  refine and_congr_left fun hone => ⟨fun h g hg => ?_, fun h u g v heq => ⟨?_, ?_⟩⟩
  · obtain ⟨u, v, heq⟩ := List.append_of_mem hg
    exact (h u g v heq).2
  · rw [heq, choices_append, List.length_append] at hone
    omega
  · refine h g ?_
    rw [heq]
    exact List.mem_append_right _ List.mem_cons_self

/-- **The run over the descriptors of a well-formed configuration.** -/
theorem selectRecords_decides (h : Configuration d rs) (protocol minPacket : ℕ) :
    Decides .reject (rs.foldlM (selectRecord protocol minPacket) {} >>= SelectWalk.close)
      ((∀ g ∈ groups rs, isBoot protocol g.1 → CandidateOk minPacket g) ∧
        (choices protocol (groups rs)).length ≤ 1)
      fun w => w.chosen = (choices protocol (groups rs)).headD {} := by
  have hno : ∀ r, isInterface r = false → ¬isInterface r := fun r hr hyes => by
    rw [hr] at hyes
    exact Bool.false_ne_true hyes
  have hstep : ∀ g ∈ groups rs, ∀ u w, Selected protocol u w →
      Decides .reject (selectRecord protocol minPacket w g.1 >>= fun w =>
          g.2.foldlM (selectRecord protocol minPacket) w)
        ((choices protocol u).length ≤ 1 ∧ (isBoot protocol g.1 → CandidateOk minPacket g))
        (Selected protocol (u ++ [g])) := by
    intro g hg u w hw
    have hmem : ∀ r, r = g.1 ∨ r ∈ g.2 → Long r := fun r hr =>
      h.long r (mem_cut.mpr (.inr ⟨g, hg, hr⟩))
    exact hw.step (h.group g hg) (cut_heading g hg) (fun r hr => hno r (cut_members g hg r hr))
      (hmem g.1 (.inl rfl)) fun r hr => hmem r (.inr hr)
  rw [foldlM_cut isInterface, foldlM_other (fun r hr => hno r (cut_lead r hr)) Bool.false_ne_true,
    ok_bind]
  refine ((Decides.foldlM hstep (selected_nil protocol)).bind fun _ w hw => hw).congr ?_
  simp only [List.nil_append]
  exact selectable_iff

/-! ## The selection -/

/-- **The selection succeeds exactly where the configuration is well formed, every boot interface
of the protocol is as it should be, and one of them is a choice.** -/
theorem bootHidCheck_decides (d : List UInt8) (protocol minPacket : ℕ) :
    Decides .reject (bootHidCheck d protocol minPacket)
      (((protocol = 1 ∨ protocol = 2) ∧ 3 ≤ minPacket ∧ minPacket ≤ 64) ∧ d.length ≤ 4096 ∧
        ∃ rs, Configuration d rs ∧
          (∀ g ∈ groups rs, isBoot protocol g.1 → CandidateOk minPacket g) ∧
          (choices protocol (groups rs)).length = 1)
      fun k => ∀ rs, Configuration d rs → choices protocol (groups rs) = [k] := by
  unfold bootHidCheck
  by_cases hrs : ∃ rs, Configuration d rs
  · obtain ⟨rs, hrs⟩ := hrs
    have hone : ∀ rs', Configuration d rs' → rs' = rs := fun rs' h => h.chain.unique hrs.chain
    have hsize := hrs.header.size
    refine Decides.congr (Decides.guard fun _ => Decides.bind (configurationCheck_decides d 4096)
      fun _ _ _ => Decides.bind (P := (∀ g ∈ groups rs, isBoot protocol g.1 →
          CandidateOk minPacket g) ∧ (choices protocol (groups rs)).length ≤ 1)
        (R := fun w => w.chosen = (choices protocol (groups rs)).headD {})
        (Q := choices protocol (groups rs) ≠ []) ?_ fun hsel w hw =>
      Decides.congr (Decides.guard fun hfound => Decides.pure ?_) ?_) ?_
    · rw [selectLoop_chain hrs.chain hrs.long hsize (by omega)]
      exact selectRecords_decides hrs protocol minPacket
    · intro rs' hrs'
      rw [hone rs' hrs', hw]
      rw [hw, ← ne_eq, found_iff] at hfound
      obtain ⟨k, ks, hk⟩ := List.exists_cons_of_ne_nil hfound
      have hlen := hsel.2
      rw [hk, List.length_cons] at hlen
      have hnil : ks = [] := List.length_eq_zero_iff.mp (by omega)
      rw [hk, hnil]
      rfl
    · rw [and_true, hw, ← ne_eq, found_iff]
    · have hlen : (choices protocol (groups rs)).length = 1 ↔
          (choices protocol (groups rs)).length ≤ 1 ∧ choices protocol (groups rs) ≠ [] := by
        rw [← List.length_pos_iff]
        omega
      constructor
      · rintro ⟨hargs, ⟨hmax, -⟩, ⟨hok, hle⟩, hne⟩
        exact ⟨by omega, hmax, rs, hrs, hok, hlen.mpr ⟨hle, hne⟩⟩
      · rintro ⟨hargs, hmax, rs', hrs', hok, hchoice⟩
        rw [hone rs' hrs'] at hok hchoice
        obtain ⟨hle, hne⟩ := hlen.mp hchoice
        exact ⟨by omega, ⟨hmax, rs, hrs⟩, ⟨hok, hle⟩, hne⟩
  · refine Decides.congr (Decides.guard fun _ => Decides.bind (Q := True)
      (configurationCheck_decides d 4096) fun hyes => absurd hyes.2 hrs) ?_
    refine iff_of_false (fun h => hrs h.2.1.2) ?_
    rintro ⟨-, -, rs, h, -⟩
    exact hrs ⟨rs, h⟩

/-! ## What the two functions return -/

theorem answer_iff {α : Type} {x : Except Stop α} {P : Prop} {R : α → Prop}
    (h : Decides .reject x P R) : ∃ o, answer x = .ok o ∧ (o.isSome ↔ P) ∧ ∀ a ∈ o, R a := by
  rcases h with ⟨hP, a, rfl, ha⟩ | ⟨hP, rfl⟩
  · refine ⟨some a, rfl, iff_of_true rfl hP, fun b hb => ?_⟩
    rwa [← Option.mem_some_iff.mp hb]
  · exact ⟨none, rfl, iff_of_false Bool.false_ne_true hP, fun b hb => by cases hb⟩

/-- **Both functions end without a read outside of the string.**  The validator accepts the
well-formed configurations that are not too long, with the summary of what they say.  The selection
finds what the only choice offers, where every boot interface of the protocol is as it should
be. -/
theorem configuration_exact (d : List UInt8) (maxLength protocol minPacket : ℕ) :
    (∃ o, configurationDescriptorOk d maxLength = .ok o ∧ ∀ s, o = some s ↔
      d.length ≤ maxLength ∧ ∃ rs, Configuration d rs ∧ s = summaryOf d rs) ∧
    ∃ o, bootHidSelect d protocol minPacket = .ok o ∧ ∀ k, o = some k ↔
      ((protocol = 1 ∨ protocol = 2) ∧ 3 ≤ minPacket ∧ minPacket ≤ 64) ∧ d.length ≤ 4096 ∧
        ∃ rs, Configuration d rs ∧
          (∀ g ∈ groups rs, isBoot protocol g.1 → CandidateOk minPacket g) ∧
          choices protocol (groups rs) = [k] := by
  obtain ⟨o, ho, hsome, hval⟩ := answer_iff (configurationCheck_decides d maxLength)
  obtain ⟨o', ho', hsome', hval'⟩ := answer_iff (bootHidCheck_decides d protocol minPacket)
  refine ⟨⟨o, ho, fun s => ⟨?_, ?_⟩⟩, ⟨o', ho', fun k => ⟨?_, ?_⟩⟩⟩
  · rintro rfl
    obtain ⟨hmax, rs, hrs⟩ := hsome.mp rfl
    exact ⟨hmax, rs, hrs, hval s rfl rs hrs⟩
  · rintro ⟨hmax, rs, hrs, rfl⟩
    obtain ⟨s, rfl⟩ := Option.isSome_iff_exists.mp (hsome.mpr ⟨hmax, rs, hrs⟩)
    rw [hval s rfl rs hrs]
  · rintro rfl
    obtain ⟨hargs, hmax, rs, hrs, hok, -⟩ := hsome'.mp rfl
    exact ⟨hargs, hmax, rs, hrs, hok, hval' k rfl rs hrs⟩
  · rintro ⟨hargs, hmax, rs, hrs, hok, hk⟩
    have hone : (choices protocol (groups rs)).length = 1 := by
      rw [hk]
      rfl
    obtain ⟨k', rfl⟩ := Option.isSome_iff_exists.mp (hsome'.mpr ⟨hargs, hmax, rs, hrs, hok, hone⟩)
    have hk' := hval' k' rfl rs hrs
    rw [hk] at hk'
    rw [List.singleton_inj.mp hk']

/-! ## A boot interface that refuses the others -/

/-- A report descriptor and a single interrupt endpoint to the host, one that can be used. -/
def qualifies (minPacket : ℕ) (g : Group) : Bool :=
  reports g.2 != [] &&
    match g.2.filter isInterruptIn with
    | [e] => decide (minPacket ≤ word e 4) && decide (word e 4 ≤ 64) && byte e 6 != 0
    | _ => false

/-- A configuration of two keyboards.  The packets of the second one are too short. -/
def twoKeyboards : List (List UInt8) :=
  [[9, 4, 0, 0, 1, 3, 1, 1, 0], [9, 0x21, 0x11, 1, 0, 1, 0x22, 63, 0], [7, 5, 0x81, 3, 8, 0, 10],
    [9, 4, 1, 0, 1, 3, 1, 1, 0], [9, 0x21, 0x11, 1, 0, 1, 0x22, 63, 0], [7, 5, 0x82, 3, 4, 0, 10]]

def twoKeyboardsBytes : List UInt8 := [9, 2, 59, 0, 2, 1, 0, 0xa0, 50] ++ twoKeyboards.flatten

theorem twoKeyboards_configuration : Configuration twoKeyboardsBytes twoKeyboards where
  header := ⟨by decide, by decide, by decide, by decide, by decide, by decide, by decide⟩
  chain := ⟨by decide, fun r hr => by
    have h : ∀ r ∈ twoKeyboards, 2 ≤ r.length ∧ byte r 0 = r.length := by decide
    exact ⟨(h r hr).1, (h r hr).2⟩⟩
  lead := by decide
  group g hg := by
    have h : ∀ g ∈ groups twoKeyboards, 9 ≤ g.1.length ∧ g.endpoints.length = byte g.1 4 ∧
        g.bot = false ∧ ∀ e ∈ g.2, isEndpoint e → 7 ≤ e.length ∧ byte e 2 &&& 0x0f ≠ 0 ∧
          byte e 2 &&& 0x70 = 0 := by decide
    obtain ⟨hsize, hcount, hbot, hend⟩ := h g hg
    have hno : ¬g.bot := by simp [hbot]
    exact ⟨hsize, hcount, fun e he hi => ⟨(hend e he hi).1, (hend e he hi).2.1, (hend e he hi).2.2,
      fun hb => absurd hb hno⟩, fun hb => absurd hb hno, fun hb => absurd hb hno,
      fun hb => absurd hb hno⟩
  numbers := by decide
  bot := by decide

/-- One keyboard that qualifies is not enough: the other one refuses the configuration. -/
theorem selection_not_exact : ¬∀ d rs protocol minPacket, Configuration d rs → d.length ≤ 4096 →
    (protocol = 1 ∨ protocol = 2) → 3 ≤ minPacket → minPacket ≤ 64 →
    ((∃ k, bootHidSelect d protocol minPacket = .ok (some k)) ↔
      ((groups rs).filter fun g => isBoot protocol g.1 && qualifies minPacket g).length = 1) := by
  intro h
  have hone := h _ _ 1 8 twoKeyboards_configuration (by decide) (.inl rfl) (by decide) (by decide)
  obtain ⟨k, hk⟩ := hone.mpr (by decide)
  rw [show bootHidSelect twoKeyboardsBytes 1 8 = .ok none by decide] at hk
  cases hk

end ZealBringup.Pi4
