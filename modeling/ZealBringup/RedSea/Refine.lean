import ZealBringup.RedSea.Remove

/-!
# The RedSea root as a finite map

On a device without errors a freshly formatted volume is a map from names, up to
their case, to bytes.  The one call that breaks this is a put under the empty name: it
allocates clusters and fills a slot that nothing can find again.

* `rsFmtHost_volume` — what formatting leaves.
* `Catalog.step` — one call.
* `redsea_refines` — every run.
-/

set_option maxRecDepth 10000

namespace ZealBringup.RedSea

open Store CrashDisk Extents

/-! ## Formatting -/

variable {dev dev' : Dev}

theorem blkwrite_ok {blk : ℕ} {s : Sector} (hblk : blk < 2 ^ 32)
    (h : dev.blkwrite blk s = (true, dev')) :
    blk < dev.capacity ∧ dev'.disk = Function.update dev.disk blk s ∧
      dev'.capacity = dev.capacity ∧ dev'.fails = dev.fails := by
  unfold Dev.blkwrite at h
  split at h
  · cases h
  · rename_i hcap
    rw [Nat.mod_eq_of_lt (by omega)] at hcap
    split at h
    · cases h
    · obtain ⟨-, rfl⟩ := Prod.mk.inj h
      exact ⟨by omega, rfl, rfl, rfl⟩

theorem rsClear_ok {i n : ℕ} (hlt : i + n < 2 ^ 32) (h : rsClear dev i n = (true, dev')) :
    (∀ a, a < i ∨ i + n ≤ a → dev'.disk a = dev.disk a) ∧ (0 < n → i + n ≤ dev.capacity) ∧
      dev'.capacity = dev.capacity ∧ dev'.fails = dev.fails := by
  induction n generalizing dev i with
  | zero =>
    obtain ⟨-, rfl⟩ := Prod.mk.inj h
    exact ⟨fun _ _ => rfl, fun h0 => absurd h0 (lt_irrefl 0), rfl, rfl⟩
  | succ n ih =>
    rw [rsClear] at h
    cases hw : dev.blkwrite i zeroSector with
    | mk ok dev₁ =>
      rw [hw] at h
      cases ok with
      | false => cases (Prod.mk.inj h).1
      | true =>
        obtain ⟨hi, hdisk, hcap, hfails⟩ := blkwrite_ok (by omega) hw
        obtain ⟨hoff, hfit, hcap', hfails'⟩ := ih (by omega) h
        refine ⟨fun a ha => ?_, fun _ => ?_, hcap'.trans hcap, hfails'.trans hfails⟩
        · rw [hoff a (by omega), hdisk, Function.update_of_ne (by omega)]
        · cases n with
          | zero => omega
          | succ n =>
            have := hfit (Nat.succ_pos n)
            omega

variable {sects uid : ℕ}

theorem rsFmtHost_ok (h : rsFmtHost sects uid dev = (0, dev')) :
    4 ≤ sects ∧ sects ≤ 128 ∧ sects ≤ dev'.capacity ∧ dev'.disk 0 = bootBlock sects uid ∧
      dev'.disk 1 = copyBytes zeroSector 0 [0x07] ∧ dev'.disk 2 = zeroSector ∧
      dev'.capacity = dev.capacity ∧ dev'.fails = dev.fails := by
  have hcode : ∀ {e : ℤ} {x : Dev}, e ≠ 0 → (e, x) ≠ (0, dev') := fun he hx =>
    he (Prod.mk.inj hx).1
  unfold rsFmtHost at h
  split at h
  · exact absurd h (hcode (by norm_num))
  rename_i hsize
  rw [not_or, not_lt, not_lt] at hsize
  cases h0 : dev.blkwrite 0 (bootBlock sects uid) with
  | mk ok₀ dev₀ =>
    rw [h0] at h
    cases ok₀ with
    | false => exact absurd h (hcode (by norm_num))
    | true =>
      dsimp only at h
      cases h1 : dev₀.blkwrite 1 (copyBytes zeroSector 0 [0x07]) with
      | mk ok₁ dev₁ =>
        rw [h1] at h
        cases ok₁ with
        | false => exact absurd h (hcode (by norm_num))
        | true =>
          dsimp only at h
          cases h2 : dev₁.blkwrite 2 zeroSector with
          | mk ok₂ dev₂ =>
            rw [h2] at h
            cases ok₂ with
            | false => exact absurd h (hcode (by norm_num))
            | true =>
              dsimp only at h
              cases h3 : rsClear dev₂ 3 (sects - 3) with
              | mk ok₃ dev₃ =>
                rw [h3] at h
                cases ok₃ with
                | false => exact absurd h (hcode (by norm_num))
                | true =>
                  obtain ⟨-, rfl⟩ := Prod.mk.inj h
                  obtain ⟨-, hd0, hc0, hf0⟩ := blkwrite_ok (by norm_num) h0
                  obtain ⟨-, hd1, hc1, hf1⟩ := blkwrite_ok (by norm_num) h1
                  obtain ⟨-, hd2, hc2, hf2⟩ := blkwrite_ok (by norm_num) h2
                  obtain ⟨hoff, hfit, hc3, hf3⟩ := rsClear_ok (by omega) h3
                  refine ⟨hsize.1, hsize.2, ?_, ?_, ?_, ?_, by rw [hc3, hc2, hc1, hc0],
                    by rw [hf3, hf2, hf1, hf0]⟩
                  · have := hfit (by omega)
                    rw [hc3]
                    omega
                  · rw [hoff 0 (by omega), hd2, Function.update_of_ne (by norm_num), hd1,
                      Function.update_of_ne (by norm_num), hd0, Function.update_self]
                  · rw [hoff 1 (by omega), hd2, Function.update_of_ne (by norm_num), hd1,
                      Function.update_self]
                  · rw [hoff 2 (by omega), hd2, Function.update_self]

theorem bootRoot_bootBlock (h4 : 4 ≤ sects) (h128 : sects ≤ 128) :
    bootRoot (bootBlock sects uid) = .ok (2, sects) := by
  have hget : ∀ k < 512, k ≠ 510 → k ≠ 511 → (bootBlock sects uid).get k =
      (setWord64 (setWord64 (setWord64 (setWord64 (setWord64 (copyBytes zeroSector 3 [0x88])
        8 0) 16 sects) 24 2) 32 1) 40 uid).get k := by
    intro k hk h510 h511
    rw [bootBlock, get_copyBytes _ _ _ hk, if_neg]
    rw [List.length_cons, List.length_singleton]
    omega
  have h3 : (bootBlock sects uid).get 3 = 0x88 := by
    rw [hget 3 (by norm_num) (by norm_num) (by norm_num), get_setWord64_ne _ (by norm_num) (by omega),
      get_setWord64_ne _ (by norm_num) (by omega), get_setWord64_ne _ (by norm_num) (by omega),
      get_setWord64_ne _ (by norm_num) (by omega), get_setWord64_ne _ (by norm_num) (by omega),
      get_copyBytes _ _ _ (by norm_num)]
    rfl
  have h510 : (bootBlock sects uid).get 510 = 0x55 := by
    rw [bootBlock, get_copyBytes _ _ _ (by norm_num)]
    rfl
  have h511 : (bootBlock sects uid).get 511 = 0xAA := by
    rw [bootBlock, get_copyBytes _ _ _ (by norm_num)]
    rfl
  have h16 : word64 (bootBlock sects uid) 16 = sects := by
    refine (word64_congr fun k hk => ?_).trans (word64_setWord64
      (setWord64 (copyBytes zeroSector 3 [0x88]) 8 0) (by norm_num) (by omega))
    rw [hget _ (by omega) (by omega) (by omega), get_setWord64_ne _ (by omega) (by omega),
      get_setWord64_ne _ (by omega) (by omega), get_setWord64_ne _ (by omega) (by omega)]
  have h24 : word64 (bootBlock sects uid) 24 = 2 := by
    refine (word64_congr fun k hk => ?_).trans (word64_setWord64
      (setWord64 (setWord64 (copyBytes zeroSector 3 [0x88]) 8 0) 16 sects)
      (by norm_num) (by norm_num))
    rw [hget _ (by omega) (by omega) (by omega), get_setWord64_ne _ (by omega) (by omega),
      get_setWord64_ne _ (by omega) (by omega)]
  rw [bootRoot, h3, h510, h511, h16, h24, if_neg (by simp), if_neg (by norm_num),
    if_pos ⟨by omega, h128⟩]

theorem mem_marks_fresh (c : ℕ) : c ∈ marks (copyBytes zeroSector 0 [0x07]) ↔ c < 3 := by
  rw [marks, Set.mem_ofPred_eq, mapBit_eq]
  by_cases hc : c / 8 = 0
  · have hlt : c < 8 := by omega
    rw [hc, get_copyBytes _ _ _ (by norm_num)]
    interval_cases c <;> decide
  · have hzero : (copyBytes zeroSector 0 [0x07]).get (c / 8) = 0 := by
      by_cases h512 : c / 8 < 512
      · rw [get_copyBytes _ _ _ h512, if_neg (by rw [List.length_singleton]; omega),
          get_zeroSector]
      · rw [Sector.get, dif_neg h512]
    rw [hzero]
    simp only [UInt8.toNat_zero, Nat.zero_testBit]
    constructor
    · intro h
      cases h
    · intro h
      omega

theorem slotLive_zeroSector (i : Fin 8) : slotLive zeroSector i = false := by
  rw [slotLive, get_zeroSector]
  rfl

/-! ## The invariant -/

/-- A map from lower-case names to the bytes of a file. -/
abbrev FileMap := List UInt8 → Option (List UInt8)

/-- The files are those of the map. -/
def Holds (files : Fin 8 → Option (List UInt8 × List UInt8)) (M : FileMap) : Prop :=
  ∀ key bytes, M key = some bytes ↔ ∃ i, files i = some (key, bytes)

/-- A volume that holds the map, with nothing marked in vain. -/
structure Catalog (sects : ℕ) (dev : Dev) (M : FileMap) : Prop where
  volume : Volume dev.capacity dev.disk 2 sects
  exact : Exact (reserved 2) (catalogOf (dev.disk 2)) (marks (dev.disk 1))
  filled : ∀ i, slotLive (dev.disk 2) i = true → slotLen (dev.disk 2) i ≠ 0
  holds : Holds (fileOf dev.disk 2) M
  noErrors : ∀ n, dev.fails n = false

/-- **A formatted volume.** -/
theorem rsFmtHost_catalog (hok : ∀ n, dev.fails n = false)
    (h : rsFmtHost sects uid dev = (0, dev')) : Catalog sects dev' fun _ => none := by
  obtain ⟨h4, h128, hcap, h0, h1, h2, -, hfails⟩ := rsFmtHost_ok h
  have hdead : ∀ i, slotLive (dev'.disk 2) i = true → False := by
    intro i hi
    rw [h2, slotLive_zeroSector] at hi
    cases hi
  have hcat : ∀ {i e}, catalogOf (dev'.disk 2) i = some e → False := fun he =>
    hdead _ (catalogOf_some he).1
  have hmarks : ∀ c, c ∈ marks (dev'.disk 1) ↔ c < 3 := by
    rw [h1]
    exact mem_marks_fresh
  refine ⟨⟨by rw [h0]; exact bootRoot_bootBlock h4 h128, ⟨h4, h128⟩, ⟨hcap, by omega⟩,
    ⟨by norm_num, by norm_num⟩, fun i hi => (hdead i hi).elim, fun i hi => (hdead i hi).elim,
    fun i hi => (hdead i hi).elim, ?_⟩, ?_, fun i hi => (hdead i hi).elim, ?_, by rw [hfails]; exact hok⟩
  · refine ⟨fun he => (hcat he).elim, fun _ he => (hcat he).elim, fun he => (hcat he).elim, ?_,
      fun he => (hcat he).elim⟩
    intro c hc
    rw [hmarks]
    rcases hc with rfl | rfl | rfl <;> norm_num
  · intro c hc
    rw [hmarks] at hc
    refine Or.inl ?_
    interval_cases c <;> simp [reserved]
  · intro key bytes
    refine iff_of_false (by simp) ?_
    rintro ⟨i, hi⟩
    rw [fileOf, if_neg fun hl => hdead i hl] at hi
    cases hi

/-! ## Maps and slots -/

section Slots

variable {files files' : Fin 8 → Option (List UInt8 × List UInt8)} {M : FileMap} {i : Fin 8}
  {key bytes : List UInt8}

theorem Holds.put (h : Holds files M) (hother : ∀ j, j ≠ i → files' j = files j)
    (hnew : files' i = some (key, bytes)) (hold : ∀ f, files i = some f → f.1 = key)
    (hkeys : ∀ j f, j ≠ i → files j = some f → f.1 ≠ key) :
    Holds files' (Function.update M key (some bytes)) := by
  intro k b
  by_cases hk : k = key
  · subst hk
    rw [Function.update_self]
    constructor
    · intro hb
      exact ⟨i, by rw [hnew, Option.some.inj hb]⟩
    · rintro ⟨j, hj⟩
      by_cases hji : j = i
      · subst hji
        rw [hnew] at hj
        rw [(Prod.mk.inj (Option.some.inj hj)).2]
      · rw [hother j hji] at hj
        exact absurd rfl (hkeys j _ hji hj)
  · rw [Function.update_of_ne hk, h k b]
    constructor
    · rintro ⟨j, hj⟩
      have hji : j ≠ i := by
        rintro rfl
        exact hk (hold _ hj)
      exact ⟨j, by rw [hother j hji, hj]⟩
    · rintro ⟨j, hj⟩
      by_cases hji : j = i
      · subst hji
        rw [hnew] at hj
        exact absurd (Prod.mk.inj (Option.some.inj hj)).1.symm hk
      · exact ⟨j, by rw [← hother j hji, hj]⟩

theorem Holds.erase (h : Holds files M) (hother : ∀ j, j ≠ i → files' j = files j)
    (hnew : files' i = none) (hold : ∀ f, files i = some f → f.1 = key)
    (hkeys : ∀ j f, j ≠ i → files j = some f → f.1 ≠ key) :
    Holds files' (Function.update M key none) := by
  intro k b
  by_cases hk : k = key
  · subst hk
    rw [Function.update_self]
    refine iff_of_false (by simp) ?_
    rintro ⟨j, hj⟩
    by_cases hji : j = i
    · subst hji
      rw [hnew] at hj
      cases hj
    · rw [hother j hji] at hj
      exact hkeys j _ hji hj rfl
  · rw [Function.update_of_ne hk, h k b]
    constructor
    · rintro ⟨j, hj⟩
      have hji : j ≠ i := by
        rintro rfl
        exact hk (hold _ hj)
      exact ⟨j, by rw [hother j hji, hj]⟩
    · rintro ⟨j, hj⟩
      by_cases hji : j = i
      · subst hji
        rw [hnew] at hj
        cases hj
      · exact ⟨j, by rw [← hother j hji, hj]⟩

end Slots

/-- No other slot has the name of a slot. -/
theorem Volume.keys {capacity : ℕ} {d : Disk Sector} {root : ℕ} (h : Volume capacity d root sects)
    {i : Fin 8} {name : List UInt8} (hfind : rsFindSlot (d root) name = some i) {j : Fin 8}
    {f : List UInt8 × List UInt8} (hj : j ≠ i) (hf : fileOf d root j = some f) :
    f.1 ≠ foldName name := by
  intro hkey
  obtain ⟨hlive, hname⟩ := rsFindSlot_some hfind
  unfold fileOf at hf
  split at hf
  · rename_i hlivej
    rw [← Option.some.inj hf] at hkey
    exact hj (h.safe.keys (catalogOf_live hlivej) (catalogOf_live hlive) (hkey.trans hname.symm))
  · cases hf

/-- No slot has a name that is not found. -/
theorem fileOf_ne_of_none {d : Disk Sector} {root : ℕ} {name : List UInt8}
    (hfind : rsFindSlot (d root) name = none) {j : Fin 8} {f : List UInt8 × List UInt8}
    (hf : fileOf d root j = some f) : f.1 ≠ foldName name := by
  unfold fileOf at hf
  split at hf
  · rename_i hlive
    rw [← Option.some.inj hf]
    exact rsFindSlot_none_iff.1 hfind j hlive
  · cases hf

/-! ## One call -/

/-- What a successful call makes of the map. -/
def Op.apply : Op → FileMap → FileMap
  | put name src, M => Function.update M (foldName name.bytes) (some src)
  | del name, M => Function.update M (foldName name.bytes) none
  | rename oldn newn, M =>
      Function.update (Function.update M (foldName oldn.bytes) none) (foldName newn.bytes)
        (M (foldName oldn.bytes))
  | load _ _, M => M

/-- A put under the empty name is refused: its length is wrong, or the directory or the
volume is full. -/
def Op.Named (dev : Dev) (sects : ℕ) : Op → Prop
  | put name src => name.bytes = [] → src.length = 0 ∨ 65536 < src.length ∨
      rsFreeSlot (dev.disk 2) = none ∨
      rsFindRun (dev.disk 1) ((src.length + 511) / 512) sects = none
  | _ => True

section Step

variable {sects : ℕ} {dev : Dev} {M : FileMap}

theorem FirstFail.absurd (h : ∀ n, dev.fails n = false) {k : ℕ} : ¬FirstFail dev k := by
  rintro ⟨-, hk⟩
  rw [h] at hk
  cases hk

theorem Catalog.congr (h : Catalog sects dev M) {dev' : Dev} (hdisk : dev'.disk = dev.disk)
    (hcap : dev'.capacity = dev.capacity) (hfails : dev'.fails = dev.fails) :
    Catalog sects dev' M := by
  refine ⟨?_, ?_, ?_, ?_, ?_⟩
  · rw [hdisk, hcap]
    exact h.volume
  · rw [hdisk]
    exact h.exact
  · rw [hdisk]
    exact h.filled
  · rw [hdisk]
    exact h.holds
  · rw [hfails]
    exact h.noErrors

variable {name : CStr} {src : List UInt8} {p : PutPlan}

/-- A put that goes ahead has a name, if a put without one is refused. -/
theorem PutPlan.Ok.named (hp : p.Ok name src dev.disk 2 sects)
    (hnamed : (Op.put name src).Named dev sects) :
    name.bytes ≠ [] := by
  intro hnil
  have hex : p.existing = false := by
    cases hex : p.existing with
    | false => rfl
    | true =>
      obtain ⟨hlive, hkey⟩ := rsFindSlot_some (hp.old hex).1
      have hzero := length_eq_of_fold hkey
      rw [hnil, List.length_nil, List.length_eq_zero_iff] at hzero
      exact absurd hzero (slotName_ne_nil hlive)
  have hnew : p.newRun = true := by
    cases hnew : p.newRun with
    | true => rfl
    | false =>
      rw [(hp.inPlace hnew).1] at hex
      cases hex
  rcases hnamed hnil with h | h | h | h
  · exact absurd hp.sized.1 (by omega)
  · exact absurd hp.sized.2 (by omega)
  · have hall := List.find?_eq_none.1 h p.slot (List.mem_finRange _)
    rw [(hp.fresh hex).2] at hall
    exact hall rfl
  · rw [← hp.nclus, (hp.run hnew).1] at h
    cases h

theorem PutPlan.Ok.filled {d : Disk Sector} {capacity root : ℕ} (hp : p.Ok name src d root sects)
    (hvol : Volume capacity d root sects) (hfit : p.fblk + p.nclus ≤ sects)
    (hfilled : ∀ i, slotLive (d root) i = true → slotLen (d root) i ≠ 0) (i : Fin 8)
    (hlive : slotLive (p.newDir name src.length) i = true) :
    slotLen (p.newDir name src.length) i ≠ 0 := by
  by_cases hi : i = p.slot
  · subst hi
    rw [(hp.newDir_slot hvol.books hfit).2.1]
    have := hp.sized.1
    omega
  · rw [(hp.newDir_same hi).len]
    rw [(hp.newDir_same hi).live] at hlive
    exact hfilled i hlive

theorem rsPutPlan_error {e : ℤ} (h : rsPutPlan name src dev = .error e) : e ≠ 0 := by
  have hrun : ∀ {r map slot existing nclus oldBlk oldNclus},
      rsPutRun r map slot existing nclus oldBlk oldNclus = .error e → e ≠ 0 := by
    intro r map slot existing nclus oldBlk oldNclus hr
    unfold rsPutRun at hr
    split at hr
    · split at hr
      · rw [← Except.error.inj hr]
        norm_num
      · cases hr
    · cases hr
  have hconst : ∀ {c : ℤ}, c ≠ 0 → (.error c : Except ℤ PutPlan) = .error e → e ≠ 0 := by
    intro c hc heq
    rwa [← Except.error.inj heq]
  unfold rsPutPlan at h
  split at h
  · exact hconst (by norm_num) h
  · split at h
    · exact hconst (by norm_num) h
    · split at h
      · exact hconst (by norm_num) h
      · split at h
        · exact hconst (by norm_num) h
        · split at h
          · dsimp only at h
            split at h
            · exact hconst (by norm_num) h
            · exact hrun h
          · split at h
            · exact hconst (by norm_num) h
            · exact hrun h

/-- Nothing is marked in vain after a put. -/
theorem PutPlan.Ok.exact {d : Disk Sector} {capacity root : ℕ} (hp : p.Ok name src d root sects)
    (hvol : Volume capacity d root sects) (hfit : p.fblk + p.nclus ≤ sects)
    (hne : name.bytes ≠ []) (hexact : Exact (reserved root) (catalogOf (d root)) (marks (d 1))) :
    Exact (reserved root) (catalogOf (p.newDir name src.length))
      (marks (if p.Releases then p.freedMap else p.map)) := by
  rw [hp.catalog hvol.books hfit, if_neg hne]
  refine hexact.put p.slot _ fun c hc => ?_
  by_cases hrel : p.Releases
  · rw [if_pos hrel, hp.mem_freed hvol hfit hrel] at hc
    rcases hc with hnew | ⟨hold, hnot⟩
    · exact Or.inl hnew
    · refine Or.inr ⟨hold, fun f hf => ?_⟩
      obtain ⟨-, rfl⟩ := catalogOf_some hf
      exact hnot
  · rw [if_neg hrel, hp.mem_marks hvol hfit] at hc
    rcases hc with hnew | hold
    · exact Or.inl hnew
    · by_cases hmem : p.fblk ≤ c ∧ c < p.fblk + p.nclus
      · exact Or.inl hmem
      · refine Or.inr ⟨hold, fun f hf hcf => hmem ?_⟩
        obtain ⟨hlive, rfl⟩ := catalogOf_some hf
        -- the slot is live, so the put is in place and of the same size
        have hex : p.existing = true := by
          by_contra hfalse
          rw [(hp.fresh (by simpa using hfalse)).2] at hlive
          cases hlive
        have hkind : ¬(p.newRun = true ∨ p.nclus < p.oldNclus) := fun hk => hrel ⟨hex, hk⟩
        rw [not_or, not_lt] at hkind
        obtain ⟨-, hblk, -, hle⟩ := hp.inPlace (by simpa using hkind.1)
        obtain ⟨-, -, hold', hclus⟩ := hp.old hex
        obtain ⟨h1, h2⟩ := hcf
        omega

/-- **A put.** -/
theorem Catalog.put (h : Catalog sects dev M) (hnamed : (Op.put name src).Named dev sects) :
    (rsPutFile name src dev).1 = 0 ∧
        Catalog sects (rsPutFile name src dev).2 ((Op.put name src).apply M) ∨
      (rsPutFile name src dev).1 ≠ 0 ∧ (rsPutFile name src dev).2 = dev := by
  cases hplan : rsPutPlan name src dev with
  | error e =>
    have hrun : rsPutFile name src dev = (e, dev) := by rw [rsPutFile, hplan]
    rw [hrun]
    exact Or.inr ⟨rsPutPlan_error hplan, rfl⟩
  | ok p =>
    have hvol := h.volume
    have hp := rsPutPlan_ok hvol.books hplan
    have hfit := hp.run_fits hvol.books
    have hne := hp.named hnamed
    obtain ⟨hout, hcap, hfails⟩ := rsPutWrites_outcome hp hvol.books
    have hrun : rsPutFile name src dev = rsPutWrites p name src dev := by rw [rsPutFile, hplan]
    rw [← hrun] at hout hcap hfails
    generalize rsPutFile name src dev = res at hout hcap hfails
    obtain ⟨code, dev'⟩ := res
    dsimp only at hout hcap hfails
    generalize hd' : dev'.disk = d' at hout
    cases hout with
    | data k hk hfail => exact absurd hfail (FirstFail.absurd h.noErrors)
    | map hnew hfail => exact absurd hfail (FirstFail.absurd h.noErrors)
    | dir _ hfail hd => exact absurd hfail (FirstFail.absurd h.noErrors)
    | release hrel hfail => exact absurd hfail (FirstFail.absurd h.noErrors)
    | done _ hall hd =>
      obtain ⟨-, h1, hroot⟩ := hp.switched_books hvol
      have hfiles : fileOf d' 2 = fileOf (p.switched name src dev.disk) 2 := by
        rw [hd]
        split
        · exact funext fun j => hp.file_released hvol hfit j
        · rfl
      have hdir : d' 2 = p.newDir name src.length := by
        rw [hd]
        split
        · rw [PutPlan.released, Function.update_of_ne (by norm_num), hroot]
        · exact hroot
      have hmap : d' 1 = if p.Releases then p.freedMap else p.map := by
        rw [hd]
        split
        · exact Function.update_self ..
        · exact h1
      refine Or.inl ⟨rfl, ⟨?_, ?_, ?_, ?_, ?_⟩⟩
      · rw [hcap, hd', hd]
        split
        · exact hp.volume_released hvol hfit ‹_›
        · exact hp.volume_switched hvol hfit
      · rw [hd', hdir, hmap]
        exact hp.exact hvol hfit.2 hne h.exact
      · rw [hd', hdir]
        exact hp.filled hvol hfit.2 h.filled
      · rw [hd', hfiles]
        refine h.holds.put (fun j hj => hp.file_switched_of_ne hvol hj) ?_ ?_ ?_
        · rw [hp.file_switched hvol hfit, if_neg hne]
        · intro f hf
          cases hex : p.existing with
          | true => exact fileOf_key (hp.old hex).1 hf
          | false =>
            rw [fileOf_dead (hp.fresh hex).2] at hf
            cases hf
        · intro j f hj hf
          cases hex : p.existing with
          | true => exact hvol.keys (hp.old hex).1 hj hf
          | false => exact fileOf_ne_of_none (hp.fresh hex).1 hf
      · rw [hfails]
        exact h.noErrors

/-- **A delete.** -/
theorem Catalog.del (h : Catalog sects dev M) (name : CStr) :
    (rsDelFile name dev).1 = 0 ∧
        Catalog sects (rsDelFile name dev).2 ((Op.del name).apply M) ∨
      (rsDelFile name dev).1 ≠ 0 ∧ (rsDelFile name dev).2.disk = dev.disk ∧
        Catalog sects (rsDelFile name dev).2 M := by
  have hvol := h.volume
  obtain ⟨hout, hcap, hfails⟩ := rsDelFile_outcome name hvol.books
  generalize rsDelFile name dev = res at hout hcap hfails
  obtain ⟨code, dev'⟩ := res
  dsimp only at hout hcap hfails
  generalize hd' : dev'.disk = d' at hout
  cases hout with
  | refused _ hcode => exact Or.inr ⟨hcode, rfl, h.congr hd' hcap hfails⟩
  | map hfail => exact absurd hfail (FirstFail.absurd h.noErrors)
  | dir i _ _ hfail => exact absurd hfail (FirstFail.absurd h.noErrors)
  | done i hfind =>
    obtain ⟨hlive, -⟩ := rsFindSlot_some hfind
    obtain ⟨-, h1, hroot⟩ := hvol.deleted_books i
    refine Or.inl ⟨rfl, ⟨?_, ?_, ?_, ?_, ?_⟩⟩
    · rw [hcap, hd']
      exact hvol.deleted hlive
    · rw [hd', hroot, h1, hvol.catalog_clearSlot]
      refine h.exact.erase i fun c hc => ?_
      obtain ⟨hold, hnot⟩ := (hvol.mem_deleted hlive c).1 hc
      refine ⟨hold, fun f hf => ?_⟩
      obtain ⟨-, rfl⟩ := catalogOf_some hf
      exact hnot
    · rw [hd', hroot]
      intro j hj
      by_cases hji : j = i
      · subst hji
        rw [slotLive_clearSlot] at hj
        cases hj
      · rw [(sameSlot_clearSlot _ hji).len]
        rw [(sameSlot_clearSlot _ hji).live] at hj
        exact h.filled j hj
    · rw [hd', hvol.deleted_files]
      exact h.holds.erase (fun j hj => Function.update_of_ne hj _ _) (Function.update_self ..)
        (fun f hf => fileOf_key hfind hf) fun j f hj hf => hvol.keys hfind hj hf
    · rw [hfails]
      exact h.noErrors

/-- **A rename.** -/
theorem Catalog.rename (h : Catalog sects dev M) (oldn newn : CStr) :
    (rsRenameFile oldn newn dev).1 = 0 ∧
        Catalog sects (rsRenameFile oldn newn dev).2 ((Op.rename oldn newn).apply M) ∨
      (rsRenameFile oldn newn dev).1 ≠ 0 ∧ (rsRenameFile oldn newn dev).2.disk = dev.disk ∧
        Catalog sects (rsRenameFile oldn newn dev).2 M := by
  have hvol := h.volume
  obtain ⟨hout, hcap, hfails⟩ := rsRenameFile_outcome oldn newn hvol
  generalize rsRenameFile oldn newn dev = res at hout hcap hfails
  obtain ⟨code, dev'⟩ := res
  dsimp only at hout hcap hfails
  generalize hd' : dev'.disk = d' at hout
  cases hout with
  | refused _ hcode => exact Or.inr ⟨hcode, rfl, h.congr hd' hcap hfails⟩
  | done i hfind hlen hfree =>
    obtain ⟨hlive, hkey⟩ := rsFindSlot_some hfind
    obtain ⟨hlive', hname', hblk', hlen'⟩ := slot_renamedDir (dev.disk 2) i hlen
    have hvol' := hvol.renamed hfind hlen hfree
    have hfiles := hvol.renamed_files hlive hlen
    have hself : Function.update dev.disk 2 (renamedDir (dev.disk 2) i newn) 2 =
        renamedDir (dev.disk 2) i newn := Function.update_self ..
    have hfile : fileOf dev.disk 2 i = some (foldName oldn.bytes,
        fileBytes dev.disk (slotBlk (dev.disk 2) i) (slotLen (dev.disk 2) i)) := by
      rw [fileOf, if_pos hlive, hkey]
    refine Or.inl ⟨rfl, ⟨?_, ?_, ?_, ?_, ?_⟩⟩
    · rw [hcap, hd']
      exact hvol'
    · -- the clusters are the same
      rw [hd', hself, Function.update_of_ne (by norm_num)]
      intro c hc
      rcases h.exact hc with hres | ⟨j, e, hj, hcj⟩
      · exact Or.inl hres
      · obtain ⟨hlivej, rfl⟩ := catalogOf_some hj
        by_cases hji : j = i
        · subst hji
          refine Or.inr ⟨j, _, catalogOf_live hlive', ?_⟩
          rwa [slotClusters, hblk', hlen']
        · refine Or.inr ⟨j, _, ?_, hcj⟩
          rw [(sameSlot_renamedDir _ hlen.2 hji).catalog fun hl => hvol.named j hl, hj]
    · rw [hd', hself]
      intro j hj
      by_cases hji : j = i
      · subst hji
        rw [hlen']
        exact h.filled j hlive
      · rw [(sameSlot_renamedDir _ hlen.2 hji).len]
        rw [(sameSlot_renamedDir _ hlen.2 hji).live] at hj
        exact h.filled j hj
    · rw [hd', hfiles]
      have hold : M (foldName oldn.bytes) =
          some (fileBytes dev.disk (slotBlk (dev.disk 2) i) (slotLen (dev.disk 2) i)) :=
        (h.holds _ _).2 ⟨i, hfile⟩
      have herased : Holds (Function.update (fileOf dev.disk 2) i none)
          (Function.update M (foldName oldn.bytes) none) :=
        h.holds.erase (fun j hj => Function.update_of_ne hj _ _) (Function.update_self ..)
          (fun f hf => fileOf_key hfind hf) fun j f hj hf => hvol.keys hfind hj hf
      rw [Op.apply, hold]
      refine herased.put (fun j hj => ?_) (Function.update_self ..) (fun f hf => ?_)
        fun j f hj hf hfkey => ?_
      · rw [Function.update_of_ne hj, Function.update_of_ne hj]
      · rw [Function.update_self] at hf
        cases hf
      · rw [Function.update_of_ne hj] at hf
        rcases hfree with hfold | hnone
        · exact hvol.keys hfind hj hf (hfkey.trans hfold.symm)
        · exact fileOf_ne_of_none hnone hf hfkey
    · rw [hfails]
      exact h.noErrors

/-- **One call.**  It does what it is for, or reports an error and leaves the disk alone. -/
theorem Catalog.step (h : Catalog sects dev M) (op : Op) (hnamed : op.Named dev sects) :
    ((op.run dev).1 = 0 → Catalog sects (op.run dev).2 (op.apply M)) ∧
      ((op.run dev).1 ≠ 0 → (op.run dev).2.disk = dev.disk ∧ Catalog sects (op.run dev).2 M) := by
  cases op with
  | put name src =>
    rcases h.put hnamed with ⟨hcode, hcat⟩ | ⟨hcode, hsame⟩
    · exact ⟨fun _ => hcat, fun hne => absurd hcode hne⟩
    · refine ⟨fun hz => absurd hz hcode, fun _ => ?_⟩
      rw [Op.run, hsame]
      exact ⟨rfl, h⟩
  | del name =>
    rcases h.del name with ⟨hcode, hcat⟩ | ⟨hcode, hsame⟩
    · exact ⟨fun _ => hcat, fun hne => absurd hcode hne⟩
    · exact ⟨fun hz => absurd hz hcode, fun _ => hsame⟩
  | rename oldn newn =>
    rcases h.rename oldn newn with ⟨hcode, hcat⟩ | ⟨hcode, hsame⟩
    · exact ⟨fun _ => hcat, fun hne => absurd hcode hne⟩
    · exact ⟨fun hz => absurd hz hcode, fun _ => hsame⟩
  | load name cap =>
    have hrun : ((Op.load name cap).run dev).2 = dev := by
      rw [Op.run]
      cases rsLoadFile dev name cap <;> rfl
    rw [hrun]
    exact ⟨fun _ => h, fun _ => ⟨rfl, h⟩⟩

/-! ## Runs -/

/-- The map after a call, given what the call returned. -/
def Op.applied (op : Op) (code : ℤ) (M : FileMap) : FileMap := if code = 0 then op.apply M else M

/-- The volume says what the map says. -/
structure Refines (sects : ℕ) (dev : Dev) (M : FileMap) : Prop where
  runs : ∀ i, slotLive (dev.disk 2) i = true → 0 < slotLen (dev.disk 2) i ∧
    3 ≤ slotBlk (dev.disk 2) i ∧
    slotBlk (dev.disk 2) i + (slotLen (dev.disk 2) i + 511) / 512 ≤ sects
  apart : ∀ i j, i ≠ j → slotLive (dev.disk 2) i = true → slotLive (dev.disk 2) j = true →
    slotBlk (dev.disk 2) i + (slotLen (dev.disk 2) i + 511) / 512 ≤ slotBlk (dev.disk 2) j ∨
      slotBlk (dev.disk 2) j + (slotLen (dev.disk 2) j + 511) / 512 ≤ slotBlk (dev.disk 2) i
  bitmap : ∀ c, mapBit (dev.disk 1) c = true ↔ c < 3 ∨ ∃ i, slotLive (dev.disk 2) i = true ∧
    slotBlk (dev.disk 2) i ≤ c ∧ c < slotBlk (dev.disk 2) i + (slotLen (dev.disk 2) i + 511) / 512
  names : ∀ i j, i ≠ j → slotLive (dev.disk 2) i = true → slotLive (dev.disk 2) j = true →
    strIeq (slotName (dev.disk 2) i) (slotName (dev.disk 2) j) = false
  terminated : ∀ i, slotLive (dev.disk 2) i = true → (slotName (dev.disk 2) i).length ≤ 37
  loads : ∀ name cap, 2 ≤ cap → rsLoadFile dev name cap =
    match M (foldName name.bytes) with
    | some bytes => if bytes.length < cap then .ok bytes else .error (-6)
    | none => .error (-6)

theorem Catalog.clusters (h : Catalog sects dev M) {i : Fin 8}
    (hlive : slotLive (dev.disk 2) i = true) :
    slotClusters (dev.disk 2) i = (slotLen (dev.disk 2) i + 511) / 512 := by
  have hlen := h.volume.lengths i hlive
  rw [← clusters_slotLen (h.filled i hlive) hlen, clusters_eq hlen]

theorem Catalog.loads (h : Catalog sects dev M) (name : CStr) {cap : ℕ} (hcap : 2 ≤ cap) :
    rsLoadFile dev name cap =
      match M (foldName name.bytes) with
      | some bytes => if bytes.length < cap then .ok bytes else .error (-6)
      | none => .error (-6) := by
  rw [h.volume.load, loadOf, if_neg (by omega)]
  cases hfind : (List.finRange 8).findSome? fun i =>
      (fileOf dev.disk 2 i).filter fun f => f.1 == foldName name.bytes with
  | none =>
    have hnone : M (foldName name.bytes) = none := by
      cases hM : M (foldName name.bytes) with
      | none => rfl
      | some bytes =>
        obtain ⟨i, hi⟩ := (h.holds _ _).1 hM
        have hall := List.findSome?_eq_none_iff.1 hfind i (List.mem_finRange i)
        rw [hi, Option.filter_some, if_pos (by simp)] at hall
        cases hall
    rw [hnone]
  | some f =>
    obtain ⟨i, -, hi⟩ := List.exists_of_findSome?_eq_some hfind
    rw [Option.filter_eq_some_iff, beq_iff_eq] at hi
    obtain ⟨key, bytes⟩ := f
    obtain ⟨hi, rfl⟩ := hi
    have hM : M (foldName name.bytes) = some bytes := (h.holds _ _).2 ⟨i, hi⟩
    rw [hM]
    have hlen : bytes.length ≠ 0 := by
      unfold fileOf at hi
      split at hi
      · rename_i hlive
        have hbytes := (Prod.mk.inj (Option.some.inj hi)).2
        rw [← hbytes, length_fileBytes]
        exact h.filled i hlive
      · cases hi
    dsimp only
    by_cases hlt : bytes.length < cap
    · rw [if_pos hlt, if_neg (by omega)]
    · rw [if_neg hlt, if_pos (by omega)]

theorem Catalog.refines (h : Catalog sects dev M) : Refines sects dev M := by
  have hvol := h.volume
  refine ⟨fun i hi => ?_, fun i j hij hi hj => ?_, fun c => ?_, fun i j hij hi hj => ?_,
    hvol.named, fun name cap hcap => h.loads name hcap⟩
  · rw [← h.clusters hi]
    exact ⟨Nat.pos_of_ne_zero (h.filled i hi), hvol.extents i hi⟩
  · have hdisj := hvol.safe.apart hij (catalogOf_live hi) (catalogOf_live hj)
    rw [← h.clusters hi, ← h.clusters hj]
    have hposi : 1 ≤ slotClusters (dev.disk 2) i := le_max_left _ _
    have hposj : 1 ≤ slotClusters (dev.disk 2) j := le_max_left _ _
    by_contra hno
    rw [not_or, not_le, not_le] at hno
    have hmemi : max (slotBlk (dev.disk 2) i) (slotBlk (dev.disk 2) j) ∈ Set.Ico
        (slotBlk (dev.disk 2) i) (slotBlk (dev.disk 2) i + slotClusters (dev.disk 2) i) :=
      ⟨by omega, by omega⟩
    exact Set.disjoint_left.1 hdisj hmemi ⟨by omega, by omega⟩
  · constructor
    · intro hc
      rcases h.exact hc with hres | ⟨i, e, hi, hci⟩
      · refine Or.inl ?_
        rcases hres with rfl | rfl | rfl <;> norm_num
      · obtain ⟨hlive, rfl⟩ := catalogOf_some hi
        rw [Set.mem_Ico, h.clusters hlive] at hci
        exact Or.inr ⟨i, hlive, hci⟩
    · rintro (hlt | ⟨i, hlive, hci⟩)
      · refine hvol.safe.reserves ?_
        interval_cases c <;> simp [reserved]
      · rw [← h.clusters hlive] at hci
        exact hvol.safe.marks (catalogOf_live hlive) hci
  · cases heq : strIeq (slotName (dev.disk 2) i) (slotName (dev.disk 2) j) with
    | false => rfl
    | true =>
      exact absurd (hvol.safe.keys (catalogOf_live hi) (catalogOf_live hj) (strIeq_iff.1 heq)) hij

end Step

/-- Every call of the run meets its condition. -/
def NamedRun (sects : ℕ) : List Op → Dev → Prop
  | [], _ => True
  | op :: ops, dev => op.Named dev sects ∧ NamedRun sects ops (op.run dev).2

/-- In every state of the run the volume is the map, and a call that reports an error has
left the disk as it was. -/
def RunRefines (sects : ℕ) : List Op → Dev → FileMap → Prop
  | [], dev, M => Refines sects dev M
  | op :: ops, dev, M =>
      Refines sects dev M ∧ ((op.run dev).1 ≠ 0 → (op.run dev).2.disk = dev.disk) ∧
        RunRefines sects ops (op.run dev).2 (op.applied (op.run dev).1 M)

theorem Catalog.run {M : FileMap} (h : Catalog sects dev M) {ops : List Op}
    (hnamed : NamedRun sects ops dev) : RunRefines sects ops dev M := by
  induction ops generalizing dev M with
  | nil => exact h.refines
  | cons op ops ih =>
    obtain ⟨hop, hrest⟩ := hnamed
    obtain ⟨hdone, herror⟩ := h.step op hop
    refine ⟨h.refines, fun hne => (herror hne).1, ih ?_ hrest⟩
    rw [Op.applied]
    split
    · exact hdone ‹_›
    · exact (herror ‹_›).2

/-- **The RedSea root is a finite map**, in every run of calls on a freshly formatted volume in
which no put under the empty name goes through. -/
theorem redsea_refines (sects uid : ℕ) (dev dev' : Dev) (ops : List Op)
    (hok : ∀ n, dev.fails n = false) (hfmt : rsFmtHost sects uid dev = (0, dev'))
    (hnamed : NamedRun sects ops dev') : RunRefines sects ops dev' fun _ => none :=
  (rsFmtHost_catalog hok hfmt).run hnamed

/-- A device without errors, as large as the RAM disk. -/
def soundDev : Dev := ⟨128, fun _ => zeroSector, fun _ => false, 0⟩

/-- The name `A`. -/
def nameA : CStr := ⟨[65], by decide⟩

/-- The empty name. -/
def noName : CStr := ⟨[], by decide⟩

/-- A run with a file in it. -/
theorem redsea_refines_soundDev :
    RunRefines 16 [.put nameA [1], .load nameA 4, .del nameA] (rsFmtHost 16 7 soundDev).2
      fun _ => none := by
  have hnamed : NamedRun 16 [.put nameA [1], .load nameA 4, .del nameA]
      (rsFmtHost 16 7 soundDev).2 :=
    ⟨fun hnil => absurd hnil (List.cons_ne_nil _ _), trivial, trivial, trivial⟩
  exact redsea_refines 16 7 soundDev _ _ (fun _ => rfl) rfl hnamed

/-- **A put under the empty name** reports success; it leaves a cluster marked and no slot
that owns it. -/
theorem nameless_put_leaks :
    rsFmtHost 16 7 soundDev = (0, (rsFmtHost 16 7 soundDev).2) ∧
      (rsPutFile noName [1] (rsFmtHost 16 7 soundDev).2).1 = 0 ∧
      ¬RunRefines 16 [.put noName [1]] (rsFmtHost 16 7 soundDev).2 fun _ => none := by
  refine ⟨rfl, rfl, fun ⟨_, _, hafter⟩ => ?_⟩
  have hmarked : mapBit ((rsPutFile noName [1] (rsFmtHost 16 7 soundDev).2).2.disk 1) 3 = true := by
    decide +kernel
  have hdead : ∀ i, slotLive ((rsPutFile noName [1] (rsFmtHost 16 7 soundDev).2).2.disk 2) i =
      false := by decide +kernel
  rcases (hafter.bitmap 3).1 hmarked with hlt | ⟨i, hlive, -⟩
  · exact absurd hlt (by norm_num)
  · exact Bool.false_ne_true ((hdead i).symm.trans hlive)

end ZealBringup.RedSea
