import ZealBringup.RedSea.Put
import ZealBringup.RedSea.Watched

/-!
# When the RedSea operations stay inside

For each operation the exact condition, on the disk and on the arguments, under which it touches
nothing outside of its arrays and of the device and forms no sum that wraps; what it then returns
is what the plain operation returns.

* `RootFits`, `FindFits` — the parts that the operations share.
* `rsLoadFile_exactly`, `rsPutFile_exactly`, `rsDelFile_exactly`, `rsRenameFile_exactly`,
  `zealRedseaFileAt_isOk_iff` — the operations.
-/

set_option maxRecDepth 10000

namespace ZealBringup.RedSea.Watched

open Store Checked

/-! ## One access -/

theorem need_exactly {c : Prop} [Decidable c] (f : Fault) : Exactly (need c f) c () where
  ok h := if_pos h
  error h := ⟨f, if_neg h⟩

theorem add64_exactly (a b : ℕ) : Exactly (add64 a b) (a + b < 2 ^ 64) (a + b) where
  ok h := if_pos h
  error h := ⟨_, if_neg h⟩

theorem dirGet_exactly (dir : Sector) (i : ℕ) : Exactly (dirGet dir i) (i < 512) (dir.get i) where
  ok h := if_pos h
  error h := ⟨_, if_neg h⟩

theorem dirWord_exactly (dir : Sector) (off : ℕ) :
    Exactly (dirWord dir off) (off + 8 ≤ 512) (word64 dir off) where
  ok h := if_pos h
  error h := ⟨_, if_neg h⟩

theorem dirPut_exactly (dir : Sector) (off : ℕ) (bytes : List UInt8) :
    Exactly (dirPut dir off bytes) (off + bytes.length ≤ 512) (copyBytes dir off bytes) where
  ok h := if_pos h
  error h := ⟨_, if_neg h⟩

theorem dirPutWord_exactly (dir : Sector) (off v : ℕ) :
    Exactly (dirPutWord dir off v) (off + 8 ≤ 512) (setWord64 dir off v) where
  ok h := if_pos h
  error h := ⟨_, if_neg h⟩

theorem mapTest_exactly (map : Sector) (b : ℕ) :
    Exactly (mapTest map b) (b / 8 < 512) (mapBit map b) where
  ok h := if_pos h
  error h := ⟨_, if_neg h⟩

theorem mapSet_exactly (map : Sector) (b : ℕ) :
    Exactly (mapSet map b) (b / 8 < 512) (setBit map b) where
  ok h := if_pos h
  error h := ⟨_, if_neg h⟩

theorem mapClear_exactly (map : Sector) (b : ℕ) :
    Exactly (mapClear map b) (b / 8 < 512) (clearBit map b) where
  ok h := if_pos h
  error h := ⟨_, if_neg h⟩

/-- A block is read without harm unless the bound check of its number wraps. -/
theorem blkread_exactly (dev : Dev) (blk : ℕ) :
    Exactly (blkread dev blk) (blk + 1 < 2 ^ 64) (dev.blkread blk) := by
  refine Exactly.congr ((add64_exactly blk 1).bind (Q := True) fun hsum =>
    Exactly.ite (fun hbeyond => ?_) fun hin => ?_) (and_iff_left trivial) fun _ => rfl
  · refine (Exactly.pure none).congr Iff.rfl fun _ => ?_
    rw [Dev.blkread, Nat.mod_eq_of_lt hsum, if_pos hbeyond]
  · exact (need_exactly _).step (by omega) (Exactly.pure _)

theorem blkwrite_exactly (dev : Dev) (blk : ℕ) (s : Sector) :
    Exactly (blkwrite dev blk s) (blk + 1 < 2 ^ 64) (dev.blkwrite blk s) := by
  refine Exactly.congr ((add64_exactly blk 1).bind (Q := True) fun hsum =>
    Exactly.ite (fun hbeyond => ?_) fun hin => ?_) (and_iff_left trivial) fun _ => rfl
  · refine (Exactly.pure (false, dev)).congr Iff.rfl fun _ => ?_
    rw [Dev.blkwrite, Nat.mod_eq_of_lt hsum, if_pos hbeyond]
  · exact (need_exactly _).step (by omega) (Exactly.pure _)

theorem word64_lt (s : Sector) (off : ℕ) : word64 s off < 2 ^ 64 := by
  have hlow := zssU32_lt s off
  have hhigh := zssU32_lt s (off + 4)
  rw [word64]
  omega

/-! ## The root directory -/

/-- The boot block does not name the last block a number of 64 bits can name. -/
def RootFits (dev : Dev) : Prop :=
  ∀ br root sects, dev.blkread 0 = some br → bootRoot br = .ok (root, sects) → root + 1 < 2 ^ 64

theorem rsReadRoot_exactly (dev : Dev) :
    Exactly (rsReadRoot dev) (RootFits dev) (RedSea.rsReadRoot dev) := by
  unfold RedSea.rsReadRoot
  refine (blkread_exactly dev 0).step (by norm_num) ?_
  cases hbr : dev.blkread 0 with
  | none =>
    refine (Exactly.pure _).congr (iff_of_true trivial fun br root sects h => ?_) fun _ => rfl
    rw [hbr] at h
    cases h
  | some br =>
    cases hboot : bootRoot br with
    | error e =>
      simp only [hboot]
      refine (Exactly.pure _).congr (iff_of_true trivial fun br' root sects h h' => ?_) fun _ => rfl
      rw [hbr] at h
      cases h
      rw [hboot] at h'
      cases h'
    | ok rs =>
      obtain ⟨root, sects⟩ := rs
      simp only [hboot]
      refine Exactly.congr ((blkread_exactly dev root).bind (Q := True) fun _ => ?_) ?_
        fun _ => rfl
      · cases dev.blkread root with
        | none => exact Exactly.pure _
        | some dir => exact Exactly.pure _
      · rw [and_iff_left trivial]
        refine ⟨fun hroot br' root' sects' h h' => ?_, fun h => h br root sects hbr hboot⟩
        rw [hbr] at h
        cases h
        rw [hboot] at h'
        cases h'
        exact hroot

variable {dev : Dev} {r : Root}

theorem rsReadRoot_ok (hr : RedSea.rsReadRoot dev = .ok r) :
    ∃ br, dev.blkread 0 = some br ∧ bootRoot br = .ok (r.root, r.sects) := by
  unfold RedSea.rsReadRoot at hr
  cases hbr : dev.blkread 0 with
  | none =>
    rw [hbr] at hr
    cases hr
  | some br =>
    simp only [hbr] at hr
    cases hboot : bootRoot br with
    | error e =>
      rw [hboot] at hr
      cases hr
    | ok rs =>
      simp only [hboot] at hr
      cases hdir : dev.blkread rs.1 with
      | none =>
        rw [hdir] at hr
        cases hr
      | some dir =>
        rw [hdir] at hr
        cases hr
        exact ⟨br, rfl, hboot⟩

/-- The boot block never makes the volume larger than 128 sectors. -/
theorem sects_le (hr : RedSea.rsReadRoot dev = .ok r) : r.sects ≤ 128 := by
  obtain ⟨br, -, hboot⟩ := rsReadRoot_ok hr
  unfold bootRoot at hboot
  split_ifs at hboot with hmagic hzero hsize
  · have hsects : word64 br 16 = r.sects := congrArg Prod.snd (Except.ok.inj hboot)
    rw [← hsects]
    exact hsize.2
  · have hsects : 16 = r.sects := congrArg Prod.snd (Except.ok.inj hboot)
    omega

/-- A root that was read has a number that can be asked for again. -/
theorem RootFits.of_read (h : RootFits dev) (hr : RedSea.rsReadRoot dev = .ok r) :
    r.root + 1 < 2 ^ 64 := by
  obtain ⟨br, hbr, hboot⟩ := rsReadRoot_ok hr
  exact h br _ _ hbr hboot

/-! ## Finding a slot -/

/-- The name does not begin, case aside, with everything from the name of the slot to the end of
the directory. -/
def NameEnds (dir : Sector) (name : List UInt8) (i : Fin 8) : Prop :=
  ¬foldName (dir.slice (i * 64 + 2) (510 - i * 64)) <+: foldName name

/-- The slots that are looked at, up to the one that is found, have names that end. -/
def FindFits (dir : Sector) (name : List UInt8) : Prop :=
  Upto (fun i => slotLive dir i = true ∧ strIeq (slotName dir i) name = true)
    (fun i => slotLive dir i = true → NameEnds dir name i) (List.finRange 8)

theorem slice_cons (s : Sector) {off : ℕ} (h : off < 512) :
    s.slice off (512 - off) = s.get off :: s.slice (off + 1) (512 - (off + 1)) := by
  rw [show 512 - off = 512 - (off + 1) + 1 by omega, Sector.slice, Sector.slice,
    List.range_succ_eq_map, List.map_cons, List.map_map, Nat.add_zero]
  congr 1
  refine List.map_congr_left fun i _ => ?_
  show s.get (off + (i + 1)) = s.get (off + 1 + i)
  congr 1
  omega

theorem strLower_ne_zero {b : UInt8} (h : b ≠ 0) : strLower b ≠ 0 := by
  rw [strLower]
  split
  · rename_i hb
    intro h0
    have hle : b ≤ 90 := hb.2
    have hnat := congrArg UInt8.toNat h0
    rw [UInt8.toNat_add] at hnat
    have hle' : b.toNat ≤ 90 := hle
    have h32 : (32 : UInt8).toNat = 32 := rfl
    have hz : (0 : UInt8).toNat = 0 := rfl
    omega
  · exact h

/-- The comparison runs into the end of the directory when nothing stops it before. -/
theorem strIeqAt_exactly (dir : Sector) {name : List UInt8} (hname : 0 ∉ name) {off : ℕ}
    (hoff : off ≤ 512) :
    Exactly (strIeqAt dir off name) (¬foldName (dir.slice off (512 - off)) <+: foldName name)
      (strIeq (cString (dir.slice off (512 - off))) name) := by
  have hend : off = 512 → foldName (dir.slice off (512 - off)) <+: foldName name := by
    rintro rfl
    exact List.nil_prefix
  induction name generalizing off with
  | nil =>
    rw [strIeqAt]
    refine Exactly.congr ((dirGet_exactly dir off).bind fun _ => Exactly.pure _) ?_ fun hno => ?_
    · rw [and_iff_left trivial]
      refine ⟨fun hlt => ?_, fun hno => ?_⟩
      · rw [slice_cons dir hlt, foldName, List.map_cons]
        exact fun h => List.cons_ne_nil _ _ (List.prefix_nil.1 h)
      · have hne : off ≠ 512 := fun h => hno (hend h)
        omega
    · have hne : off ≠ 512 := fun h => hno (hend h)
      rw [slice_cons dir (by omega), cString, List.takeWhile_cons]
      by_cases h0 : dir.get off = 0
      · simp [h0, strIeq]
      · simp [h0, strIeq]
  | cons b bs ih =>
    have hb : b ≠ 0 := fun h => hname (h ▸ List.mem_cons_self)
    rw [strIeqAt]
    rcases Nat.lt_or_ge off 512 with hlt | hge
    · refine (dirGet_exactly dir off).step hlt ?_
      have hfold : ∀ rest : List UInt8, foldName (dir.get off :: rest) <+: foldName (b :: bs) ↔
          strLower (dir.get off) = strLower b ∧ foldName rest <+: foldName bs := by
        intro rest
        exact List.cons_prefix_cons
      rw [slice_cons dir hlt, hfold]
      refine Exactly.ite (fun h0 => ?_) fun h0 => Exactly.ite (fun hne => ?_) fun heq => ?_
      · refine (Exactly.pure false).congr (iff_of_true trivial fun h => ?_) fun _ => ?_
        · rw [h0] at h
          exact strLower_ne_zero hb h.1.symm
        · simp [h0, cString, strIeq]
      · refine (Exactly.pure false).congr (iff_of_true trivial fun h => hne h.1) fun _ => ?_
        rw [cString, List.takeWhile_cons_of_pos (by simpa using h0), strIeq, if_pos hne]
      · have heq : strLower (dir.get off) = strLower b := not_not.1 heq
        refine (ih (fun h => hname (List.mem_cons_of_mem _ h)) (by omega) ?_).congr ?_ fun _ => ?_
        · intro h512
          rw [h512]
          exact List.nil_prefix
        · rw [and_iff_right heq]
        · rw [cString, cString, List.takeWhile_cons_of_pos (by simpa using h0), strIeq,
            if_neg (not_not.2 heq)]
    · exact ((dirGet_exactly dir off).stop (Nat.not_lt.2 hge) _).congr
        (iff_of_false id (not_not.2 (hend (by omega)))) fun _ => rfl

theorem findLoop_exactly (dir : Sector) {name : List UInt8} (hname : 0 ∉ name)
    (slots : List (Fin 8)) :
    Exactly (findLoop dir name slots)
      (Upto (fun i => slotLive dir i = true ∧ strIeq (slotName dir i) name = true)
        (fun i => slotLive dir i = true → NameEnds dir name i) slots)
      ((slots.find? fun i => slotLive dir i && strIeq (slotName dir i) name).map fun i =>
        (i, slotBlk dir i, slotLen dir i)) := by
  induction slots with
  | nil => exact Exactly.pure _
  | cons i slots ih =>
    have hi := i.isLt
    have hlive : slotLive dir i = true ↔ dir.get (i * 64 + 2) ≠ 0 := by
      rw [slotLive, bne_iff_ne]
    rw [findLoop, Upto, List.find?_cons]
    refine (dirGet_exactly dir _).step (by omega) (Exactly.ite (fun h0 => ?_) fun h0 => ?_)
    · have hdead : slotLive dir i = false := by simpa using fun h => hlive.1 h h0
      simp only [hdead, Bool.false_and, Bool.false_eq_true, false_and, not_false_eq_true,
        forall_const, false_imp_iff, true_and]
      exact ih
    · have hl : slotLive dir i = true := hlive.2 h0
      have hcmp := strIeqAt_exactly dir hname (show (i : ℕ) * 64 + 2 ≤ 512 by omega)
      rw [show 512 - ((i : ℕ) * 64 + 2) = 510 - i * 64 by omega] at hcmp
      simp only [hl, true_and, Bool.true_and, forall_const]
      refine Exactly.bind hcmp fun hends => Exactly.ite (fun hno => ?_) fun hyes => ?_
      · have hno : strIeq (slotName dir i) name = false := hno
        simp only [hno, Bool.false_eq_true, not_false_eq_true, forall_const]
        exact ih
      · have hyes : strIeq (slotName dir i) name = true := Bool.of_not_eq_false hyes
        simp only [hyes, not_true_eq_false, false_imp_iff]
        exact (dirWord_exactly dir _).step (by omega) ((dirWord_exactly dir _).step (by omega)
          (Exactly.pure _))

theorem rsFindSlot_exactly (dir : Sector) (name : CStr) :
    Exactly (rsFindSlot dir name.bytes) (FindFits dir name.bytes)
      ((RedSea.rsFindSlot dir name.bytes).map fun i => (i, slotBlk dir i, slotLen dir i)) :=
  findLoop_exactly dir name.nul _

theorem rsFindSlot_bind {β : Type} (dir : Sector) (name : CStr)
    {f : Option (Fin 8 × ℕ × ℕ) → Except Fault β} {b : β} {Q : Fin 8 → Prop}
    (hnone : RedSea.rsFindSlot dir name.bytes = none → Exactly (f none) True b)
    (hsome : ∀ i, RedSea.rsFindSlot dir name.bytes = some i →
      Exactly (f (some (i, slotBlk dir i, slotLen dir i))) (Q i) b) :
    Exactly (rsFindSlot dir name.bytes >>= f)
      (FindFits dir name.bytes ∧ ∀ i, RedSea.rsFindSlot dir name.bytes = some i → Q i) b := by
  refine (rsFindSlot_exactly dir name).bind fun _ => ?_
  cases hv : RedSea.rsFindSlot dir name.bytes with
  | none => exact (hnone hv).congr (by simp) fun _ => rfl
  | some i => exact (hsome i hv).congr (by simp) fun _ => rfl

/-- A name that fits into a slot is found without harm. -/
theorem findFits_of_length {dir : Sector} {name : List UInt8} (h : name.length ≤ 37) :
    FindFits dir name := by
  refine Upto.of_forall fun i _ _ hprefix => ?_
  have hi := i.isLt
  have hlen := hprefix.length_le
  rw [length_foldName, length_foldName, length_slice] at hlen
  omega

theorem freeSlotLoop_exactly (dir : Sector) (slots : List (Fin 8)) :
    Exactly (freeSlotLoop dir slots) True (slots.find? fun i => !slotLive dir i) := by
  induction slots with
  | nil => exact Exactly.pure _
  | cons i slots ih =>
    have hi := i.isLt
    rw [freeSlotLoop, List.find?_cons, slotLive]
    refine (dirGet_exactly dir _).step (by omega) (Exactly.ite (fun h0 => ?_) fun h0 => ?_)
    · rw [h0]
      exact Exactly.pure _
    · rw [show (dir.get (i * 64 + 2) != 0) = true by simpa using h0]
      exact ih

/-! ## Loading -/

theorem loadLoop_exactly (dev : Dev) {cap flen : ℕ} (hcap : flen < cap) (n off blk : ℕ)
    (dst : List UInt8) (hn : n = (flen - off + 511) / 512) (hblk : blk + n < 2 ^ 64) :
    Exactly (loadLoop dev cap flen off blk dst) True
      ((rsLoadBlocks dev blk (flen - off) n).map (dst ++ ·)) := by
  induction n generalizing off blk dst with
  | zero =>
    rw [loadLoop, if_neg (by omega)]
    refine (Exactly.pure _).congr Iff.rfl fun _ => ?_
    rw [rsLoadBlocks]
    show Except.ok dst = Except.ok (dst ++ [])
    rw [List.append_nil]
  | succ n ih =>
    rw [loadLoop, if_pos (by omega), rsLoadBlocks]
    refine (blkread_exactly dev blk).step (by omega) ?_
    cases dev.blkread blk with
    | none => exact Exactly.pure _
    | some data =>
      refine (need_exactly _).step (fun i hi => by omega) ?_
      have hrest := ih (off + min (flen - off) 512) (blk + 1)
        (dst ++ data.slice 0 (min (flen - off) 512)) (by omega) (by omega)
      rw [← Nat.sub_sub] at hrest
      refine hrest.congr Iff.rfl fun _ => ?_
      dsimp only
      cases rsLoadBlocks dev (blk + 1) (flen - off - min (flen - off) 512) n with
      | error e => rfl
      | ok bytes =>
        exact congrArg Except.ok (List.append_assoc ..)

/-- `rs_load_file` stays inside: the boot block and the directory are harmless, and the length of
the file can be rounded up to blocks in 64 bits. -/
def LoadFits (dev : Dev) (name : CStr) (cap : ℕ) : Prop :=
  2 ≤ cap → RootFits dev ∧ ∀ r, RedSea.rsReadRoot dev = .ok r → FindFits r.dir name.bytes ∧
    ∀ i, RedSea.rsFindSlot r.dir name.bytes = some i → 3 ≤ slotBlk r.dir i →
      slotLen r.dir i < cap → slotBlk r.dir i ≤ r.sects → slotLen r.dir i + 511 < 2 ^ 64

theorem rsLoadFile_exactly (dev : Dev) (name : CStr) (cap : ℕ) :
    Exactly (rsLoadFile dev name cap) (LoadFits dev name cap) (RedSea.rsLoadFile dev name cap) := by
  unfold rsLoadFile RedSea.rsLoadFile
  by_cases hsmall : cap < 2
  · rw [if_pos hsmall, if_pos hsmall]
    exact (Exactly.pure _).congr (iff_of_true trivial fun h => by omega) fun _ => rfl
  rw [if_neg hsmall, if_neg hsmall]
  refine Exactly.congr ((rsReadRoot_exactly dev).bindExcept (Q := fun r =>
    FindFits r.dir name.bytes ∧ ∀ i, RedSea.rsFindSlot r.dir name.bytes = some i →
      3 ≤ slotBlk r.dir i → slotLen r.dir i < cap → slotBlk r.dir i ≤ r.sects →
        slotLen r.dir i + 511 < 2 ^ 64) (fun e hr => ?_) fun hroot r hr => ?_)
    ⟨fun h _ => h, fun h => h (by omega)⟩ fun _ => rfl
  · rw [hr]
    exact Exactly.pure _
  simp only [hr]
  refine rsFindSlot_bind r.dir name (fun hfind => ?_) fun i hfind => ?_
  · rw [hfind]
    exact Exactly.pure _
  simp only [hfind]
  have hsects := sects_le hr
  by_cases hbad : slotBlk r.dir i < 3 ∨ slotLen r.dir i = 0 ∨ slotLen r.dir i ≥ cap ∨
      slotBlk r.dir i > r.sects
  · simp only [if_pos hbad]
    rw [if_pos (hbad.imp_right (Or.imp_right (Or.imp_right Or.inl)))]
    exact (Exactly.pure _).congr (iff_of_true trivial fun h1 h2 h3 => by omega) fun _ => rfl
  simp only [if_neg hbad]
  obtain ⟨h3, h0, hlen, hblk⟩ : 3 ≤ slotBlk r.dir i ∧ slotLen r.dir i ≠ 0 ∧ slotLen r.dir i < cap ∧
      slotBlk r.dir i ≤ r.sects := by omega
  have hiff : slotLen r.dir i + 511 < 2 ^ 64 ∧ True ↔ (3 ≤ slotBlk r.dir i → slotLen r.dir i < cap →
      slotBlk r.dir i ≤ r.sects → slotLen r.dir i + 511 < 2 ^ 64) := by
    rw [and_iff_left trivial, forall_prop_of_true h3, forall_prop_of_true hlen,
      forall_prop_of_true hblk]
  refine Exactly.congr ((add64_exactly (slotLen r.dir i) 511).bind (Q := True) fun hsum => ?_)
    hiff fun _ => rfl
  have hclus : clusters (slotLen r.dir i) = (slotLen r.dir i + 511) / 512 := by
    rw [clusters, Nat.mod_eq_of_lt hsum]
  rw [hclus]
  refine Exactly.ite (fun hmany => ?_) fun hfew => ?_
  · rw [if_pos (by omega)]
    exact Exactly.pure _
  · rw [if_neg (by omega)]
    refine (loadLoop_exactly dev hlen ((slotLen r.dir i + 511) / 512) 0 (slotBlk r.dir i) []
      (by rw [Nat.sub_zero]) (by omega)).step trivial ?_
    rw [Nat.sub_zero]
    cases rsLoadBlocks dev (slotBlk r.dir i) (slotLen r.dir i) ((slotLen r.dir i + 511) / 512) with
    | error e => exact Exactly.pure _
    | ok bytes => exact (need_exactly _).step hlen (Exactly.pure _)

/-! ## The loops of putting and deleting -/

variable {j n : ℕ}

theorem freeFrom_exactly (map : Sector) {i : ℕ} (h : i + j + n ≤ 4096) :
    Exactly (freeFrom map i j n) True ((List.range' j n).all fun j => !mapBit map (i + j)) := by
  induction n generalizing j with
  | zero => exact Exactly.pure _
  | succ n ih =>
    rw [freeFrom, List.range'_succ, List.all_cons]
    refine (mapTest_exactly map _).step (by omega) (Exactly.ite (fun htaken => ?_) fun hfree => ?_)
    · rw [htaken]
      exact Exactly.pure _
    · rw [Bool.eq_false_of_not_eq_true hfree]
      exact ih (by omega)

theorem runLoop_exactly (map : Sector) {nclus sects i : ℕ} (hsects : sects ≤ 128) :
    Exactly (runLoop map nclus sects i) True
      ((List.range' i (sects + 1 - i)).find? fun i =>
        decide (i + nclus ≤ sects) && (List.range nclus).all fun j => !mapBit map (i + j)) := by
  generalize hleft : sects + 1 - i = left
  induction left generalizing i with
  | zero =>
    rw [runLoop, if_neg (by omega)]
    exact Exactly.pure _
  | succ left ih =>
    rw [runLoop, List.range'_succ, List.find?_cons]
    refine Exactly.ite (fun hfits => ?_) fun hover => ?_
    · refine (freeFrom_exactly map (by omega)).step trivial ?_
      rw [← List.range_eq_range', decide_eq_true hfits, Bool.true_and]
      refine Exactly.ite (fun hfree => ?_) fun htaken => ?_
      · rw [hfree]
        exact Exactly.pure _
      · rw [Bool.eq_false_of_not_eq_true htaken]
        exact ih (by omega)
    · -- Further on the run ends even later: nothing is found there either.
      rw [decide_eq_false hover, Bool.false_and]
      refine (Exactly.pure none).congr Iff.rfl fun _ => (List.find?_eq_none.2 fun k hk => ?_).symm
      have hk := List.mem_range'_1.1 hk
      rw [decide_eq_false (by omega)]
      exact Bool.false_ne_true

theorem markLoop_exactly (map : Sector) {first : ℕ} (h : first + n ≤ 4096) :
    Exactly (markLoop map first n) True (markRun map first n) := by
  induction n with
  | zero => exact Exactly.pure _
  | succ n ih =>
    exact (ih (by omega)).step trivial ((mapSet_exactly _ _).congr
      (iff_of_true (by omega) trivial) fun _ => rfl)

/-- Freeing stays in the map if each of the clusters, cut to 32 bits, has a bit there. -/
theorem freeLoop_exactly (map : Sector) (first n : ℕ) :
    Exactly (freeLoop map first n)
      (∀ k < n, first + k < 2 ^ 64 ∧ (first + k) % 2 ^ 32 < 4096) (freeRun map first n) := by
  induction n with
  | zero => exact (Exactly.pure _).congr (iff_of_true trivial (by simp)) fun _ => rfl
  | succ n ih =>
    refine Exactly.congr (ih.bind fun _ => (add64_exactly first n).bind fun _ =>
      mapClear_exactly _ _) ⟨fun ⟨hlow, hsum, hbit⟩ k hk => ?_, fun h => ?_⟩ fun _ => rfl
    · rcases Nat.lt_succ_iff_lt_or_eq.1 hk with hlt | rfl
      · exact hlow k hlt
      · exact ⟨hsum, by omega⟩
    · obtain ⟨hsum, hbit⟩ := h n (Nat.lt_succ_self n)
      exact ⟨fun k hk => h k (by omega), hsum, by omega⟩

/-- The clusters of a run do not leave the map if the first one, cut to 32 bits, is far enough
from its end. -/
theorem run_in_map {first : ℕ} (hfirst : first < 2 ^ 64) :
    (∀ k < n, first + k < 2 ^ 64 ∧ (first + k) % 2 ^ 32 < 4096) ↔
      n = 0 ∨ first % 2 ^ 32 + n ≤ 4096 := by
  constructor
  · intro h
    by_contra hno
    rw [not_or, not_le] at hno
    -- The cluster that would be the 4096th of the map is one of the run.
    have h0 := (h 0 (by omega)).2
    have hbad := (h (4096 - first % 2 ^ 32) (by omega)).2
    omega
  · rintro h k hk
    omega

theorem writeLoop_exactly (dev : Dev) (fblk : ℕ) (src : List UInt8) (h : fblk + j + n < 2 ^ 64) :
    Exactly (writeLoop dev fblk src j n) True (rsWriteBlocks dev fblk src j n) := by
  induction n generalizing dev j with
  | zero => exact Exactly.pure _
  | succ n ih =>
    rw [writeLoop, rsWriteBlocks]
    refine (add64_exactly fblk j).step (by omega) ((blkwrite_exactly dev _ _).step (by omega) ?_)
    rcases dev.blkwrite (fblk + j) (dataBlock src j) with ⟨_ | _, dev'⟩
    · exact Exactly.pure _
    · exact ih dev' (by omega)

/-! ## Putting -/

theorem rsPutRun_exactly (map : Sector) (slot : Fin 8) (existing : Bool)
    (nclus oldBlk oldNclus : ℕ) (hsects : r.sects ≤ 128) :
    Exactly (rsPutRun r map slot existing nclus oldBlk oldNclus) True
      (RedSea.rsPutRun r map slot existing nclus oldBlk oldNclus) := by
  unfold rsPutRun RedSea.rsPutRun
  refine Exactly.ite (fun hnew => ?_) fun hplace => ?_
  · rw [if_pos hnew]
    refine (runLoop_exactly map hsects).step trivial ?_
    have hfind : ((List.range' 3 (r.sects + 1 - 3)).find? fun i => decide (i + nclus ≤ r.sects) &&
        (List.range nclus).all fun j => !mapBit map (i + j)) = rsFindRun map nclus r.sects := by
      rw [rsFindRun, show r.sects + 1 - 3 = r.sects - 2 by omega]
    rw [hfind]
    cases hrun : rsFindRun map nclus r.sects with
    | none => exact Exactly.pure _
    | some fblk =>
      have hin := (rsFindRun_some hrun).2.1
      exact (markLoop_exactly map (by omega)).step trivial (Exactly.pure _)
  · rw [if_neg hplace]
    exact Exactly.pure _

/-- `rs_put_file` stays inside: the boot block is harmless, and the old run of the file can be
computed in 64 bits. -/
def PutFits (dev : Dev) (name : CStr) (src : List UInt8) : Prop :=
  0 < src.length → name.bytes.length ≤ 37 → src.length ≤ 65536 → RootFits dev ∧
    ∀ r, RedSea.rsReadRoot dev = .ok r → 4 ≤ r.sects → ∀ map, dev.blkread 1 = some map →
      ∀ i, RedSea.rsFindSlot r.dir name.bytes = some i → slotLen r.dir i + 511 < 2 ^ 64 ∧
        (slotLen r.dir i ≠ 0 → 3 ≤ slotBlk r.dir i →
          slotBlk r.dir i + (slotLen r.dir i + 511) / 512 < 2 ^ 64)

theorem rsPutPlan_exactly (name : CStr) (src : List UInt8) (dev : Dev) :
    Exactly (rsPutPlan name src dev) (PutFits dev name src) (RedSea.rsPutPlan name src dev) := by
  unfold rsPutPlan RedSea.rsPutPlan
  by_cases hargs : src.length = 0 ∨ name.bytes.length > 37 ∨ src.length > 65536
  · rw [if_pos hargs, if_pos hargs]
    exact (Exactly.pure _).congr (iff_of_true trivial fun h0 hname hlen => by omega) fun _ => rfl
  rw [if_neg hargs, if_neg hargs]
  obtain ⟨h0, hname, hlen⟩ : 0 < src.length ∧ name.bytes.length ≤ 37 ∧ src.length ≤ 65536 := by
    omega
  have hiff : PutFits dev name src ↔ _ := (forall_prop_of_true h0).trans
    ((forall_prop_of_true hname).trans (forall_prop_of_true hlen))
  refine Exactly.congr ((rsReadRoot_exactly dev).bindExcept (fun e hr => ?_) fun hroot r hr => ?_)
    hiff.symm fun _ => rfl
  · simp only [hr]
    exact Exactly.pure _
  simp only [hr]
  have h128 := sects_le hr
  by_cases hsects : r.sects < 4
  · rw [if_pos (Or.inl hsects), if_pos (Or.inl hsects)]
    exact (Exactly.pure _).congr (iff_of_true trivial fun h4 => by omega) fun _ => rfl
  rw [if_neg (by omega), if_neg (by omega)]
  refine Exactly.congr ((blkread_exactly dev 1).bindOption (fun hmap => ?_) fun _ map hmap => ?_)
    ⟨fun h _ => h.2, fun h => ⟨by norm_num, h (Nat.not_lt.1 hsects)⟩⟩ fun _ => rfl
  · simp only [hmap]
    exact Exactly.pure _
  simp only [hmap]
  refine Exactly.congr (rsFindSlot_bind r.dir name (fun hfind => ?_) fun i hfind => ?_)
    (and_iff_right (findFits_of_length hname)) fun _ => rfl
  · simp only [hfind]
    refine (freeSlotLoop_exactly r.dir _).step trivial ?_
    rw [rsFreeSlot]
    cases (List.finRange 8).find? fun i => !slotLive r.dir i with
    | none => exact Exactly.pure _
    | some slot => exact rsPutRun_exactly map slot false _ 0 0 h128
  · simp only [hfind]
    refine (add64_exactly (slotLen r.dir i) 511).bind fun hsum => ?_
    rw [clusters_eq hsum]
    by_cases hbad : slotLen r.dir i = 0 ∨ slotBlk r.dir i < 3
    · rw [if_pos hbad, if_pos (hbad.imp_right Or.inl)]
      exact (Exactly.pure _).congr (iff_of_true trivial fun h1 h2 => by omega) fun _ => rfl
    rw [if_neg hbad]
    have hgood : slotLen r.dir i ≠ 0 ∧ 3 ≤ slotBlk r.dir i := by omega
    refine Exactly.congr ((add64_exactly _ _).bind (Q := True) fun hlast => ?_)
      ((and_iff_left trivial).trans ((forall_prop_of_true hgood.1).trans
        (forall_prop_of_true hgood.2)).symm) fun _ => rfl
    rw [Nat.mod_eq_of_lt hlast]
    refine Exactly.ite (fun hover => ?_) fun hin => ?_
    · rw [if_pos (Or.inr (Or.inr hover))]
      exact Exactly.pure _
    · rw [if_neg (by omega)]
      exact rsPutRun_exactly map i true _ _ _ h128

/-- What the bounds of the writes rest on. -/
structure PlanFits (p : PutPlan) (name : CStr) : Prop where
  root : p.root.root + 1 < 2 ^ 64
  sects : p.root.sects ≤ 128
  named : name.bytes.length ≤ 37
  data : p.fblk + p.nclus ≤ p.root.sects
  old : p.oldBlk + p.oldNclus ≤ p.root.sects

variable {name : CStr} {p : PutPlan}

theorem planFits_of_run {map : Sector} {slot : Fin 8} {existing : Bool}
    {nclus oldBlk oldNclus : ℕ} (hroot : r.root + 1 < 2 ^ 64) (hsects : r.sects ≤ 128)
    (hname : name.bytes.length ≤ 37) (hold : oldBlk + oldNclus ≤ r.sects)
    (h : RedSea.rsPutRun r map slot existing nclus oldBlk oldNclus = .ok p) : PlanFits p name := by
  obtain ⟨h1, -, -, -, h5, h6, h7, hrun, hplace⟩ := rsPutRun_ok h
  refine ⟨by rw [h1]; exact hroot, by rw [h1]; exact hsects, hname, ?_, by rw [h1, h6, h7]; exact hold⟩
  rw [h1, h5]
  cases hnew : p.newRun with
  | true => exact (rsFindRun_some (hrun hnew).1).2.1
  | false =>
    obtain ⟨-, hblk, -, hle⟩ := hplace hnew
    omega

/-- A plan of harmless books is harmless. -/
theorem planFits {src : List UInt8} (hfits : PutFits dev name src)
    (h : RedSea.rsPutPlan name src dev = .ok p) :
    PlanFits p name := by
  unfold RedSea.rsPutPlan at h
  by_cases hargs : src.length = 0 ∨ name.bytes.length > 37 ∨ src.length > 65536
  · rw [if_pos hargs] at h
    cases h
  rw [if_neg hargs] at h
  have hname : name.bytes.length ≤ 37 := by omega
  obtain ⟨hroot, hbooks⟩ := hfits (by omega) hname (by omega)
  cases hr : RedSea.rsReadRoot dev with
  | error e =>
    rw [hr] at h
    cases h
  | ok r =>
    simp only [hr] at h
    have h128 := sects_le hr
    by_cases hsects : r.sects < 4 ∨ r.sects > 128
    · rw [if_pos hsects] at h
      cases h
    rw [if_neg hsects] at h
    cases hmap : dev.blkread 1 with
    | none =>
      rw [hmap] at h
      cases h
    | some map =>
      simp only [hmap] at h
      cases hfind : RedSea.rsFindSlot r.dir name.bytes with
      | none =>
        simp only [hfind] at h
        cases hfree : rsFreeSlot r.dir with
        | none =>
          rw [hfree] at h
          cases h
        | some slot =>
          rw [hfree] at h
          exact planFits_of_run (hroot.of_read hr) h128 hname (Nat.zero_le _) h
      | some i =>
        simp only [hfind] at h
        obtain ⟨hsum, hlast⟩ := hbooks r hr (by omega) map hmap i hfind
        rw [clusters_eq hsum] at h
        by_cases hbad : slotLen r.dir i = 0 ∨ slotBlk r.dir i < 3 ∨
            (slotBlk r.dir i + (slotLen r.dir i + 511) / 512) % 2 ^ 64 > r.sects
        · rw [if_pos hbad] at h
          cases h
        rw [if_neg hbad] at h
        rw [Nat.mod_eq_of_lt (hlast (by omega) (by omega))] at hbad
        exact planFits_of_run (hroot.of_read hr) h128 hname (by omega) h

theorem nameSlot_exactly (h : name.bytes.length ≤ 37) :
    Exactly (nameSlot p name) True (if p.existing then p.root.dir else
      setName (copyBytes (clearSlot p.root.dir p.slot) (p.slot * 64) [0x20, 0x04]) p.slot
        name.bytes) := by
  have hslot := p.slot.isLt
  unfold nameSlot
  refine Exactly.ite (fun hold => ?_) fun hnew => ?_
  · rw [if_pos hold]
    exact Exactly.pure _
  · rw [if_neg hnew]
    refine (dirPut_exactly _ _ _).step (by rw [List.length_replicate]; omega) ?_
    refine (dirPut_exactly _ _ _).step (by simp only [List.length_cons, List.length_nil]; omega) ?_
    refine (dirPut_exactly _ _ _).congr (iff_of_true ?_ trivial) fun _ => rfl
    rw [List.length_append, List.length_singleton]
    omega

theorem newDir_exactly (len : ℕ) (h : name.bytes.length ≤ 37) :
    Exactly (newDir p name len) True (p.newDir name len) := by
  have hslot := p.slot.isLt
  have hword : ∀ (dir : Sector) (k v : ℕ), k ≤ 56 →
      Exactly (dirPutWord dir (p.slot * 64 + k) v) True (setWord64 dir (p.slot * 64 + k) v) :=
    fun dir k v hk => (dirPutWord_exactly dir _ v).congr (iff_of_true (by omega) trivial) fun _ => rfl
  exact (nameSlot_exactly h).step trivial ((hword _ 40 _ (by omega)).step trivial
    ((hword _ 48 _ (by omega)).step trivial (hword _ 56 0 (by omega))))

theorem freedMap_exactly (h : PlanFits p name) (hshrink : p.newRun = false → p.nclus < p.oldNclus) :
    Exactly (freedMap p) True p.freedMap := by
  have hsects := h.sects
  have hold := h.old
  unfold freedMap PutPlan.freedMap
  refine Exactly.ite (fun hnew => ?_) fun hplace => ?_
  · rw [if_pos hnew]
    refine (need_exactly _).step (by omega) ?_
    exact (freeLoop_exactly p.map p.oldBlk p.oldNclus).congr
      (iff_of_true (fun k hk => by omega) trivial) fun _ => rfl
  · rw [if_neg hplace]
    have hlt := hshrink (Bool.eq_false_of_not_eq_true hplace)
    refine (add64_exactly _ _).step (by omega) ((need_exactly _).step (by omega) ?_)
    exact (freeLoop_exactly p.map (p.oldBlk + p.nclus) (p.oldNclus - p.nclus)).congr
      (iff_of_true (fun k hk => by omega) trivial) fun _ => rfl

/-- The writes of a plan of harmless books. -/
theorem rsPutWrites_exactly (h : PlanFits p name) (src : List UInt8) (dev : Dev) :
    Exactly (rsPutWrites p name src dev) True (RedSea.rsPutWrites p name src dev) := by
  have hsects := h.sects
  have hdata := h.data
  have hbooks : ∀ (dev : Dev) (s : Sector), Exactly (blkwrite dev 1 s) True (dev.blkwrite 1 s) :=
    fun dev s => (blkwrite_exactly dev 1 s).congr (iff_of_true (by norm_num) trivial) fun _ => rfl
  unfold rsPutWrites RedSea.rsPutWrites
  refine (writeLoop_exactly dev p.fblk src (by omega)).step trivial ?_
  rcases rsWriteBlocks dev p.fblk src 0 p.nclus with ⟨_ | _, dev1⟩
  · exact Exactly.pure _
  dsimp only
  have hmark : Exactly (writeMarked p dev1) True
      (if p.newRun then dev1.blkwrite 1 p.map else (true, dev1)) := by
    rw [writeMarked]
    refine Exactly.ite (fun hnew => ?_) fun hplace => ?_
    · rw [if_pos hnew]
      exact hbooks dev1 _
    · rw [if_neg hplace]
      exact Exactly.pure _
  refine hmark.step trivial ?_
  rcases (if p.newRun then dev1.blkwrite 1 p.map else (true, dev1)) with ⟨_ | _, dev2⟩
  · exact Exactly.pure _
  dsimp only
  refine (newDir_exactly src.length h.named).step trivial
    ((blkwrite_exactly dev2 p.root.root _).step h.root ?_)
  rcases dev2.blkwrite p.root.root (p.newDir name src.length) with ⟨_ | _, dev3⟩
  · show Exactly (if p.newRun then _ else _) _ (-10, if p.newRun then _ else _)
    refine Exactly.ite (fun hnew => ?_) fun hplace => ?_
    · rw [if_pos hnew]
      exact (hbooks dev3 _).step trivial (Exactly.pure _)
    · rw [if_neg hplace]
      exact Exactly.pure _
  · refine Exactly.ite (fun hfree => ?_) fun hkeep => ?_
    · simp only [if_pos hfree]
      refine (freedMap_exactly h fun hplace => ?_).step trivial ((hbooks dev3 _).step trivial ?_)
      · exact hfree.2.resolve_left (by rw [hplace]; exact Bool.false_ne_true)
      · rcases dev3.blkwrite 1 p.freedMap with ⟨_ | _, dev4⟩
        · exact Exactly.pure _
        · exact Exactly.pure _
    · simp only [if_neg hkeep]
      exact Exactly.pure _

theorem rsPutFile_exactly (name : CStr) (src : List UInt8) (dev : Dev) :
    Exactly (rsPutFile name src dev) (PutFits dev name src) (RedSea.rsPutFile name src dev) := by
  unfold rsPutFile RedSea.rsPutFile
  refine Exactly.congr ((rsPutPlan_exactly name src dev).bind (Q := True) fun hfits => ?_)
    (and_iff_left trivial) fun _ => rfl
  cases hplan : RedSea.rsPutPlan name src dev with
  | error e => exact Exactly.pure _
  | ok p => exact rsPutWrites_exactly (planFits hfits hplan) src dev

/-! ## Deleting and renaming -/

/-- `rs_del_file` stays inside: the boot block and the directory are harmless, and the clusters
of the file, as many as the loop frees, have their bits in the map. -/
def DelFits (dev : Dev) (name : CStr) : Prop :=
  isDots name = false → RootFits dev ∧ ∀ r, RedSea.rsReadRoot dev = .ok r →
    FindFits r.dir name.bytes ∧ ∀ i, RedSea.rsFindSlot r.dir name.bytes = some i →
      slotBlk r.dir i ≠ 0 → slotLen r.dir i + 511 < 2 ^ 64 ∧ ∀ map, dev.blkread 1 = some map →
        slotClusters r.dir i % 2 ^ 32 = 0 ∨
          slotBlk r.dir i % 2 ^ 32 + slotClusters r.dir i % 2 ^ 32 ≤ 4096

theorem rsDelFile_exactly (name : CStr) (dev : Dev) :
    Exactly (rsDelFile name dev) (DelFits dev name) (RedSea.rsDelFile name dev) := by
  unfold rsDelFile RedSea.rsDelFile
  cases hdots : isDots name with
  | true =>
    simp only [if_true]
    exact (Exactly.pure _).congr (iff_of_true trivial fun h => by simp [hdots] at h) fun _ => rfl
  | false =>
  simp only [Bool.false_eq_true, if_false]
  refine Exactly.congr ((rsReadRoot_exactly dev).bindExcept (fun e hr => ?_) fun hroot r hr => ?_)
    ⟨fun h _ => h, fun h => h hdots⟩ fun _ => rfl
  · simp only [hr]
    exact Exactly.pure _
  simp only [hr]
  refine rsFindSlot_bind r.dir name (fun hfind => ?_) fun i hfind => ?_
  · simp only [hfind]
    exact Exactly.pure _
  simp only [hfind]
  by_cases h0 : slotBlk r.dir i = 0
  · rw [if_pos h0, if_pos h0]
    exact (Exactly.pure _).congr (iff_of_true trivial fun h => absurd h0 h) fun _ => rfl
  rw [if_neg h0, if_neg h0]
  refine Exactly.congr ((add64_exactly (slotLen r.dir i) 511).bind fun hsum => ?_)
    ⟨fun h _ => h, fun h => h h0⟩ fun _ => rfl
  have hclus : max 1 ((slotLen r.dir i + 511) / 512) = slotClusters r.dir i := by
    rw [slotClusters, clusters_eq hsum]
  rw [hclus]
  refine Exactly.congr ((blkread_exactly dev 1).bindOption (fun hmap => ?_) fun _ map hmap => ?_)
    (and_iff_right (by norm_num)) fun _ => rfl
  · simp only [hmap]
    exact Exactly.pure _
  simp only [hmap]
  refine Exactly.congr ((freeLoop_exactly map (slotBlk r.dir i) _).bind (Q := True) fun _ => ?_)
    ((and_iff_left trivial).trans (run_in_map (word64_lt _ _))) fun _ => rfl
  have hi := i.isLt
  rw [slotClusters]
  refine (blkwrite_exactly dev 1 _).step (by norm_num) ?_
  rcases dev.blkwrite 1 (freeRun map (slotBlk r.dir i)
    (max 1 (clusters (slotLen r.dir i)) % 2 ^ 32)) with ⟨_ | _, dev1⟩
  · exact Exactly.pure _
  dsimp only
  refine (dirPut_exactly r.dir (i * 64) _).step (by rw [List.length_replicate]; omega) ?_
  refine (blkwrite_exactly dev1 r.root _).step (hroot.of_read hr) ?_
  rw [clearSlot]
  rcases dev1.blkwrite r.root _ with ⟨_ | _, dev2⟩
  · exact Exactly.pure _
  · exact Exactly.pure _

/-- `rs_rename_file` stays inside: the boot block and the directory are harmless. -/
def RenameFits (dev : Dev) (oldn newn : CStr) : Prop :=
  isDots oldn = false → 0 < newn.bytes.length → newn.bytes.length ≤ 37 →
    RootFits dev ∧ ∀ r, RedSea.rsReadRoot dev = .ok r → FindFits r.dir oldn.bytes

theorem nameTaken_exactly (dir : Sector) (oldn : CStr) {newn : CStr}
    (h : newn.bytes.length ≤ 37) :
    Exactly (nameTaken dir oldn newn) True (decide (strIeq oldn.bytes newn.bytes = false ∧
      (RedSea.rsFindSlot dir newn.bytes).isSome)) := by
  rw [nameTaken]
  refine Exactly.ite (fun hsame => ?_) fun hother => ?_
  · refine (Exactly.pure false).congr Iff.rfl fun _ => ?_
    rw [hsame]
    simp
  · refine (rsFindSlot_exactly dir newn).step (findFits_of_length h) ?_
    refine (Exactly.pure _).congr Iff.rfl fun _ => ?_
    rw [Option.isSome_map, Bool.eq_false_of_not_eq_true hother]
    simp

theorem rsRenameFile_exactly (oldn newn : CStr) (dev : Dev) :
    Exactly (rsRenameFile oldn newn dev) (RenameFits dev oldn newn)
      (RedSea.rsRenameFile oldn newn dev) := by
  unfold rsRenameFile RedSea.rsRenameFile
  cases hdots : isDots oldn with
  | true =>
    simp only [if_true]
    exact (Exactly.pure _).congr (iff_of_true trivial fun h => by simp [hdots] at h) fun _ => rfl
  | false =>
  simp only [Bool.false_eq_true, if_false]
  by_cases hargs : newn.bytes.length = 0 ∨ newn.bytes.length > 37
  · rw [if_pos hargs, if_pos hargs]
    exact (Exactly.pure _).congr (iff_of_true trivial fun _ h0 hlen => by omega) fun _ => rfl
  rw [if_neg hargs, if_neg hargs]
  obtain ⟨h0, hlen⟩ : 0 < newn.bytes.length ∧ newn.bytes.length ≤ 37 := by omega
  refine Exactly.congr ((rsReadRoot_exactly dev).bindExcept (fun e hr => ?_) fun hroot r hr => ?_)
    ⟨fun h _ _ _ => h, fun h => h hdots h0 hlen⟩ fun _ => rfl
  · simp only [hr]
    exact Exactly.pure _
  simp only [hr]
  refine Exactly.congr (rsFindSlot_bind r.dir oldn (Q := fun _ => True) (fun hfind => ?_)
    fun i hfind => ?_) ⟨fun h => h.1, fun h => ⟨h, fun _ _ => trivial⟩⟩ fun _ => rfl
  · simp only [hfind]
    exact Exactly.pure _
  simp only [hfind]
  have hi := i.isLt
  refine (nameTaken_exactly r.dir oldn hlen).step trivial (Exactly.ite (fun htaken => ?_)
    fun hfree => ?_)
  · rw [if_pos (of_decide_eq_true htaken)]
    exact Exactly.pure _
  · rw [if_neg fun h => hfree (decide_eq_true h)]
    refine (dirPut_exactly _ _ _).step (by rw [List.length_replicate]; omega) ?_
    refine (dirPut_exactly _ _ _).step
      (by rw [List.length_append, List.length_singleton]; omega) ?_
    refine (blkwrite_exactly dev r.root _).step (hroot.of_read hr) ?_
    rw [setName]
    rcases dev.blkwrite r.root _ with ⟨_ | _, dev1⟩
    · exact Exactly.pure _
    · exact Exactly.pure _

/-! ## Listing -/

theorem nameLenLoop_returns (dir : Sector) (i : Fin 8) (h : n ≤ 38) :
    Returns (nameLenLoop dir i n) (· ≤ 38) := by
  have hi := i.isLt
  generalize hleft : 38 - n = left
  induction left generalizing n with
  | zero =>
    rw [nameLenLoop, if_neg (by omega)]
    exact Returns.pure h
  | succ left ih =>
    rw [nameLenLoop, if_pos (by omega)]
    exact ((dirGet_exactly dir _).returns (by omega)).bind fun c _ =>
      Returns.ite (fun _ => Returns.pure h) fun _ => ih (by omega) (by omega)

theorem nameBytes_returns (dir : Sector) (i : Fin 8) (h : j + n ≤ 38) :
    Returns (nameBytes dir i j n) (·.length = n) := by
  have hi := i.isLt
  induction n generalizing j with
  | zero => exact Returns.pure rfl
  | succ n ih =>
    exact ((dirGet_exactly dir _).returns (by omega)).bind fun c _ =>
      (ih (by omega)).bind fun rest hrest => Returns.pure (congrArg (· + 1) hrest)

/-- One slot of the listing is read without harm, whatever it holds. -/
theorem fileAtSlot_returns (sectors : ℕ) (dir : Sector) (i : Fin 8) (m : Machine) :
    Returns (fileAtSlot sectors dir i m) fun _ => True := by
  have hi := i.isLt
  have hnone : ∀ m, Returns (.ok (none, m) : Except Fault (Option (List UInt8 × ℕ) × Machine))
      fun _ => True := fun m => Returns.pure trivial
  refine ((dirGet_exactly dir _).returns (by omega)).bind fun kind _ =>
    ((dirGet_exactly dir _).returns (by omega)).bind fun first _ =>
    Returns.ite (fun _ => hnone m) fun _ => ?_
  refine (nameLenLoop_returns dir i (Nat.zero_le _)).bind fun nameLen hlen =>
    Returns.ite (fun _ => hnone m) fun _ => ?_
  refine (nameBytes_returns dir i (by omega)).bind fun name _ =>
    Returns.ite (fun _ => hnone m) fun _ => ?_
  refine ((dirWord_exactly dir _).returns (by omega)).bind fun blk _ =>
    ((dirWord_exactly dir _).returns (by omega)).bind fun length _ =>
    Returns.ite (fun _ => hnone m) fun hsane => ?_
  refine ((add64_exactly _ _).returns (by omega)).bind fun total _ =>
    Returns.ite (fun _ => hnone m) fun _ => ?_
  exact Returns.ite (fun _ => hnone _) fun _ => Returns.pure trivial

theorem fileAtLoop_returns (sectors : ℕ) (dir : Sector) (cap : ℕ) (slots : List (Fin 8))
    (wanted : ℕ) (m : Machine) :
    Returns (fileAtLoop sectors dir cap slots wanted m) fun _ => True := by
  induction slots generalizing wanted m with
  | nil => exact Returns.pure trivial
  | cons i slots ih =>
    refine (fileAtSlot_returns sectors dir i m).bind fun found _ => ?_
    obtain ⟨_ | ⟨name, length⟩, m'⟩ := found
    · exact ih wanted m'
    · cases wanted with
      | succ wanted => exact ih wanted m'
      | zero =>
        refine Returns.ite (fun _ => Returns.pure trivial) fun hfits => ?_
        exact ((need_exactly _).returns fun j hj => by omega).bind fun _ _ => Returns.pure trivial

/-- `zeal_redsea_file_at` stays inside: the boot block is harmless. -/
def ListFits (dev : Dev) (cap : ℕ) (m : Machine) : Prop :=
  m.vb.ready = true → 2 ≤ cap → RootFits dev

theorem zealRedseaFileAt_isOk_iff (dev : Dev) (index cap : ℕ) (m : Machine) :
    (∃ a, zealRedseaFileAt dev index cap m = .ok a) ↔ ListFits dev cap m := by
  unfold zealRedseaFileAt
  by_cases hargs : m.vb.ready = false ∨ cap < 2
  · rw [if_pos hargs]
    refine iff_of_true ⟨_, rfl⟩ fun hready hcap => ?_
    rcases hargs with hno | hsmall
    · rw [hready] at hno
      cases hno
    · omega
  rw [if_neg hargs]
  obtain ⟨hready, hcap⟩ := not_or.1 hargs
  constructor
  · rintro ⟨a, ha⟩ - -
    by_contra hno
    obtain ⟨e, he⟩ := (rsReadRoot_exactly dev).error hno
    rw [he] at ha
    cases ha
  · intro hfits
    have hroot := hfits (Bool.eq_true_of_not_eq_false hready) (Nat.not_lt.1 hcap)
    refine Exists.imp (fun a ha => ha.1)
      (((rsReadRoot_exactly dev).returns hroot).bind (S := fun _ => True) fun r _ => ?_)
    cases r with
    | error e => exact Returns.pure trivial
    | ok r => exact fileAtLoop_returns r.sects r.dir cap _ index m

/-! ## All of them -/

/-- **The operations stay in bounds on exactly the harmless disks.**  A load may also be asked
for a name that runs into the end of the directory, a put may find an old run whose end wraps,
and a deletion may find clusters that have no bit in the map. -/
theorem redsea_in_bounds_iff (dev : Dev) (m : Machine) (name newn : CStr) (src : List UInt8)
    (cap index : ℕ) :
    ((∃ a, rsLoadFile dev name cap = .ok a) ↔ LoadFits dev name cap) ∧
      ((∃ a, rsPutFile name src dev = .ok a) ↔ PutFits dev name src) ∧
      ((∃ a, rsDelFile name dev = .ok a) ↔ DelFits dev name) ∧
      ((∃ a, rsRenameFile name newn dev = .ok a) ↔ RenameFits dev name newn) ∧
      ((∃ a, zealRedseaFileAt dev index cap m = .ok a) ↔ ListFits dev cap m) :=
  ⟨(rsLoadFile_exactly dev name cap).isOk_iff, (rsPutFile_exactly name src dev).isOk_iff,
    (rsDelFile_exactly name dev).isOk_iff, (rsRenameFile_exactly name newn dev).isOk_iff,
    zealRedseaFileAt_isOk_iff dev index cap m⟩

local instance eightFiles : NeZero 8 := ⟨by decide⟩

theorem farName_terminated : (0 : UInt8) ∉ [65] := by decide

/-- The name `A`. -/
def farName : CStr := ⟨[65], farName_terminated⟩

/-- A volume whose one file starts at cluster 5000. -/
def farDev : Dev where
  capacity := 128
  disk := fun blk =>
    if blk = 0 then bootBlock 16 1
    else if blk = 2 then setExtent (setName zeroSector 0 farName.bytes) 0 5000 1
    else zeroSector
  fails := fun _ => false
  writes := 0

/-- A disk whose boot block puts the root at the last block of all. -/
def lastRootDev : Dev where
  capacity := 128
  disk := fun _ => setWord64 (bootBlock 16 1) 24 (2 ^ 64 - 1)
  fails := fun _ => false
  writes := 0

/-- Deleting the file touches byte 625 of the 512 of the map, and the root of the other disk
passes the bound check of `hc_builtin_blkread` because its number plus one is zero. -/
theorem redsea_out_of_bounds : faultOf (rsDelFile farName farDev) = some (.map 625) ∧
    faultOf (rsLoadFile lastRootDev farName 100) = some (.wrap (2 ^ 64 - 1) 1) := by
  decide +kernel

end ZealBringup.RedSea.Watched
