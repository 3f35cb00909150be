import Mathlib.Data.List.GetD
import ZealBringup.Lib.Glob

/-!
# File masks

`BootstrapFileMaskOne` and `FilesFindMatch` of `TaskBridge.ZC`: a name is compared with a mask from
left to right; a mismatch goes back to the last star of the mask, which then takes one byte more.

* `bootstrapFileMaskOne`, `filesFindMatch` — the functions; the loop ends because a star never takes
  more than the name has.
* `maskSym` — what the bytes of a mask stand for.
* `masks_glob` — the functions agree with the meaning of the masks, for every name without a star.
-/

namespace ZealBringup.Bridge

open Glob

/-! ## The code -/

/-- A `U8 *`: the bytes before the NUL. -/
structure U8Str where
  bytes : List UInt8
  nul : 0 ∉ bytes

/-- The byte at an index up to the NUL. -/
def U8Str.at (s : U8Str) (i : ℕ) : UInt8 := s.bytes.getD i 0

/-- `ch -= 'a' - 'A'` of a small letter. -/
def upCase (ch : UInt8) : UInt8 := if 97 ≤ ch ∧ ch ≤ 122 then ch - 32 else ch

/-- `ni`, `mi`, `star` and `retry`; a star takes what lies before `retry`. -/
structure MaskState where
  ni : ℕ
  mi : ℕ
  star : Option ℕ
  retry : ℕ
  retry_le : retry ≤ ni

theorem U8Str.at_ne_zero_iff (s : U8Str) {i : ℕ} : s.at i ≠ 0 ↔ i < s.bytes.length := by
  unfold U8Str.at
  constructor
  · intro h
    by_contra hge
    exact h (List.getD_eq_default _ _ (Nat.le_of_not_lt hge))
  · intro h h0
    rw [List.getD_eq_getElem _ _ h] at h0
    exact s.nul (h0 ▸ List.getElem_mem h)

theorem U8Str.lt_of_at_eq (s : U8Str) {i : ℕ} {c : UInt8} (h : s.at i = c) (hc : c ≠ 0) :
    i < s.bytes.length := s.at_ne_zero_iff.mp (h ▸ hc)

/-- `while (mask[mi] == '*') mi++;` -/
def skipStars (mask : U8Str) (mi : ℕ) : ℕ :=
  if mask.at mi = 42 then skipStars mask (mi + 1) else mi
termination_by mask.bytes.length - mi
decreasing_by
  have hlt := mask.lt_of_at_eq (by assumption) (by decide)
  omega

/-- The loop of `BootstrapFileMaskOne`, and the end after it. -/
def maskLoop (name mask : U8Str) (st : MaskState) : Bool :=
  if name.at st.ni ≠ 0 then
    let ch1 := upCase (name.at st.ni)
    let ch2 := upCase (mask.at st.mi)
    if ch2 = 63 ∨ ch1 = ch2 then
      maskLoop name mask ⟨st.ni + 1, st.mi + 1, st.star, st.retry, Nat.le_succ_of_le st.retry_le⟩
    else if mask.at st.mi = 42 then
      maskLoop name mask ⟨st.ni, st.mi + 1, some st.mi, st.ni, le_refl st.ni⟩
    else
      match st.star with
      | some star =>
        maskLoop name mask ⟨st.retry + 1, star + 1, some star, st.retry + 1, le_refl _⟩
      | none => false
  else mask.at (skipStars mask st.mi) = 0
termination_by (name.bytes.length - st.retry,
  name.bytes.length - st.ni + (mask.bytes.length - st.mi))
decreasing_by
  all_goals
    have hni := name.at_ne_zero_iff.mp (by assumption)
    have hretry := st.retry_le
  · apply Prod.Lex.right
    omega
  · have hmi := mask.lt_of_at_eq (by assumption) (by decide)
    rcases Nat.eq_or_lt_of_le hretry with heq | hlt
    · rw [heq]
      apply Prod.Lex.right
      omega
    · apply Prod.Lex.left
      omega
  · apply Prod.Lex.left
    omega

def bootstrapFileMaskOne (name mask : U8Str) : Bool :=
  maskLoop name mask ⟨0, 0, none, 0, le_refl 0⟩

/-- `StrNew(files_find_mask + start)` with a NUL put at `i - start`. -/
def U8Str.slice (s : U8Str) (start i : ℕ) : U8Str where
  bytes := (s.bytes.drop start).take (i - start)
  nul h := s.nul (List.mem_of_mem_drop (List.mem_of_mem_take h))

/-- The loop of `FilesFindMatch`. -/
def findMatchFrom (testName filesFindMask : U8Str) (start i : ℕ) : Bool :=
  let ch := filesFindMask.at i
  if ch = 59 ∨ ch = 0 then
    if start < i && bootstrapFileMaskOne testName (filesFindMask.slice start i) then true
    else if ch = 0 then false
    else findMatchFrom testName filesFindMask (i + 1) (i + 1)
  else findMatchFrom testName filesFindMask start (i + 1)
termination_by filesFindMask.bytes.length - i
decreasing_by
  all_goals
    have hch : filesFindMask.at i ≠ 0 := by
      first
      | assumption
      | exact fun h0 => absurd (Or.inr h0) (by assumption)
    have hlt := filesFindMask.at_ne_zero_iff.mp hch
    omega

/-- The flags are not read. -/
def filesFindMatch (testName filesFindMask : Option U8Str) (_fufFlags : Int64) : Bool :=
  match testName, filesFindMask with
  | some testName, some filesFindMask => findMatchFrom testName filesFindMask 0 0
  | _, _ => false

/-! ## The meaning of a mask -/

/-- What a byte of a mask stands for. -/
def maskSym (c : UInt8) : Sym UInt8 :=
  if c = 42 then .star
  else if c = 63 then .one fun _ => true
  else .one fun a => upCase a = upCase c

/-- A name is one that a mask describes. -/
def MaskMatches (mask name : List UInt8) : Prop := Matches (mask.map maskSym) name

/-- What is not a letter is not folded, and nothing is folded to it. -/
theorem upCase_eq_iff {c d : UInt8} (hd : d < 65) : upCase c = d ↔ c = d := by
  unfold upCase
  split
  · rename_i hsmall
    have hlow : 97 ≤ c.toNat := UInt8.le_iff_toNat_le.mp hsmall.1
    have hd' : d.toNat < 65 := UInt8.lt_iff_toNat_lt.mp hd
    have hsub : (c - 32).toNat = c.toNat - 32 := by
      apply UInt8.toNat_sub_of_le
      rw [UInt8.le_iff_toNat_le]
      exact Nat.le_trans (by decide) hlow
    constructor
    · rintro rfl
      omega
    · rintro rfl
      omega
  · rfl

/-! ## One step of the loop -/

section Step

variable {name mask : U8Str} {ni mi : ℕ}

/-- The symbols of a mask. -/
abbrev U8Str.syms (mask : U8Str) : List (Sym UInt8) := mask.bytes.map maskSym

theorem drop_name (h : name.at ni ≠ 0) :
    name.bytes.drop ni = name.at ni :: name.bytes.drop (ni + 1) := by
  have hlt := name.at_ne_zero_iff.mp h
  rw [List.drop_eq_getElem_cons hlt, U8Str.at, List.getD_eq_getElem _ _ hlt]

theorem drop_name_end (h : name.at ni = 0) : name.bytes.drop ni = [] := by
  apply List.drop_eq_nil_of_le
  by_contra hlt
  exact name.at_ne_zero_iff.mpr (Nat.lt_of_not_le hlt) h

theorem drop_syms (h : mask.at mi ≠ 0) :
    mask.syms.drop mi = maskSym (mask.at mi) :: mask.syms.drop (mi + 1) := by
  rw [← List.map_drop, ← List.map_drop, drop_name h, List.map_cons]

theorem drop_syms_end (h : mask.at mi = 0) : mask.syms.drop mi = [] := by
  rw [← List.map_drop, drop_name_end h, List.map_nil]

theorem drop_syms_star (h : mask.at mi = 42) :
    mask.syms.drop mi = .star :: mask.syms.drop (mi + 1) := by
  rw [drop_syms (by rw [h]; decide), h]
  rfl

/-- The stars at the end of a mask do not count. -/
theorem skipStars_iff : mask.at (skipStars mask mi) = 0 ↔ Matches (mask.syms.drop mi) [] := by
  induction mi using skipStars.induct mask with
  | case1 mi hstar ih =>
    rw [skipStars.eq_def, if_pos hstar, ih, drop_syms_star hstar, matches_star_nil]
  | case2 mi hstar =>
    rw [skipStars.eq_def, if_neg hstar]
    constructor
    · intro h
      rw [drop_syms_end h, matches_nil]
    · intro h
      by_contra hne
      rw [drop_syms hne, maskSym, if_neg hstar] at h
      split at h <;> exact matches_one_nil h

/-- A byte of the mask and a byte of the name that agree. -/
theorem step_of_agree (hname : name.at ni ≠ 0) (hstar : name.at ni ≠ 42)
    (h : upCase (mask.at mi) = 63 ∨ upCase (name.at ni) = upCase (mask.at mi)) :
    (∃ test, mask.syms.drop mi = .one test :: mask.syms.drop (mi + 1)) ∧
      (Matches (mask.syms.drop mi) (name.bytes.drop ni) ↔
        Matches (mask.syms.drop (mi + 1)) (name.bytes.drop (ni + 1))) := by
  rw [upCase_eq_iff (by decide)] at h
  have hne : mask.at mi ≠ 0 := by
    intro h0
    rcases h with h | h
    · exact absurd (h0.symm.trans h) (by decide)
    · rw [h0, upCase_eq_iff (by decide)] at h
      exact hname h
  have hnot : mask.at mi ≠ 42 := by
    intro h42
    rcases h with h | h
    · exact absurd (h42.symm.trans h) (by decide)
    · rw [h42, upCase_eq_iff (by decide)] at h
      exact hstar h
  rw [drop_syms hne, drop_name hname, maskSym, if_neg hnot]
  split
  · exact ⟨⟨_, rfl⟩, by simp⟩
  · rename_i hquest
    have heq := h.resolve_left hquest
    exact ⟨⟨_, rfl⟩, by simp [heq]⟩

/-- A byte of the mask that is no star and does not agree. -/
theorem not_matches_of_disagree (hname : name.at ni ≠ 0) (hstar : mask.at mi ≠ 42)
    (h : ¬ (upCase (mask.at mi) = 63 ∨ upCase (name.at ni) = upCase (mask.at mi))) :
    ¬ Matches (mask.syms.drop mi) (name.bytes.drop ni) := by
  rw [upCase_eq_iff (by decide), not_or] at h
  rw [drop_name hname]
  by_cases hmask : mask.at mi = 0
  · rw [drop_syms_end hmask, matches_nil]
    exact List.cons_ne_nil _ _
  · rw [drop_syms hmask, maskSym, if_neg hstar, if_neg h.1]
    simp [h.2]

end Step

/-! ## The loop -/

/-- What a state of the loop has settled: without a star the rest is open; behind a star its part
without stars lies at `retry`, and the places from there on are open. -/
def Searching (P : List (Sym UInt8)) (s : List UInt8) (st : MaskState) : Prop :=
  match st.star with
  | none => Matches P s ↔ Matches (P.drop st.mi) (s.drop st.ni)
  | some star => (Matches P s ↔ ∃ k ≥ st.retry, Matches (P.drop (star + 1)) (s.drop k)) ∧
      (Matches (P.drop (star + 1)) (s.drop st.retry) ↔
        Matches (P.drop st.mi) (s.drop st.ni)) ∧
      ∃ F, P.drop (star + 1) = F ++ P.drop st.mi ∧ StarFree F ∧ st.ni = st.retry + F.length

section Run

variable {name mask : U8Str} {st : MaskState}

theorem Searching.agree (h : Searching mask.syms name.bytes st) (hname : name.at st.ni ≠ 0)
    (hstar : name.at st.ni ≠ 42)
    (hch : upCase (mask.at st.mi) = 63 ∨ upCase (name.at st.ni) = upCase (mask.at st.mi)) :
    Searching mask.syms name.bytes
      ⟨st.ni + 1, st.mi + 1, st.star, st.retry, Nat.le_succ_of_le st.retry_le⟩ := by
  obtain ⟨⟨test, hcons⟩, hstep⟩ := step_of_agree hname hstar hch
  unfold Searching at h ⊢
  cases hst : st.star with
  | none =>
    simp only [hst] at h ⊢
    exact h.trans hstep
  | some star =>
    simp only [hst] at h ⊢
    obtain ⟨hopen, hhere, F, hF, hfree, hni⟩ := h
    refine ⟨hopen, hhere.trans hstep, F ++ [.one test], ?_, ?_, ?_⟩
    · rw [hF, hcons, List.append_assoc, List.singleton_append]
    · intro x hx
      rw [List.mem_append, List.mem_singleton] at hx
      rcases hx with hx | rfl
      · exact hfree x hx
      · exact ⟨test, rfl⟩
    · rw [List.length_append, List.length_singleton, hni, Nat.add_assoc]

theorem Searching.nextStar (h : Searching mask.syms name.bytes st) (hstar : mask.at st.mi = 42) :
    Searching mask.syms name.bytes ⟨st.ni, st.mi + 1, some st.mi, st.ni, le_refl st.ni⟩ := by
  have hcons := drop_syms_star hstar
  have hopen : Matches mask.syms name.bytes ↔
      ∃ k ≥ st.ni, Matches (mask.syms.drop (st.mi + 1)) (name.bytes.drop k) := by
    unfold Searching at h
    cases hst : st.star with
    | none =>
      simp only [hst] at h
      rw [h, hcons, matches_star_drop]
    | some star =>
      simp only [hst] at h
      obtain ⟨hopen, hhere, F, hF, hfree, hni⟩ := h
      rw [hcons] at hF hhere
      rw [hni] at hhere ⊢
      exact hopen.trans (later_star hF hfree hhere)
  exact ⟨hopen, Iff.rfl, [], rfl, fun x hx => absurd hx List.not_mem_nil, rfl⟩

theorem Searching.backtrack {star : ℕ} (h : Searching mask.syms name.bytes st)
    (hst : st.star = some star)
    (hnot : ¬ Matches (mask.syms.drop st.mi) (name.bytes.drop st.ni)) :
    Searching mask.syms name.bytes
      ⟨st.retry + 1, star + 1, some star, st.retry + 1, le_refl _⟩ := by
  unfold Searching at h
  simp only [hst] at h
  obtain ⟨hopen, hhere, -⟩ := h
  have hlater := later_succ (mt hhere.mp hnot)
  exact ⟨hopen.trans hlater, Iff.rfl, [], rfl, fun x hx => absurd hx List.not_mem_nil, rfl⟩

theorem Searching.finish (h : Searching mask.syms name.bytes st) (hname : name.at st.ni = 0) :
    Matches mask.syms name.bytes ↔ Matches (mask.syms.drop st.mi) [] := by
  have hend := drop_name_end hname
  unfold Searching at h
  cases hst : st.star with
  | none =>
    simp only [hst] at h
    rw [h, hend]
  | some star =>
    simp only [hst] at h
    obtain ⟨hopen, hhere, F, hF, hfree, hni⟩ := h
    rw [hend] at hhere
    rw [List.drop_eq_nil_iff, hni] at hend
    exact hopen.trans (later_end hF hfree hend hhere)

/-- **The loop decides what is open.** -/
theorem maskLoop_iff (hname : 42 ∉ name.bytes) (h : Searching mask.syms name.bytes st) :
    maskLoop name mask st = true ↔ Matches mask.syms name.bytes := by
  have hbyte (i : ℕ) : name.at i ≠ 42 := by
    intro h42
    have hlt := name.lt_of_at_eq h42 (by decide)
    rw [U8Str.at, List.getD_eq_getElem _ _ hlt] at h42
    exact hname (h42 ▸ List.getElem_mem hlt)
  induction st using maskLoop.induct name mask with
  | case1 st hni ch1 ch2 hch ih =>
    rw [maskLoop.eq_def, if_pos hni, if_pos hch]
    exact ih (h.agree hni (hbyte st.ni) hch)
  | case2 st hni ch1 ch2 hch hstar ih =>
    rw [maskLoop.eq_def, if_pos hni, if_neg hch, if_pos hstar]
    exact ih (h.nextStar hstar)
  | case3 st hni ch1 ch2 hch hstar star hst ih =>
    rw [maskLoop.eq_def, if_pos hni, if_neg hch, if_neg hstar]
    simp only [hst]
    exact ih (h.backtrack hst (not_matches_of_disagree hni hstar hch))
  | case4 st hni ch1 ch2 hch hstar hst =>
    rw [maskLoop.eq_def, if_pos hni, if_neg hch, if_neg hstar]
    have hnot := not_matches_of_disagree hni hstar hch
    unfold Searching at h
    simp only [hst] at h ⊢
    simp [h, hnot]
  | case5 st hni =>
    rw [maskLoop.eq_def, if_neg hni, decide_eq_true_iff, skipStars_iff]
    exact (h.finish (not_not.mp hni)).symm

/-- **A mask describes a name exactly when the function says so.** -/
theorem maskOne_iff (hname : 42 ∉ name.bytes) :
    bootstrapFileMaskOne name mask = true ↔ MaskMatches mask.bytes name.bytes :=
  maskLoop_iff hname Iff.rfl

end Run

/-! ## The list of masks -/

section FindMatch

variable {name files : U8Str} {start i : ℕ}

/-- A mask of the list that describes the name. -/
def SomeMatches (masks name : List UInt8) : Prop :=
  ∃ e ∈ masks.splitOn 59, e ≠ [] ∧ MaskMatches e name

theorem someMatches_last {seg : List UInt8} (hseg : 59 ∉ seg) (name : List UInt8) :
    SomeMatches seg name ↔ seg ≠ [] ∧ MaskMatches seg name := by
  unfold SomeMatches
  rw [List.splitOn_eq_singleton hseg]
  simp

theorem someMatches_cons {seg : List UInt8} (hseg : 59 ∉ seg) (rest name : List UInt8) :
    SomeMatches (seg ++ 59 :: rest) name ↔
      (seg ≠ [] ∧ MaskMatches seg name) ∨ SomeMatches rest name := by
  unfold SomeMatches
  rw [List.splitOn_append_cons_self_of_not_mem hseg]
  simp

theorem U8Str.drop_eq_slice (hle : start ≤ i) :
    files.bytes.drop start = (files.slice start i).bytes ++ files.bytes.drop i := by
  have hdrop : files.bytes.drop i = (files.bytes.drop start).drop (i - start) := by
    rw [List.drop_drop, Nat.add_sub_cancel' hle]
  rw [hdrop]
  exact (List.take_append_drop _ _).symm

theorem U8Str.slice_succ (hle : start ≤ i) (h : files.at i ≠ 0) :
    (files.slice start (i + 1)).bytes = (files.slice start i).bytes ++ [files.at i] := by
  have hlt := files.at_ne_zero_iff.mp h
  have hlen : i - start < (files.bytes.drop start).length := by
    rw [List.length_drop]
    omega
  simp only [U8Str.slice, Nat.succ_sub hle]
  rw [List.take_succ_eq_append_getElem hlen, List.getElem_drop, U8Str.at,
    List.getD_eq_getElem _ _ hlt]
  simp only [Nat.add_sub_cancel' hle]

/-- The test of one mask. -/
theorem test_iff (hname : 42 ∉ name.bytes) (hlen : i ≤ files.bytes.length) :
    (start < i && bootstrapFileMaskOne name (files.slice start i)) = true ↔
      (files.slice start i).bytes ≠ [] ∧ MaskMatches (files.slice start i).bytes name.bytes := by
  have hnonempty : (files.slice start i).bytes ≠ [] ↔ start < i := by
    rw [← List.length_pos_iff]
    simp only [U8Str.slice, List.length_take, List.length_drop]
    omega
  rw [Bool.and_eq_true, decide_eq_true_iff, hnonempty, maskOne_iff hname]

/-- The loop, with no separator behind `start` passed yet. -/
theorem findMatchFrom_iff (hname : 42 ∉ name.bytes) (hle : start ≤ i)
    (hsep : 59 ∉ (files.slice start i).bytes) (hlen : i ≤ files.bytes.length) :
    findMatchFrom name files start i = true ↔ SomeMatches (files.bytes.drop start) name.bytes := by
  induction start, i using findMatchFrom.induct name files with
  | case1 start i ch hch htest =>
    rw [findMatchFrom.eq_def, if_pos hch, if_pos htest, files.drop_eq_slice hle]
    have hseg := (test_iff hname hlen).mp htest
    rcases hch with h59 | h0
    · change files.at i = 59 at h59
      rw [drop_name (by rw [h59]; decide), h59, someMatches_cons hsep]
      simp [hseg]
    · rw [drop_name_end h0, List.append_nil, someMatches_last hsep]
      simp [hseg]
  | case2 start i ch hch htest h0 =>
    rw [findMatchFrom.eq_def, if_pos hch, if_neg htest, if_pos h0, files.drop_eq_slice hle,
      drop_name_end h0, List.append_nil, someMatches_last hsep, ← test_iff hname hlen]
    simp [htest]
  | case3 start i ch hch htest h0 ih =>
    have h59 : files.at i = 59 := hch.resolve_right h0
    have hlt := files.at_ne_zero_iff.mp h0
    have hrest := ih (le_refl _) (by simp [U8Str.slice]) hlt
    rw [findMatchFrom.eq_def, if_pos hch, if_neg htest, if_neg h0, hrest, files.drop_eq_slice hle,
      drop_name h0, h59, someMatches_cons hsep, ← test_iff hname hlen]
    simp [htest]
  | case4 start i ch hch ih =>
    rw [not_or] at hch
    have hlt := files.at_ne_zero_iff.mp hch.2
    rw [findMatchFrom.eq_def, if_neg (not_or.mpr hch)]
    apply ih (Nat.le_succ_of_le hle) _ hlt
    rw [U8Str.slice_succ hle hch.2, List.mem_append, List.mem_singleton, not_or]
    exact ⟨hsep, Ne.symm hch.1⟩

/-- **File masks are globs.** For every name without a star the matcher says whether the mask
describes it, and the search in a list whether a mask of the list that is not empty does. -/
theorem masks_glob (name : U8Str) (hname : 42 ∉ name.bytes) :
    (∀ mask : U8Str, bootstrapFileMaskOne name mask = true ↔ MaskMatches mask.bytes name.bytes) ∧
      ∀ (masks : U8Str) (fufFlags : Int64),
        filesFindMatch (some name) (some masks) fufFlags = true ↔
          ∃ e ∈ masks.bytes.splitOn 59, e ≠ [] ∧ MaskMatches e name.bytes := by
  refine ⟨fun mask => maskLoop_iff hname Iff.rfl, fun masks fufFlags => ?_⟩
  exact findMatchFrom_iff hname (le_refl 0) (by simp [U8Str.slice]) (Nat.zero_le _)

/-- The name `a.c` and the masks `;*.C`. -/
theorem masks_glob_extension :
    filesFindMatch (some ⟨[97, 46, 99], by decide⟩) (some ⟨[59, 42, 46, 67], by decide⟩) 0 =
      true := by
  have h := (masks_glob ⟨[97, 46, 99], by decide⟩ (by decide)).2 ⟨[59, 42, 46, 67], by decide⟩ 0
  refine h.mpr ⟨[42, 46, 67], by decide, by decide, 1, ?_⟩
  simp [maskSym, upCase]

end FindMatch

end ZealBringup.Bridge
