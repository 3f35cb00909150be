import ZealBringup.Lib.Crc
import ZealBringup.Store.Host

/-!
# Checksums and names, twice

The guest and the host were written apart.  Two of the things both of them do are
pure functions of bytes: the checksum, bit by bit in C and from the table of
`zlib` in Python (`zlibCrc32_eq`), and the rules for a path, two loops over a C
string and a `split` (`zssNameOk_iff`, `validName_decodeAscii`).
-/

set_option maxRecDepth 10000

namespace ZealBringup.Store

/-! ## The checksum -/

/-- The polynomial both sides divide by. -/
def crcPoly : BitVec 32 := 0xedb88320#32

theorem and_one_eq (c : UInt32) : c &&& 1 = if c.toBitVec.getLsbD 0 then 1 else 0 := by
  refine UInt32.toBitVec_inj.1 ?_
  rw [UInt32.toBitVec_and]
  have h := @BitVec.and_one_eq_setWidth_ofBool_getLsbD 32 c.toBitVec
  rw [show (1 : UInt32).toBitVec = 1#32 from rfl, h]
  cases c.toBitVec.getLsbD 0 <;> rfl

theorem crcShift_toBitVec (c : UInt32) :
    (crcShift c).toBitVec = ReflectedCrc.shift crcPoly c.toBitVec := by
  rw [crcShift, ReflectedCrc.shift, and_one_eq]
  cases c.toBitVec.getLsbD 0 with
  | false =>
    show ((c >>> 1) ^^^ (0xedb88320 &&& (0 - 0))).toBitVec = c.toBitVec >>> 1
    rw [show (0xedb88320 &&& (0 - 0) : UInt32) = 0 by decide, UInt32.xor_zero]
    rfl
  | true =>
    show ((c >>> 1) ^^^ (0xedb88320 &&& (0 - 1))).toBitVec = (c.toBitVec >>> 1) ^^^ crcPoly
    rw [show (0xedb88320 &&& (0 - 1) : UInt32) = 0xedb88320 by decide, UInt32.toBitVec_xor]
    rfl

theorem zlibTableStep_toBitVec (c : UInt32) :
    (zlibTableStep c).toBitVec = ReflectedCrc.shift crcPoly c.toBitVec := by
  rw [zlibTableStep, ReflectedCrc.shift, and_one_eq]
  cases c.toBitVec.getLsbD 0 with
  | false => rfl
  | true =>
    show ((0xedb88320 : UInt32) ^^^ (c >>> 1)).toBitVec = (c.toBitVec >>> 1) ^^^ crcPoly
    rw [UInt32.toBitVec_xor, BitVec.xor_comm]
    rfl

theorem iterate_toBitVec {f : UInt32 → UInt32} {g : BitVec 32 → BitVec 32}
    (h : ∀ c, (f c).toBitVec = g c.toBitVec) (n : ℕ) (c : UInt32) :
    (f^[n] c).toBitVec = g^[n] c.toBitVec := by
  induction n generalizing c with
  | zero => rfl
  | succ n ih => rw [Function.iterate_succ_apply, Function.iterate_succ_apply, ih, h]

/-- The bit loop of the guest and the table of `zlib` take the same step. -/
theorem zssCrcStep_eq (crc : UInt32) (byte : UInt8) :
    zssCrcStep crc byte = zlibTable ((crc ^^^ byte.toUInt32) &&& 0xff) ^^^ (crc >>> 8) := by
  refine UInt32.toBitVec_inj.1 ?_
  have hbyte : byte.toUInt32.toBitVec >>> 8 = 0#32 := by
    refine BitVec.eq_of_toNat_eq ?_
    have hlt := byte.toNat_lt
    rw [BitVec.toNat_ushiftRight, UInt32.toNat_toBitVec, UInt8.toNat_toUInt32,
      Nat.shiftRight_eq_div_pow]
    exact Nat.div_eq_of_lt hlt
  have hrest : (crc ^^^ byte.toUInt32).toBitVec >>> 8 = crc.toBitVec >>> 8 := by
    rw [UInt32.toBitVec_xor, BitVec.ushiftRight_xor_distrib, hbyte, BitVec.xor_zero]
  calc (zssCrcStep crc byte).toBitVec
      = (ReflectedCrc.shift crcPoly)^[8] (crc ^^^ byte.toUInt32).toBitVec :=
        iterate_toBitVec crcShift_toBitVec 8 _
    _ = (ReflectedCrc.shift crcPoly)^[8] ((crc ^^^ byte.toUInt32).toBitVec &&& 255#32) ^^^
          (crc.toBitVec >>> 8) := by rw [ReflectedCrc.shift_iterate_eight, hrest]
    _ = (zlibTable ((crc ^^^ byte.toUInt32) &&& 0xff)).toBitVec ^^^ (crc >>> 8).toBitVec := by
        rw [zlibTable, iterate_toBitVec zlibTableStep_toBitVec]
        rfl

/-- **The guest computes the checksum of `zlib`.** -/
theorem zlibCrc32_eq (data : List UInt8) : zlibCrc32 data = zssCrc data := by
  rw [zlibCrc32, zssCrc, show zssCrcStep = fun crc byte =>
    zlibTable ((crc ^^^ byte.toUInt32) &&& 0xff) ^^^ (crc >>> 8) from
    funext fun crc => funext fun byte => zssCrcStep_eq crc byte]

/-! ## Names -/

/-- What a component of a path may not be. -/
def BadPart (part : List UInt8) : Prop := part = [] ∨ part = [46] ∨ part = [46, 46]

theorem splitOn_cons (c : UInt8) (cs : List UInt8) :
    (c :: cs).splitOn 47 =
      if c = 47 then [] :: cs.splitOn 47 else (cs.splitOn 47).modifyHead (c :: ·) := by
  unfold List.splitOn
  rw [List.splitOnP_cons_eq_if_modifyHead]
  simp only [beq_iff_eq]

theorem splitOn_ne_nil (cs : List UInt8) : cs.splitOn 47 ≠ [] := by
  unfold List.splitOn
  exact List.splitOnP_ne_nil _ _

/-- The first loop of `zss_name_ok` measures the components. -/
theorem zssNameScan_iff (s : List UInt8) (i segment : ℕ) (hi : i ≤ zssMaxName) :
    (∃ j seg', zssNameScan s i segment = some (j, seg') ∧ seg' ≠ 0) ↔
      i + s.length ≤ zssMaxName ∧ (∀ c ∈ s, NameByte c) ∧
        ∀ part rest, s.splitOn 47 = part :: rest → segment + part.length ≠ 0 ∧ ∀ p ∈ rest, p ≠ [] := by
  induction s generalizing i segment with
  | nil =>
    simp [zssNameScan, List.splitOn, hi]
  | cons c cs ih =>
    obtain ⟨part, rest, hsplit⟩ := List.exists_cons_of_ne_nil (splitOn_ne_nil cs)
    rw [zssNameScan]
    by_cases hbad : i + 1 > zssMaxName ∨ c < 33 ∨ c > 126 ∨ c = 58 ∨ c = 92
    · rw [if_pos hbad]
      refine iff_of_false (by simp) ?_
      rintro ⟨h1, h2, -⟩
      have hc : NameByte c := h2 c (List.mem_cons_self ..)
      rw [List.length_cons] at h1
      rcases hbad with hb | hb | hb | hb | hb
      · omega
      · exact absurd hc.1 (UInt8.not_le.2 hb)
      · exact absurd hc.2.1 (UInt8.not_le.2 hb)
      · exact hc.2.2.1 hb
      · exact hc.2.2.2 hb
    · rw [if_neg hbad]
      simp only [not_or, not_lt, gt_iff_lt, UInt8.not_lt] at hbad
      have hc : NameByte c := ⟨hbad.2.1, hbad.2.2.1, hbad.2.2.2.1, hbad.2.2.2.2⟩
      have hlen : i + (c :: cs).length = i + 1 + cs.length := by rw [List.length_cons]; omega
      have hall : (∀ c' ∈ c :: cs, NameByte c') ↔ ∀ c' ∈ cs, NameByte c' := by simp [hc]
      rw [hlen, hall, splitOn_cons]
      by_cases hslash : c = 47
      · rw [if_pos hslash, if_pos hslash]
        by_cases hseg : segment = 0
        · rw [if_pos hseg]
          refine iff_of_false (by simp) ?_
          rintro ⟨-, -, h3⟩
          exact (h3 [] _ rfl).1 (by simp [hseg])
        · rw [if_neg hseg, ih _ _ hbad.1]
          simp only [hsplit, List.cons.injEq, and_imp]
          simp [hseg, List.length_eq_zero_iff]
      · rw [if_neg hslash, if_neg hslash, ih _ _ hbad.1]
        simp only [hsplit, List.modifyHead_cons, List.cons.injEq, and_imp]
        simp

/-- Splitting off the first component. -/
theorem splitOn_takeWhile (s : List UInt8) :
    s.splitOn 47 = s.takeWhile (· ≠ 47) ::
      if (47 : UInt8) ∈ s then (s.drop ((s.takeWhile (· ≠ 47)).length + 1)).splitOn 47 else [] := by
  induction s with
  | nil => simp [List.splitOn]
  | cons c cs ih =>
    rw [splitOn_cons]
    by_cases hc : c = 47
    · subst hc
      simp
    · have hc' : (47 : UInt8) ≠ c := fun h => hc h.symm
      rw [if_neg hc, ih, List.modifyHead_cons, List.takeWhile_cons_of_pos (by simpa using hc)]
      simp [hc']

/-- The second loop of `zss_name_ok` looks at every component. -/
theorem zssNoTraversal_iff (fuel : ℕ) (s : List UInt8) (hfuel : s.length ≤ fuel) :
    zssNoTraversal fuel s = true ↔ ∀ p ∈ s.splitOn 47, p ≠ [46] ∧ p ≠ [46, 46] := by
  induction fuel generalizing s with
  | zero =>
    have hs : s = [] := List.length_eq_zero_iff.1 (Nat.le_zero.1 hfuel)
    subst hs
    simp [zssNoTraversal, List.splitOn]
  | succ fuel ih =>
    rw [zssNoTraversal]
    by_cases hs : s = []
    · subst hs
      simp [List.splitOn]
    · rw [if_neg hs, splitOn_takeWhile]
      simp only
      by_cases hbad : s.takeWhile (· ≠ 47) = [46] ∨ s.takeWhile (· ≠ 47) = [46, 46]
      · rw [if_pos hbad]
        refine iff_of_false (by simp) fun h => ?_
        have hhead := h _ (List.mem_cons_self ..)
        rcases hbad with hb | hb
        · exact hhead.1 hb
        · exact hhead.2 hb
      · rw [if_neg hbad, ih _ (by rw [List.length_drop]; omega)]
        rw [not_or] at hbad
        by_cases hmem : (47 : UInt8) ∈ s
        · rw [if_pos hmem, List.forall_mem_cons]
          exact ⟨fun h => ⟨hbad, h⟩, fun h => h.2⟩
        · -- no separator left: the rest is empty
          have hall : s.takeWhile (· ≠ 47) = s := by
            refine List.takeWhile_eq_self_iff.2 fun c hc => ?_
            have hne : c ≠ 47 := fun he => hmem (by rw [← he]; exact hc)
            simpa using hne
          rw [if_neg hmem, hall, List.drop_eq_nil_of_le (Nat.le_succ _)]
          rw [hall] at hbad
          simpa [List.splitOn] using hbad

/-- **The paths the guest accepts.** -/
theorem zssNameOk_iff (s : List UInt8) :
    (zssNameOk s).isSome ↔ s ≠ [] ∧ s.length ≤ zssMaxName ∧ (∀ c ∈ s, NameByte c) ∧
      ∀ p ∈ s.splitOn 47, ¬BadPart p := by
  unfold zssNameOk
  by_cases hs : s = []
  · simp [hs]
  · rw [if_neg hs]
    have hscan := zssNameScan_iff s 0 0 (Nat.zero_le _)
    obtain ⟨part, rest, hsplit⟩ := List.exists_cons_of_ne_nil (splitOn_ne_nil s)
    have hparts : (∀ p ∈ s.splitOn 47, ¬BadPart p) ↔
        (∀ p ∈ s.splitOn 47, p ≠ []) ∧ ∀ p ∈ s.splitOn 47, p ≠ [46] ∧ p ≠ [46, 46] := by
      unfold BadPart
      constructor
      · intro h
        exact ⟨fun p hp he => h p hp (Or.inl he),
          fun p hp => ⟨fun he => h p hp (Or.inr (Or.inl he)), fun he => h p hp (Or.inr (Or.inr he))⟩⟩
      · rintro ⟨h1, h2⟩ p hp (he | he | he)
        · exact h1 p hp he
        · exact (h2 p hp).1 he
        · exact (h2 p hp).2 he
    have hnonempty : (∀ p ∈ s.splitOn 47, p ≠ []) ↔
        ∀ part rest, s.splitOn 47 = part :: rest → 0 + part.length ≠ 0 ∧ ∀ p ∈ rest, p ≠ [] := by
      rw [hsplit]
      simp only [List.forall_mem_cons, List.cons.injEq, and_imp]
      simp [List.length_eq_zero_iff]
    rw [hparts, hnonempty]
    rw [Nat.zero_add] at hscan
    cases hres : zssNameScan s 0 0 with
    | none =>
      rw [hres] at hscan
      simp only [Option.isSome_none, Bool.false_eq_true, false_iff]
      rintro ⟨-, h1, h2, h3, -⟩
      obtain ⟨j, seg, hj, -⟩ := hscan.2 ⟨h1, h2, h3⟩
      cases hj
    | some res =>
      obtain ⟨j, seg⟩ := res
      rw [hres] at hscan
      have hj : j = s.length := by rw [(zssNameScan_some hres).1, Nat.zero_add]
      simp only [Option.some.injEq, Prod.mk.injEq] at hscan
      simp only
      by_cases hseg : seg = 0
      · rw [if_pos hseg]
        refine iff_of_false (by simp) ?_
        rintro ⟨-, h1, h2, h3, -⟩
        obtain ⟨j', seg', ⟨-, rfl⟩, hne⟩ := hscan.2 ⟨h1, h2, h3⟩
        exact hne hseg
      · rw [if_neg hseg]
        obtain ⟨h1, h2, h3⟩ := hscan.1 ⟨j, seg, ⟨rfl, rfl⟩, hseg⟩
        have htrav := zssNoTraversal_iff j s (le_of_eq hj.symm)
        by_cases htr : zssNoTraversal j s = true
        · rw [if_pos htr]
          exact iff_of_true rfl ⟨hs, h1, h2, h3, htrav.1 htr⟩
        · rw [if_neg htr]
          exact iff_of_false (by simp) fun h => htr (htrav.2 h.2.2.2.2)

/-- The code points of an ASCII name. -/
def toPy (bytes : List UInt8) : PyStr := bytes.map UInt8.toNat

theorem toPy_injective : Function.Injective toPy :=
  List.map_injective_iff.2 fun _ _ h => UInt8.toNat_inj.1 h

theorem splitOn_toPy (s : List UInt8) : (toPy s).splitOn 47 = (s.splitOn 47).map toPy := by
  induction s with
  | nil => simp [toPy, List.splitOn]
  | cons c cs ih =>
    have hc : ∀ n : ℕ, c.toNat :: toPy cs = toPy (c :: cs) := fun _ => rfl
    rw [splitOn_cons]
    unfold toPy at ih ⊢
    unfold List.splitOn at ih ⊢
    rw [List.map_cons, List.splitOnP_cons_eq_if_modifyHead, ih]
    by_cases h47 : c = 47
    · subst h47
      simp
    · have hne : ¬((c.toNat == 47) = true) := by
        rw [beq_iff_eq]
        exact fun h => h47 (UInt8.toNat_inj.1 h)
      rw [if_neg h47, if_neg hne]
      obtain ⟨part, rest, hsplit⟩ := List.exists_cons_of_ne_nil (splitOn_ne_nil cs)
      unfold List.splitOn at hsplit
      rw [hsplit]
      rfl

theorem encodeAscii_toPy {bytes : List UInt8} (h : ∀ c ∈ bytes, c < 128) :
    encodeAscii (toPy bytes) = some bytes := by
  have hlt : ∀ c ∈ toPy bytes, c < 128 := by
    intro c hc
    obtain ⟨x, hx, rfl⟩ := List.mem_map.1 hc
    exact h x hx
  rw [encodeAscii, if_pos hlt, toPy, List.map_map, List.map_id'' fun c => ?_]
  exact UInt8.ofNat_toNat

theorem toPy_of_encodeAscii {name : PyStr} {bytes : List UInt8} (h : encodeAscii name = some bytes) :
    toPy bytes = name := by
  unfold encodeAscii at h
  split at h
  · rename_i hlt
    cases h
    rw [toPy, List.map_map]
    refine (List.map_congr_left fun c hc => ?_).trans (List.map_id name)
    have hc' := hlt c hc
    show (UInt8.ofNat c).toNat = c
    rw [UInt8.toNat_ofNat', Nat.mod_eq_of_lt (by omega)]
  · cases h

theorem ascii_of_zssNameOk {bytes : List UInt8} (h : (zssNameOk bytes).isSome) :
    ∀ c ∈ bytes, c < 128 := by
  have hbyte : ∀ c : UInt8, NameByte c → c < 128 := by decide
  exact fun c hc => hbyte c (((zssNameOk_iff bytes).1 h).2.2.1 c hc)

/-- **The two path rules are one.**  On the bytes of a header the host accepts what the
first test of the guest would accept if it were shown all of them. -/
theorem validName_decodeAscii (bytes : List UInt8) :
    ((∃ encoded, (decodeAscii bytes).map validName = some (.ok encoded)) ↔ (zssNameOk bytes).isSome) ∧
      ((zssNameOk bytes).isSome → decodeAscii bytes = some (toPy bytes) ∧
        validName (toPy bytes) = .ok bytes) := by
  have hgood : (zssNameOk bytes).isSome → decodeAscii bytes = some (toPy bytes) ∧
        validName (toPy bytes) = .ok bytes := by
    intro hok
    obtain ⟨hne, hlen, hbytes, hparts⟩ := (zssNameOk_iff bytes).1 hok
    have hascii := ascii_of_zssNameOk hok
    refine ⟨if_pos hascii, ?_⟩
    rw [validName, encodeAscii_toPy hascii]
    simp only
    rw [if_neg]
    rintro (h | h | ⟨part, hpart, h⟩ | ⟨c, hc, h⟩)
    · exact hne h
    · omega
    · rw [splitOn_toPy] at hpart
      obtain ⟨p, hp, rfl⟩ := List.mem_map.1 hpart
      refine hparts p hp ?_
      rcases h with h | h | h
      · exact Or.inl (toPy_injective h)
      · exact Or.inr (Or.inl (toPy_injective h))
      · exact Or.inr (Or.inr (toPy_injective h))
    · obtain ⟨h1, h2, h3, h4⟩ := hbytes c hc
      rcases h with h | h | h | h
      · exact absurd h1 (UInt8.not_le.2 h)
      · exact absurd h2 (UInt8.not_le.2 h)
      · exact h3 h
      · exact h4 h
  refine ⟨⟨?_, fun hok => ?_⟩, hgood⟩
  · rintro ⟨encoded, h⟩
    unfold decodeAscii at h
    by_cases hascii : ∀ c ∈ bytes, c < 128
    · rw [if_pos hascii, Option.map_some, Option.some.injEq] at h
      change validName (toPy bytes) = _ at h
      rw [validName, encodeAscii_toPy hascii] at h
      simp only at h
      split at h
      · cases h
      · rename_i hnot
        simp only [not_or, not_exists, not_and] at hnot
        obtain ⟨h1, h2, h3, h4⟩ := hnot
        refine (zssNameOk_iff bytes).2 ⟨h1, not_lt.1 h2, fun c hc => ?_, fun p hp hbad => ?_⟩
        · obtain ⟨c1, c2, c3, c4⟩ := h4 c hc
          exact ⟨UInt8.not_lt.1 c1, UInt8.not_lt.1 c2, c3, c4⟩
        · obtain ⟨p1, p2, p3⟩ := h3 (toPy p) (by rw [splitOn_toPy]; exact List.mem_map_of_mem hp)
          rcases hbad with hbad | hbad | hbad
          · exact p1 (by rw [hbad]; rfl)
          · exact p2 (by rw [hbad]; rfl)
          · exact p3 (by rw [hbad]; rfl)
    · rw [if_neg hascii] at h
      cases h
  · obtain ⟨h1, h2⟩ := hgood hok
    exact ⟨bytes, by rw [h1, Option.map_some, h2]⟩

end ZealBringup.Store
