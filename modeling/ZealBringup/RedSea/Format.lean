import ZealBringup.Store.Lookup

/-!
# The RedSea root: sectors, names and the bitmap

The small RedSea volume of `kernel_stub.c` has a boot sector, one sector of bitmap
and one sector of root directory with eight slots of 64 bytes.  This file is the
byte level: eight-byte words, the case-insensitive comparison of names, the bits of
the map and the fields of a slot.

* `mapBit_setBit`, `mapBit_clearBit` — one bit of the map at a time.
* `strIeq_iff` — names are compared by their lower-case form.
-/

set_option maxRecDepth 10000

namespace ZealBringup.RedSea

open Store

/-! ## Words -/

/-- A 64-bit word, little end first. -/
def word64 (s : Sector) (off : ℕ) : ℕ := zssU32 s off + zssU32 s (off + 4) * 2 ^ 32

/-- The store to such a word. -/
def setWord64 (s : Sector) (off v : ℕ) : Sector := zssW32 (zssW32 s off v) (off + 4) (v / 2 ^ 32)

theorem word64_congr {s t : Sector} {off : ℕ} (h : ∀ i < 8, s.get (off + i) = t.get (off + i)) :
    word64 s off = word64 t off := by
  have h0 : s.get off = t.get off := h 0 (by omega)
  unfold word64 zssU32
  simp only [Nat.add_assoc, Nat.reduceAdd, h0, h 1 (by omega), h 2 (by omega), h 3 (by omega),
    h 4 (by omega), h 5 (by omega), h 6 (by omega), h 7 (by omega)]

theorem get_setWord64_ne (s : Sector) {off v i : ℕ} (hi : i < 512) (h : i < off ∨ off + 8 ≤ i) :
    (setWord64 s off v).get i = s.get i := by
  rw [setWord64, get_zssW32_ne _ hi (by omega), get_zssW32_ne _ hi (by omega)]

theorem word64_setWord64 (s : Sector) {off v : ℕ} (hoff : off + 7 < 512) (hv : v < 2 ^ 64) :
    word64 (setWord64 s off v) off = v := by
  have hlow : zssU32 (zssW32 (zssW32 s off v) (off + 4) (v / 2 ^ 32)) off = v % 2 ^ 32 := by
    rw [zssU32_zssW32_ne _ (by omega) (by omega), zssU32_zssW32_mod _ (by omega)]
  rw [word64, setWord64, hlow, zssU32_zssW32 _ (by omega) (by omega)]
  omega

/-! ## Names -/

/-- A C string: the bytes before its terminator. -/
structure CStr where
  bytes : List UInt8
  nul : 0 ∉ bytes

/-- `str_lower`. -/
def strLower (c : UInt8) : UInt8 := if 65 ≤ c ∧ c ≤ 90 then c + 32 else c

/-- `str_ieq`. -/
def strIeq : List UInt8 → List UInt8 → Bool
  | a :: as, b :: bs => if strLower a ≠ strLower b then false else strIeq as bs
  | [], [] => true
  | _, _ => false

/-- The lower-case form of a name. -/
def foldName (name : List UInt8) : List UInt8 := name.map strLower

theorem strIeq_iff {a b : List UInt8} : strIeq a b = true ↔ foldName a = foldName b := by
  induction a generalizing b with
  | nil => cases b <;> simp [strIeq, foldName]
  | cons x a ih =>
    cases b with
    | nil => simp [strIeq, foldName]
    | cons y b =>
      rw [strIeq, foldName, foldName, List.map_cons, List.map_cons, List.cons.injEq]
      by_cases hxy : strLower x = strLower y
      · rw [if_neg (by simpa using hxy), ih]
        exact (and_iff_right hxy).symm
      · rw [if_pos hxy]
        simp [hxy]

theorem length_foldName (name : List UInt8) : (foldName name).length = name.length :=
  List.length_map ..

/-! ## The bitmap -/

/-- `1u << (b & 7)`. -/
def bitMask (b : ℕ) : UInt8 := 1 <<< UInt8.ofNat (b % 8)

/-- `map[b >> 3] & (1u << (b & 7))`. -/
def mapBit (map : Sector) (b : ℕ) : Bool := map.get (b / 8) &&& bitMask b != 0

/-- `map[b >> 3] | (1u << (b & 7))`, stored back. -/
def setBit (map : Sector) (b : ℕ) : Sector :=
  copyBytes map (b / 8) [map.get (b / 8) ||| bitMask b]

/-- `map[b >> 3] & ~(1u << (b & 7))`, stored back. -/
def clearBit (map : Sector) (b : ℕ) : Sector :=
  copyBytes map (b / 8) [map.get (b / 8) &&& ~~~bitMask b]

/-- The loop that marks `n` clusters from `first` on. -/
def markRun (map : Sector) (first : ℕ) : ℕ → Sector
  | 0 => map
  | n + 1 => setBit (markRun map first n) (first + n)

/-- The loop that frees them; the cluster number is an `unsigned`. -/
def freeRun (map : Sector) (first : ℕ) : ℕ → Sector
  | 0 => map
  | n + 1 => clearBit (freeRun map first n) ((first + n) % 2 ^ 32)

theorem bitMask_toNat (b : ℕ) : (bitMask b).toNat = 2 ^ (b % 8) := by
  have h : b % 8 < 8 := Nat.mod_lt _ (by norm_num)
  unfold bitMask
  generalize b % 8 = k at h
  interval_cases k <;> rfl

theorem byteBit (x : UInt8) (b : ℕ) : (x &&& bitMask b != 0) = x.toNat.testBit (b % 8) := by
  have hzero : (x &&& bitMask b = 0) ↔ (x &&& bitMask b).toNat = 0 := by
    rw [← UInt8.toNat_inj]
    rfl
  rw [Bool.eq_iff_iff, bne_iff_ne, ne_eq, hzero, UInt8.toNat_and, bitMask_toNat, Nat.and_two_pow]
  cases x.toNat.testBit (b % 8) <;> simp

theorem mapBit_eq (map : Sector) (b : ℕ) :
    mapBit map b = (map.get (b / 8)).toNat.testBit (b % 8) :=
  byteBit _ _

theorem mapBit_copyBytes (map : Sector) {b c : ℕ} (hb : b < 4096) (v : UInt8) :
    mapBit (copyBytes map (b / 8) [v]) c =
      if c / 8 = b / 8 then v.toNat.testBit (c % 8) else mapBit map c := by
  rw [mapBit_eq]
  by_cases hc : c / 8 = b / 8
  · rw [if_pos hc, hc, get_copyBytes _ _ _ (by omega), if_pos (by simp), Nat.sub_self,
      List.getD_cons_zero]
  · rw [if_neg hc, mapBit_eq]
    by_cases hlt : c / 8 < 512
    · rw [get_copyBytes _ _ _ hlt, if_neg]
      rw [List.length_singleton]
      omega
    · rw [Sector.get, Sector.get, dif_neg hlt, dif_neg hlt]

theorem mapBit_setBit (map : Sector) {b c : ℕ} (hb : b < 4096) :
    mapBit (setBit map b) c = (decide (c = b) || mapBit map c) := by
  rw [setBit, mapBit_copyBytes map hb]
  by_cases hc : c / 8 = b / 8
  · rw [if_pos hc, UInt8.toNat_or, Nat.testBit_or, bitMask_toNat, Nat.testBit_two_pow, mapBit_eq,
      hc, Bool.or_comm]
    have hbit : (b % 8 = c % 8) ↔ c = b := by omega
    simp only [hbit]
  · rw [if_neg hc]
    have hne : c ≠ b := by
      rintro rfl
      exact hc rfl
    simp [hne]

theorem mapBit_clearBit (map : Sector) {b c : ℕ} (hb : b < 4096) :
    mapBit (clearBit map b) c = (decide (c ≠ b) && mapBit map c) := by
  rw [clearBit, mapBit_copyBytes map hb]
  by_cases hc : c / 8 = b / 8
  · have hlt : c % 8 < 8 := Nat.mod_lt _ (by norm_num)
    have hpow : 2 ^ (b % 8) < 2 ^ 8 :=
      Nat.pow_lt_pow_right (by norm_num) (Nat.mod_lt _ (by norm_num))
    have hnot : (~~~bitMask b).toNat = 2 ^ 8 - (2 ^ (b % 8) + 1) := by
      rw [UInt8.toNat_not, bitMask_toNat, UInt8.size]
      omega
    rw [if_pos hc, UInt8.toNat_and, Nat.testBit_and, hnot, Nat.testBit_two_pow_sub_succ hpow,
      Nat.testBit_two_pow, mapBit_eq, hc, Bool.and_comm]
    have hbit : (b % 8 = c % 8) ↔ c = b := by omega
    simp only [hbit, hlt, decide_true, Bool.true_and, decide_not]
  · rw [if_neg hc]
    have hne : c ≠ b := by
      rintro rfl
      exact hc rfl
    simp [hne]

theorem mapBit_markRun (map : Sector) {first n c : ℕ} (h : first + n ≤ 4096) :
    mapBit (markRun map first n) c = (decide (first ≤ c ∧ c < first + n) || mapBit map c) := by
  induction n with
  | zero => simp [markRun]
  | succ n ih =>
    rw [markRun, mapBit_setBit _ (by omega), ih (by omega), ← Bool.or_assoc, ← Bool.decide_or]
    congr 2
    exact propext ⟨by omega, by omega⟩

theorem mapBit_freeRun (map : Sector) {first n c : ℕ} (h : first + n ≤ 4096) :
    mapBit (freeRun map first n) c = (decide (¬(first ≤ c ∧ c < first + n)) && mapBit map c) := by
  induction n with
  | zero => simp [freeRun]
  | succ n ih =>
    rw [freeRun, Nat.mod_eq_of_lt (by omega), mapBit_clearBit _ (by omega), ih (by omega),
      ← Bool.and_assoc, ← Bool.decide_and]
    congr 2
    exact propext ⟨by omega, by omega⟩

end ZealBringup.RedSea
