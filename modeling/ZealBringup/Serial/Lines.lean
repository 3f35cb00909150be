import ZealBringup.Serial.Protocol

/-!
# Commands and lines

What the sender prints, and what the parsers of the receiver take.

* `zrecvChunk_of_line`, `line_of_zrecvChunk` — a chunk is received exactly from a line of its
  digits.
* `zrecvArgs_command` — the command of the sender is read as it was meant.
-/

set_option maxRecDepth 10000

namespace ZealBringup.Serial

open Store

/-! ## Digits -/

/-- The digits of some bytes, in either case. -/
inductive HexOf : List UInt8 → List UInt8 → Prop where
  | nil : HexOf [] []
  | cons {c d : UInt8} {hi lo : ℕ} {digits bytes : List UInt8} (hhi : zrecvHex c = some hi)
      (hlo : zrecvHex d = some lo) (hrest : HexOf digits bytes) :
      HexOf (c :: d :: digits) (UInt8.ofNat (hi * 16 + lo) :: bytes)

variable {d : ℕ}

theorem zrecvHex_hexDigit (h : d < 16) : zrecvHex (hexDigit d) = some d := by
  have hall : ∀ k : Fin 16, zrecvHex (hexDigit k.val) = some k.val := by decide
  exact hall ⟨d, h⟩

variable {c : UInt8}

theorem not_isNewline_of_zrecvHex (h : zrecvHex c = some d) :
    isNewline c = false := by
  have hall : ∀ c : UInt8, (zrecvHex c).isSome = true → isNewline c = false := by decide
  exact hall c (by rw [h]; rfl)

/-- The digits of the sender. -/
theorem hexOf_hex (bytes : List UInt8) : HexOf (hex bytes) bytes := by
  induction bytes with
  | nil => exact .nil
  | cons b bytes ih =>
    have hb := b.toNat_lt
    have hbyte : UInt8.ofNat (b.toNat / 16 * 16 + b.toNat % 16) = b := by
      rw [Nat.div_add_mod', UInt8.ofNat_toNat]
    have h := HexOf.cons (zrecvHex_hexDigit (show b.toNat / 16 < 16 by omega))
      (zrecvHex_hexDigit (show b.toNat % 16 < 16 by omega)) ih
    rwa [hbyte] at h

/-! ## Lines -/

/-- A line that carries `chunk`: line ends, the digits, a line end. -/
def LineOf (chunk line : List UInt8) : Prop :=
  ∃ front digits e, line = front ++ digits ++ [e] ∧ (∀ c ∈ front, isNewline c = true) ∧
    isNewline e = true ∧ HexOf digits chunk

theorem skipNewlines_front {front : List UInt8} (h : ∀ c ∈ front, isNewline c = true)
    (serial : Arrivals) : skipNewlines (front.map some ++ serial) = skipNewlines serial := by
  induction front with
  | nil => rfl
  | cons c front ih =>
    rw [List.map_cons, List.cons_append, skipNewlines, if_pos (h c (List.mem_cons_self ..))]
    exact ih fun d hd => h d (List.mem_cons_of_mem _ hd)

variable {serial rest : Arrivals}

theorem exists_front (h : skipNewlines serial = (some c, rest)) :
    ∃ front : List UInt8, (∀ c ∈ front, isNewline c = true) ∧
      serial = front.map some ++ some c :: rest := by
  induction serial with
  | nil => cases h
  | cons a serial ih =>
    cases a with
    | none => cases h
    | some a =>
      rw [skipNewlines] at h
      split_ifs at h with ha
      · obtain ⟨front, hfront, rfl⟩ := ih h
        exact ⟨a :: front, List.forall_mem_cons.2 ⟨ha, hfront⟩, rfl⟩
      · cases h
        exact ⟨[], by simp, rfl⟩

/-- One byte of a chunk. -/
theorem zrecvPairs_succ {left hi lo : ℕ} {d c' : UInt8} {dst : List UInt8}
    (hhi : zrecvHex c = some hi) (hlo : zrecvHex d = some lo)
    (hlook : ¬(0 < left ∧ zrecvHex c' = none)) (h : zrecvPairs left c' serial = .ok (dst, rest)) :
    zrecvPairs (left + 1) c (some d :: some c' :: serial) =
      .ok (UInt8.ofNat (hi * 16 + lo) :: dst, rest) := by
  rw [zrecvPairs, hhi, zrecvGetc, Option.bind_some, hlo]
  dsimp only [zrecvGetc]
  rw [if_neg hlook, h]

/-- The digits of the bytes and a line end, the first of them read ahead. -/
theorem zrecvPairs_of_hexOf {digits bytes : List UInt8} (h : HexOf digits bytes) {e : UInt8}
    {tail : List UInt8} (he : isNewline e = true) (hc : digits ++ [e] = c :: tail)
    (rest : Arrivals) :
    zrecvPairs bytes.length c (tail.map some ++ rest) = .ok (bytes, rest) := by
  induction h generalizing c tail with
  | nil =>
    cases hc
    rw [List.length_nil, zrecvPairs, if_pos he]
    rfl
  | @cons c₁ c₂ hi lo digits bytes hhi hlo hrest ih =>
    rw [List.cons_append, List.cons_append] at hc
    cases hc
    obtain ⟨c₃, tail, htail⟩ := List.exists_cons_of_ne_nil
      (show digits ++ [e] ≠ [] by simp)
    have hlook : ¬(0 < bytes.length ∧ zrecvHex c₃ = none) := by
      rintro ⟨hpos, hnone⟩
      cases hrest with
      | nil => exact absurd hpos (lt_irrefl _)
      | cons hhi' _ _ =>
        cases htail
        rw [hhi'] at hnone
        cases hnone
    rw [htail]
    exact zrecvPairs_succ hhi hlo hlook (ih htail)

theorem hexOf_of_zrecvPairs {left : ℕ} {bytes : List UInt8}
    (h : zrecvPairs left c serial = .ok (bytes, rest)) :
    ∃ digits e, HexOf digits bytes ∧ isNewline e = true ∧ bytes.length = left ∧
      some c :: serial = (digits ++ [e]).map some ++ rest := by
  induction left generalizing c serial bytes with
  | zero =>
    rw [zrecvPairs] at h
    split_ifs at h with he
    cases h
    exact ⟨[], c, .nil, he, rfl, rfl⟩
  | succ left ih =>
    rw [zrecvPairs] at h
    split at h
    · rename_i hi lo hhi hlo
      obtain ⟨d, hd, hlo⟩ := Option.bind_eq_some_iff.1 hlo
      rcases serial with _ | ⟨a, serial⟩
      · cases hd
      · cases hd
        rcases serial with _ | ⟨_ | c', serial⟩
        · cases h
        · cases h
        · dsimp only [zrecvGetc] at h
          split_ifs at h
          cases hpairs : zrecvPairs left c' serial with
          | error e => rw [hpairs] at h; cases h
          | ok result =>
            obtain ⟨dst, rest'⟩ := result
            rw [hpairs] at h
            cases h
            obtain ⟨digits, e, hhex, he, hlen, heq⟩ := ih hpairs
            refine ⟨c :: d :: digits, e, .cons hhi hlo hhex, he, by rw [List.length_cons, hlen], ?_⟩
            rw [heq]
            rfl
    · cases h

/-- **A line is received.** -/
theorem zrecvChunk_of_line {chunk line : List UInt8} (h : LineOf chunk line) (hne : chunk ≠ [])
    (rest : Arrivals) : zrecvChunk chunk.length (line.map some ++ rest) = .ok (chunk, rest) := by
  obtain ⟨front, digits, e, rfl, hfront, he, hhex⟩ := h
  cases hhex with
  | nil => exact absurd rfl hne
  | @cons c d hi lo digits bytes hhi hlo hrest =>
    have hpairs := zrecvPairs_of_hexOf (.cons hhi hlo hrest) he rfl rest
    rw [zrecvChunk, List.append_assoc, List.map_append, List.append_assoc,
      skipNewlines_front hfront]
    rw [List.cons_append, List.map_cons, List.cons_append, skipNewlines,
      if_neg (by rw [not_isNewline_of_zrecvHex hhi]; simp)]
    exact hpairs

variable {n : ℕ}

/-- **What is received was a line.** -/
theorem line_of_zrecvChunk {chunk : List UInt8} (h : zrecvChunk n serial = .ok (chunk, rest)) :
    ∃ line, LineOf chunk line ∧ chunk.length = n ∧ serial = line.map some ++ rest := by
  rw [zrecvChunk] at h
  rcases hskip : skipNewlines serial with ⟨_ | c, s⟩
  · rw [hskip] at h
    cases h
  · rw [hskip] at h
    have hpairs : zrecvPairs n c s = .ok (chunk, rest) := h
    obtain ⟨front, hfront, rfl⟩ := exists_front hskip
    obtain ⟨digits, e, hhex, he, hlen, heq⟩ := hexOf_of_zrecvPairs hpairs
    refine ⟨front ++ digits ++ [e], ⟨front, digits, e, rfl, hfront, he, hhex⟩, hlen, ?_⟩
    rw [heq]
    simp only [List.map_append, List.append_assoc]

/-! ## The command -/

theorem isDigit_decimal (h : d < 10) :
    48 ≤ UInt8.ofNat (48 + d) ∧ UInt8.ofNat (48 + d) ≤ 57 ∧ (UInt8.ofNat (48 + d)).toNat - 48 = d := by
  have hall : ∀ k : Fin 10, 48 ≤ UInt8.ofNat (48 + k.val) ∧ UInt8.ofNat (48 + k.val) ≤ 57 ∧
      (UInt8.ofNat (48 + k.val)).toNat - 48 = k.val := by decide
  exact hall ⟨d, h⟩

theorem le_foldl_digits (ds : List ℕ) (size : ℕ) :
    size ≤ ds.foldl (fun a d => a * 10 + d) size := by
  induction ds generalizing size with
  | nil => exact le_rfl
  | cons d ds ih => exact (show size ≤ size * 10 + d by omega).trans (ih _)

/-- Digits are read as their number, up to the greatest length of a file. -/
theorem zrecvSize_digits {ds : List ℕ} (hds : ∀ d ∈ ds, d < 10) (size : ℕ)
    (hc : ¬(48 ≤ c ∧ c ≤ 57)) (rest : List UInt8)
    (hmax : ds.foldl (fun a d => a * 10 + d) size ≤ zssMaxFile) :
    zrecvSize (ds.map (fun d => UInt8.ofNat (48 + d)) ++ c :: rest) size =
      some (ds.foldl (fun a d => a * 10 + d) size, c :: rest) := by
  induction ds generalizing size with
  | nil =>
    rw [List.map_nil, List.nil_append, zrecvSize, if_neg hc]
    rfl
  | cons d ds ih =>
    obtain ⟨hlo, hhi, hval⟩ := isDigit_decimal (hds d (List.mem_cons_self ..))
    have hd := hds d (List.mem_cons_self ..)
    rw [List.foldl_cons] at hmax ⊢
    have hle := (le_foldl_digits ds (size * 10 + d)).trans hmax
    rw [List.map_cons, List.cons_append, zrecvSize, if_pos ⟨hlo, hhi⟩]
    dsimp only
    have hfit : ¬size > (zssMaxFile - d) / 10 := by
      rw [not_lt, Nat.le_div_iff_mul_le (by decide)]
      omega
    rw [hval, if_neg hfit]
    exact ih (fun e he => hds e (List.mem_cons_of_mem _ he)) _ hmax

theorem foldl_digits (n : ℕ) : (Nat.digits 10 n).reverse.foldl (fun a d => a * 10 + d) 0 = n := by
  rw [List.foldl_reverse]
  conv_rhs => rw [← Nat.ofDigits_digits 10 n, Nat.ofDigits_eq_foldr]
  congr 1
  funext d a
  rw [Nat.cast_id, Nat.mul_comm, Nat.add_comm]

variable {v : ℕ}

theorem zrecvCrc_hex08 (hv : v < 2 ^ 32) : zrecvCrc 8 (hex08 v) 0 = some (v, []) := by
  have hdigit : ∀ q, zrecvHex (hexDigit (q % 16)) = some (q % 16) :=
    fun q => zrecvHex_hexDigit (Nat.mod_lt _ (by decide))
  simp only [hex08, List.map_cons, List.map_nil, zrecvCrc, hdigit]
  congr 2
  omega

/-- What the sender prints behind the word is made of these bytes. -/
theorem ne_zero_of_mem_digits (h : c ∈ decimal n) : 48 ≤ c ∧ c ≤ 57 := by
  obtain ⟨d, hd, rfl⟩ := List.mem_map.1 h
  have hlt := Nat.digits_lt_base (by decide : 1 < 10) (List.mem_reverse.1 hd)
  exact ⟨(isDigit_decimal hlt).1, (isDigit_decimal hlt).2.1⟩

theorem zrecvHex_of_mem_hex08 (h : c ∈ hex08 v) : ∃ d, zrecvHex c = some d := by
  obtain ⟨q, -, rfl⟩ := List.mem_map.1 h
  exact ⟨_, zrecvHex_hexDigit (Nat.mod_lt _ (by decide))⟩

/-- **The command is read as it was meant.** -/
theorem zrecvArgs_command {raw : List UInt8} (hraw : (zssNameOk raw).isSome) (hn : 0 < n)
    (hmax : n ≤ zssMaxFile) (hv : v < 2 ^ 32) :
    zrecvArgs (raw ++ [32] ++ decimal n ++ [32] ++ hex08 v) = some (raw, n, v) := by
  obtain ⟨hne, hlen, hbytes, -⟩ := (zssNameOk_iff raw).1 hraw
  have hname : ∀ c : UInt8, NameByte c → c ≠ 0 ∧ c ≠ 32 ∧ isBlank c = false := by decide
  have hdigit : ∀ c : UInt8, 48 ≤ c ∧ c ≤ 57 → c ≠ 0 ∧ isBlank c = false := by decide
  have hhex : ∀ c : UInt8, (zrecvHex c).isSome = true → c ≠ 0 ∧ isBlank c = false := by decide
  obtain ⟨r, raw', hr⟩ := List.exists_cons_of_ne_nil hne
  obtain ⟨d, ds, hd⟩ := List.exists_cons_of_ne_nil (show decimal n ≠ [] by
    rw [decimal, ne_eq, List.map_eq_nil_iff, List.reverse_eq_nil_iff]
    exact Nat.digits_ne_nil_iff_ne_zero.2 hn.ne')
  have hdmem : 48 ≤ d ∧ d ≤ 57 := ne_zero_of_mem_digits (n := n) (by rw [hd]; simp)
  have hzero : ∀ c ∈ raw ++ [32] ++ decimal n ++ [32] ++ hex08 v, c ≠ 0 := by
    intro c hc
    simp only [List.mem_append, List.mem_singleton] at hc
    rcases hc with (((hc | rfl) | hc) | rfl) | hc
    · exact (hname c (hbytes c hc)).1
    · decide
    · exact (hdigit c (ne_zero_of_mem_digits hc)).1
    · decide
    · obtain ⟨k, hk⟩ := zrecvHex_of_mem_hex08 hc
      exact (hhex c (by rw [hk]; rfl)).1
  have hcstr : (raw ++ [32] ++ decimal n ++ [32] ++ hex08 v).takeWhile (· ≠ 0) =
      raw ++ [32] ++ decimal n ++ [32] ++ hex08 v :=
    List.takeWhile_eq_self_iff.2 fun c hc => by simpa using hzero c hc
  have hspaces : (raw ++ [32] ++ decimal n ++ [32] ++ hex08 v).dropWhile (· = 32) =
      raw ++ 32 :: (decimal n ++ 32 :: hex08 v) := by
    have hr32 := (hname r (hbytes r (by rw [hr]; simp))).2.1
    rw [hr]
    simp [hr32]
  have hblank : ∀ c ∈ raw, (!isBlank c) = true := fun c hc => by
    rw [(hname c (hbytes c hc)).2.2]
    rfl
  have htake : (raw ++ 32 :: (decimal n ++ 32 :: hex08 v)).takeWhile (fun c => !isBlank c) = raw := by
    rw [List.takeWhile_append_of_pos hblank]
    exact List.append_nil raw
  have hdrop : (raw ++ 32 :: (decimal n ++ 32 :: hex08 v)).dropWhile (fun c => !isBlank c) =
      32 :: (decimal n ++ 32 :: hex08 v) := by
    rw [List.dropWhile_append_of_pos hblank]
    rfl
  have hdigits : (32 :: (decimal n ++ 32 :: hex08 v)).dropWhile isBlank =
      decimal n ++ 32 :: hex08 v := by
    have h32 : isBlank 32 = true := rfl
    rw [List.dropWhile_cons_of_pos h32, hd, List.cons_append,
      List.dropWhile_cons_of_neg (by rw [(hdigit d hdmem).2]; simp)]
  have hhead : ((decimal n ++ 32 :: hex08 v).head?.all fun c => c < 48 || c > 57) = false := by
    rw [hd]
    simpa using hdmem
  have hcrc : (32 :: hex08 v).dropWhile isBlank = hex08 v := by
    have h32 : isBlank 32 = true := rfl
    obtain ⟨k, hk⟩ := zrecvHex_of_mem_hex08 (v := v) (List.mem_cons_self ..)
    rw [List.dropWhile_cons_of_pos h32]
    exact List.dropWhile_cons_of_neg (by rw [(hhex _ (by rw [hk]; rfl)).2]; simp)
  rw [zrecvArgs, hcstr, hspaces]
  dsimp only
  rw [htake, hdrop, if_neg (by rw [not_or]; exact ⟨not_lt.2 hlen, by simpa [Option.isSome_iff_ne_none] using hraw⟩),
    hdigits, hhead, if_neg (by simp), decimal, zrecvSize_digits
      (fun e he => Nat.digits_lt_base (by decide) (List.mem_reverse.1 he)) 0 (by decide) _
      (by rw [foldl_digits]; exact hmax), foldl_digits]
  dsimp only
  rw [if_neg hn.ne', hcrc, zrecvCrc_hex08 hv]
  rfl

end ZealBringup.Serial
