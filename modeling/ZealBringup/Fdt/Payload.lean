import Mathlib.Data.List.Basic
import Mathlib.Tactic.Ring
import ZealBringup.Fdt.Parser

/-!
# Reading what is there

Where the bytes at an offset are known, every reader of the parser returns, and this is what it
returns.

* `At` — some bytes are readable at an offset.
* `pi4FdtBe32_at`, `pi4FdtCells_at` — numbers.
* `cStringEq_at`, `pi4FdtStringListHas_at` — strings and lists of strings.
-/

namespace ZealBringup.Fdt

/-- The bytes that can be read at `p`. -/
def At (fdt : Blob) (p : ℕ) (bytes : List UInt8) : Prop :=
  ∀ i (h : i < bytes.length), fdt (p + i) = some bytes[i]

/-- The bytes from `lo` to `hi` are readable. -/
def Readable (fdt : Blob) (lo hi : ℕ) : Prop := ∀ i, lo ≤ i → i < hi → (fdt i).isSome = true

@[simp] theorem ok_bind {α β : Type} (a : α) (f : α → Run β) :
    ((Except.ok a : Run α) >>= f) = f a := rfl

@[simp] theorem run_pure {α : Type} (a : α) : (pure a : Run α) = Except.ok a := rfl

variable {fdt : Blob} {p : ℕ}

theorem At.nil (fdt : Blob) (p : ℕ) : At fdt p [] := fun i h => absurd h (Nat.not_lt_zero i)

variable {a b : List UInt8}

theorem At.left (h : At fdt p (a ++ b)) : At fdt p a := fun i hi => by
  rw [h i (by rw [List.length_append]; omega), List.getElem_append_left hi]

theorem At.right (h : At fdt p (a ++ b)) : At fdt (p + a.length) b := fun i hi => by
  rw [Nat.add_assoc, h (a.length + i) (by rw [List.length_append]; omega)]
  simp

theorem At.append (ha : At fdt p a) (hb : At fdt (p + a.length) b) :
    At fdt p (a ++ b) := fun i hi => by
  rw [List.length_append] at hi
  by_cases hlt : i < a.length
  · rw [ha i hlt, List.getElem_append_left hlt]
  · rw [List.getElem_append_right (not_lt.1 hlt), ← hb (i - a.length) (by omega)]
    congr 1
    omega

variable {bytes : List UInt8}

theorem At.head {b : UInt8} (h : At fdt p (b :: bytes)) : fdt p = some b :=
  h 0 (Nat.succ_pos _)

theorem At.tail {b : UInt8} (h : At fdt p (b :: bytes)) : At fdt (p + 1) bytes :=
  At.right (a := [b]) h

variable {n : ℕ}

theorem At.drop (h : At fdt p bytes) (hn : n ≤ bytes.length) :
    At fdt (p + n) (bytes.drop n) := by
  have hsplit : At fdt p (bytes.take n ++ bytes.drop n) := by rwa [List.take_append_drop]
  have hlen : (bytes.take n).length = n := by rw [List.length_take]; omega
  simpa only [hlen] using hsplit.right

theorem At.take (h : At fdt p bytes) (n : ℕ) : At fdt p (bytes.take n) :=
  At.left (b := bytes.drop n) (by rwa [List.take_append_drop])

theorem Readable.exists_at (h : Readable fdt p (p + n)) :
    ∃ bytes, bytes.length = n ∧ At fdt p bytes := by
  induction n with
  | zero => exact ⟨[], rfl, At.nil fdt p⟩
  | succ n ih =>
    obtain ⟨bytes, hlen, hat⟩ := ih fun i hlo hhi => h i hlo (by omega)
    obtain ⟨b, hb⟩ := Option.isSome_iff_exists.1 (h (p + n) (by omega) (by omega))
    refine ⟨bytes ++ [b], by rw [List.length_append, hlen]; rfl, hat.append fun i hi => ?_⟩
    obtain rfl : i = 0 := by simpa using hi
    rw [hlen]
    exact hb

theorem Readable.mono {lo hi lo' hi' : ℕ} (h : Readable fdt lo hi) (hlo : lo ≤ lo') (hhi : hi' ≤ hi) :
    Readable fdt lo' hi' := fun i h1 h2 => h i (hlo.trans h1) (lt_of_lt_of_le h2 hhi)

theorem readByte_at {b : UInt8} (h : At fdt p (b :: bytes)) :
    readByte fdt p = .ok b := by
  rw [readByte, h.head]

/-! ## Numbers -/

/-- A number from its big-endian bytes. -/
def beNat (bytes : List UInt8) : ℕ := bytes.foldl (fun n b => n * 256 + b.toNat) 0

theorem foldl_be_lt (bytes : List UInt8) (n : ℕ) :
    bytes.foldl (fun n b => n * 256 + b.toNat) n < (n + 1) * 256 ^ bytes.length := by
  induction bytes generalizing n with
  | nil => simp
  | cons b bytes ih =>
    have hb := b.toNat_lt
    refine lt_of_lt_of_le (ih (n * 256 + b.toNat)) ?_
    rw [List.length_cons, Nat.pow_succ, Nat.mul_comm (256 ^ bytes.length), ← Nat.mul_assoc]
    exact Nat.mul_le_mul_right _ (by omega)

theorem beNat_lt (bytes : List UInt8) : beNat bytes < 256 ^ bytes.length := by
  simpa [beNat] using foldl_be_lt bytes 0

theorem foldl_be_add (bytes : List UInt8) (n : ℕ) :
    bytes.foldl (fun n b => n * 256 + b.toNat) n = n * 256 ^ bytes.length + beNat bytes := by
  induction bytes generalizing n with
  | nil => simp [beNat]
  | cons b bytes ih =>
    have hcons : beNat (b :: bytes) = (0 * 256 + b.toNat) * 256 ^ bytes.length + beNat bytes := by
      rw [beNat, List.foldl_cons, ih]
    rw [List.foldl_cons, ih, hcons, List.length_cons]
    ring

theorem beNat_append (a b : List UInt8) : beNat (a ++ b) = beNat a * 256 ^ b.length + beNat b := by
  rw [beNat, List.foldl_append, foldl_be_add]
  rfl

theorem pi4FdtBe32_at (h : At fdt p bytes) (hlen : bytes.length = 4) :
    pi4FdtBe32 fdt p = .ok (beNat bytes) := by
  match bytes, hlen with
  | [b0, b1, b2, b3], _ =>
    have h1 := h.tail
    have h2 := h1.tail
    have h3 := h2.tail
    rw [Nat.add_assoc] at h2 h3
    rw [Nat.add_assoc] at h3
    have hvalue : beNat [b0, b1, b2, b3] =
        b0.toNat * 2 ^ 24 + b1.toNat * 2 ^ 16 + b2.toNat * 2 ^ 8 + b3.toNat := by
      simp only [beNat, List.foldl_cons, List.foldl_nil]
      omega
    rw [hvalue, pi4FdtBe32, readByte_at h, ok_bind, readByte_at h1, ok_bind, readByte_at h2, ok_bind,
      readByte_at h3, ok_bind, run_pure]

/-- Some cells in front of a value. -/
def front (cells : ℕ) (value : List UInt8) : ℕ := beNat (value.take (cells * 4))

theorem front_lt (h : n ≤ 2) (value : List UInt8) : front n value < 2 ^ 64 := by
  have hlen : (value.take (n * 4)).length ≤ 8 := by
    rw [List.length_take]
    omega
  calc front n value < 256 ^ (value.take (n * 4)).length := beNat_lt _
    _ ≤ 256 ^ 8 := Nat.pow_le_pow_right (by norm_num) hlen
    _ = 2 ^ 64 := by norm_num

/-- Cells, most significant first, in front of other bytes. -/
theorem pi4FdtCells_at (h : At fdt p bytes) (hn : 1 ≤ n) (hn2 : n ≤ 2)
    (hlen : n * 4 ≤ bytes.length) :
    pi4FdtCells fdt p n = .ok (some (front n bytes)) := by
  have hword : ∀ q (ws : List UInt8), At fdt q ws → 4 ≤ ws.length →
      pi4FdtBe32 fdt q = .ok (beNat (ws.take 4)) := fun q ws hq hl =>
    pi4FdtBe32_at (hq.take 4) (by rw [List.length_take]; omega)
  have h1 := hword p bytes h (by omega)
  have hlt := beNat_lt (bytes.take 4)
  rw [List.length_take, Nat.min_eq_left (show 4 ≤ bytes.length by omega)] at hlt
  rw [pi4FdtCells, if_neg (by omega), front]
  obtain rfl | rfl : n = 1 ∨ n = 2 := by omega
  · simp only [pi4FdtCellsLoop, h1, ok_bind, run_pure, Nat.zero_mul, Nat.zero_mod, Nat.zero_add,
      Nat.one_mul]
  · have h2 := hword (p + 4) (bytes.drop 4) (h.drop (by omega)) (by rw [List.length_drop]; omega)
    have hsplit : bytes.take (2 * 4) = bytes.take 4 ++ (bytes.drop 4).take 4 := by
      rw [← List.take_add]
    have hlen2 : ((bytes.drop 4).take 4).length = 4 := by
      rw [List.length_take, List.length_drop]
      omega
    simp only [pi4FdtCellsLoop, h1, h2, ok_bind, run_pure, Nat.zero_mul, Nat.zero_mod, Nat.zero_add]
    rw [hsplit, beNat_append, hlen2, Nat.mod_eq_of_lt (by omega),
      show (256 : ℕ) ^ 4 = 2 ^ 32 by norm_num]

/-! ## Strings -/

variable {want : List UInt8}

/-- A comparison says whether the bytes begin with the string and its NUL. -/
theorem cStringEq_at {base i : ℕ} (h : At fdt (base + i) bytes) (hwant : 0 ∉ want) :
    cStringEq fdt base (i + bytes.length) i want = .ok ((want ++ [0]).isPrefixOf bytes) := by
  induction want generalizing i bytes with
  | nil =>
    cases bytes with
    | nil => rw [cStringEq, if_neg (by simp)]; rfl
    | cons b bytes =>
      rw [cStringEq, if_pos (by simp), readByte_at h]
      simp only [ok_bind, run_pure, List.nil_append, List.isPrefixOf, Bool.and_true]
      congr 1
      rw [Bool.beq_eq_decide_eq, decide_eq_decide]
      exact eq_comm
  | cons w want ih =>
    obtain ⟨hw, hwant⟩ := not_or.1 (mt List.mem_cons.2 hwant)
    cases bytes with
    | nil => rw [cStringEq, if_neg (by simp)]; rfl
    | cons b bytes =>
      rw [cStringEq, if_pos (by simp), readByte_at h]
      simp only [ok_bind, List.cons_append, List.isPrefixOf]
      by_cases hb : b = w
      · have hthere : At fdt (base + (i + 1)) bytes := by
          rw [← Nat.add_assoc]
          exact h.tail
        have hnext := ih hthere hwant
        rw [if_pos ⟨fun h0 => hw (by rw [← hb, h0]), hb⟩, List.length_cons,
          show i + (bytes.length + 1) = i + 1 + bytes.length by omega, hnext, hb]
        simp
      · rw [if_neg fun hc => hb hc.2]
        simp [Ne.symm hb]

/-- The strings of a string list: each ends with a NUL, and what follows the last NUL is none. -/
def cStrings : List UInt8 → List (List UInt8)
  | [] => []
  | c :: bytes =>
      if c = 0 then [] :: cStrings bytes
      else
        match cStrings bytes with
        | [] => []
        | s :: ss => (c :: s) :: ss

theorem cStrings_open (h : 0 ∉ bytes) : cStrings bytes = [] := by
  induction bytes with
  | nil => rfl
  | cons c bytes ih =>
    obtain ⟨hc, hbytes⟩ := not_or.1 (mt List.mem_cons.2 h)
    rw [cStrings, if_neg (Ne.symm hc), ih hbytes]

theorem cStrings_string {s : List UInt8} (h : 0 ∉ s) (bytes : List UInt8) :
    cStrings (s ++ 0 :: bytes) = s :: cStrings bytes := by
  induction s with
  | nil => rfl
  | cons c s ih =>
    obtain ⟨hc, hs⟩ := not_or.1 (mt List.mem_cons.2 h)
    rw [List.cons_append, cStrings, if_neg (Ne.symm hc), ih hs]

/-- The scan stops at the first NUL, or at the end. -/
theorem scanEnd_at {base start : ℕ} (h : At fdt (base + start) bytes) :
    (0 ∉ bytes ∧ scanEnd fdt base start bytes.length = .ok (start + bytes.length)) ∨
      ∃ s rest, bytes = s ++ 0 :: rest ∧ 0 ∉ s ∧
        scanEnd fdt base start bytes.length = .ok (start + s.length) := by
  induction bytes generalizing start with
  | nil => exact .inl ⟨by simp, rfl⟩
  | cons b bytes ih =>
    rw [List.length_cons, scanEnd, readByte_at h]
    simp only [ok_bind]
    by_cases hb : b = 0
    · rw [if_neg (not_not.2 hb), hb]
      exact .inr ⟨[], bytes, rfl, by simp, rfl⟩
    · rw [if_pos hb]
      have hthere : At fdt (base + (start + 1)) bytes := by
        rw [← Nat.add_assoc]
        exact h.tail
      rcases ih hthere with
        ⟨hno, hscan⟩ | ⟨s, rest, rfl, hs, hscan⟩
      · refine .inl ⟨by simp [Ne.symm hb, hno], ?_⟩
        rw [hscan, Nat.add_assoc, Nat.add_comm 1]
      · refine .inr ⟨b :: s, rest, rfl, by simp [Ne.symm hb, hs], ?_⟩
        rw [hscan, List.length_cons, Nat.add_assoc, Nat.add_comm 1]

theorem isPrefixOf_cString {s rest : List UInt8} (hs : 0 ∉ s) (hwant : 0 ∉ want) :
    (want ++ [0]).isPrefixOf (s ++ 0 :: rest) = decide (want = s) := by
  rw [Bool.eq_iff_iff, List.isPrefixOf_iff_prefix, decide_eq_true_iff]
  constructor
  · intro h
    induction want generalizing s with
    | nil =>
      cases s with
      | nil => rfl
      | cons c s =>
        have hc := (List.cons_prefix_cons.1 h).1
        exact absurd (by simp [← hc]) hs
    | cons w want ih =>
      cases s with
      | nil =>
        have hw := (List.cons_prefix_cons.1 h).1
        exact absurd (by simp [hw]) hwant
      | cons c s =>
        obtain ⟨rfl, htail⟩ := List.cons_prefix_cons.1 h
        rw [ih (fun h0 => hs (List.mem_cons_of_mem _ h0))
          (fun h0 => hwant (List.mem_cons_of_mem _ h0)) htail]
  · rintro rfl
    exact ⟨rest, by simp⟩

/-- The search of a string list, from a string of it on. -/
theorem stringListLoop_at (h : At fdt p bytes) (hwant : 0 ∉ want) {rounds start : ℕ}
    (hstart : start ≤ bytes.length) (hrounds : bytes.length < start + rounds) :
    stringListLoop fdt p bytes.length want rounds start =
      .ok (decide (want ∈ cStrings (bytes.drop start))) := by
  induction rounds generalizing start with
  | zero => omega
  | succ rounds ih =>
    rw [stringListLoop]
    by_cases hlt : start < bytes.length
    · have hlen : (bytes.drop start).length = bytes.length - start := List.length_drop
      have hdrop := h.drop hstart
      rw [if_pos hlt, ← hlen]
      rcases scanEnd_at hdrop with ⟨hno, hscan⟩ | ⟨s, rest, hs, hno, hscan⟩
      · rw [hscan, ok_bind, if_pos (by omega), cStrings_open hno]
        simp
      · have hsum : s.length + (rest.length + 1) = bytes.length - start := by
          rw [← hlen, hs, List.length_append, List.length_cons]
        have hstring : At fdt (p + start + 0) (s ++ [0]) := by
          rw [hs, ← List.singleton_append, ← List.append_assoc] at hdrop
          exact hdrop.left
        have hsame := cStringEq_at hstring hwant
        rw [List.length_append, List.length_singleton, Nat.zero_add,
          isPrefixOf_cString hno hwant] at hsame
        rw [hscan, ok_bind, if_neg (by omega), Nat.add_sub_cancel_left, hsame, ok_bind, hs,
          cStrings_string hno]
        by_cases heq : want = s
        · rw [if_pos (decide_eq_true heq), heq]
          simp
        · have hrest : bytes.drop (start + s.length + 1) = rest := by
            rw [Nat.add_assoc, ← List.drop_drop, hs, ← List.drop_drop, List.drop_left]
            rfl
          rw [if_neg (by simpa using heq), ih (by omega) (by omega), hrest]
          simp [heq]
    · rw [if_neg hlt, List.drop_of_length_le (by omega)]
      simp [cStrings]

/-- What an optional property reads as: no pointer, or the pointer to its bytes. -/
inductive Payload (fdt : Blob) : Option ℕ → ℕ → Option (List UInt8) → Prop where
  | absent (n : ℕ) : Payload fdt none n none
  | present {p : ℕ} {bytes : List UInt8} (h : At fdt p bytes) :
      Payload fdt (some p) bytes.length (some bytes)

theorem pi4FdtStringListHas_payload {q : Option ℕ} {value : Option (List UInt8)}
    (h : Payload fdt q n value) (hwant : 0 ∉ want) :
    pi4FdtStringListHas fdt q n want = .ok (decide (want ∈ (value.map cStrings).getD [])) := by
  cases h with
  | absent => simp [pi4FdtStringListHas]
  | present h =>
    rw [pi4FdtStringListHas, stringListLoop_at h hwant (Nat.zero_le _) (by omega)]
    rfl

theorem pi4FdtStringEq_payload {q : Option ℕ} {value : Option (List UInt8)}
    (h : Payload fdt q n value) (hwant : 0 ∉ want) :
    pi4FdtStringEq fdt q n want = .ok ((value.map fun v => (want ++ [0]).isPrefixOf v).getD false) := by
  cases h with
  | absent => rfl
  | @present p bytes h =>
    have heq := cStringEq_at (i := 0) h hwant
    rw [Nat.zero_add] at heq
    exact heq

end ZealBringup.Fdt
