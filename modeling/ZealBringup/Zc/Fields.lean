import Mathlib
import ZealBringup.Lib.Checked
import ZealBringup.Zc.Reference

/-!
# The fields of a format

Each of the formatter's writers appends the field that its directive stands for, stays inside the
buffer, or stops through `zc_fail`.

* `emit_ends` — bytes one after the other.
* `putNumber_ends` — a number, which never fills `number`.
* `putString_ends` — a string.
-/

namespace ZealBringup.Zc

open Hc (hcFmtF64Bits isDigit percent dot minus plus zero blank)
open Numeral Checked

/-- Not a write outside of a buffer. -/
def Halt.IsFail (e : Halt) : Prop := e ≠ .overrun

theorem isFail_fail (message : String) : (Halt.fail message).IsFail := nofun

variable {buf : Buffer} {spec : Spec} {out text : List UInt8} {code : Code} {E : Guest}

/-! ## Bytes -/

theorem fmtByte_ends (h : out.length < buf.capacity) (ch : UInt8) :
    Ends Halt.IsFail (fmtByte buf out ch) fun out' => out' = out ++ [ch] ∧ out'.length < buf.capacity := by
  rw [fmtByte]
  refine Ends.ite (fun _ => Ends.error (isFail_fail _)) fun hne => ?_
  rw [if_neg (Nat.not_le.mpr h)]
  refine Ends.ok ⟨rfl, ?_⟩
  rw [List.length_append, List.length_singleton]
  omega

theorem emit_ends (h : out.length < buf.capacity) (text : List UInt8) :
    Ends Halt.IsFail (emit buf out text) fun out' => out' = out ++ text ∧ out'.length < buf.capacity := by
  induction text generalizing out with
  | nil => exact Ends.ok ⟨(List.append_nil _).symm, h⟩
  | cons ch text ih =>
    refine (fmtByte_ends h ch).bind ?_
    rintro _ ⟨rfl, hlt⟩
    refine (ih hlt).imp ?_
    rintro _ ⟨rfl, hlt⟩
    exact ⟨List.append_assoc _ _ _, hlt⟩

theorem emit_fits (text : List UInt8) (h : out.length + text.length < buf.capacity) :
    emit buf out text = .ok (out ++ text) := by
  induction text generalizing out with
  | nil => rw [emit, List.append_nil]
  | cons ch text ih =>
    rw [List.length_cons] at h
    have hstep : fmtByte buf out ch = .ok (out ++ [ch]) := by
      rw [fmtByte, if_neg (by omega), if_neg (by omega)]
    have hrest : (out ++ [ch]).length + text.length < buf.capacity := by
      rw [List.length_append, List.length_singleton]
      omega
    show (fmtByte buf out ch >>= fun out => emit buf out text) = _
    rw [hstep]
    exact (ih hrest).trans (by rw [List.append_assoc, List.singleton_append])

/-! ## Numbers -/

theorem reversedDigits_eq {base limit v : ℕ} (hbase : 1 < base) (hv : v < base ^ limit)
    (char : ℕ → UInt8) :
    ((reversedDigits base limit v).map char).reverse = (numeral base v).map char := by
  rw [reversedDigits, numeral]
  split
  · rfl
  · rw [List.take_of_length_le ((Nat.digits_length_le_iff hbase v).mpr hv), List.map_reverse]

/-! ## The size of a number -/

theorem carryDigits_length (ds : List ℕ) : (carryDigits ds).1.length = ds.length := by
  induction ds with
  | nil => rfl
  | cons d ds ih =>
    rw [carryDigits]
    split
    · exact congrArg Nat.succ ih
    · rfl

theorem trimZeros_length (ds : List ℕ) : (trimZeros ds).length ≤ ds.length := by
  induction ds with
  | nil => exact le_rfl
  | cons d ds ih =>
    cases ds with
    | nil => exact le_rfl
    | cons e ds =>
      rw [trimZeros]
      split
      · exact ih.trans (Nat.le_succ _)
      · exact le_rfl

theorem gText_length {prec : ℕ} {digits : List ℕ} (hd : digits.length ≤ 17) (hp : prec ≤ 17)
    (exponent : ℤ) (upper : Bool) : (gText prec digits exponent upper).length ≤ 25 := by
  have hc : (digits.map digitByte).length = digits.length := List.length_map _
  rw [gText]
  split
  case isTrue h =>
    have hone : ((digits.map digitByte).take 1).length ≤ 1 := List.length_take_le _ _
    have hrest : (if (digits.map digitByte).length > 1 then dot :: (digits.map digitByte).drop 1
        else []).length ≤ 17 := by
      split
      · rw [List.length_cons, List.length_drop]
        omega
      · exact Nat.zero_le _
    have hmag : ∀ l : List ℕ, l.length ≤ 4 →
        (if l.length < 2 then [zero] else []).length + ((l.map digitByte).reverse).length ≤ 5 := by
      intro l hl
      rw [List.length_reverse, List.length_map]
      split
      · rw [List.length_singleton]
        omega
      · rw [List.length_nil]
        omega
    have hrev : (if exponent.natAbs = 0 then [0] else (Nat.digits 10 exponent.natAbs).take 4).length
        ≤ 4 := by
      split
      · exact Nat.le_add_left 1 3
      · exact List.length_take_le _ _
    have h5 := hmag _ hrev
    simp only [List.length_append, List.length_cons, List.length_nil] at h5 ⊢
    omega
  case isFalse h =>
    dsimp only
    split
    case isTrue hneg =>
      simp only [List.length_append, List.length_cons, List.length_nil, List.length_replicate]
      omega
    case isFalse hpos =>
      have hlast : (if (exponent + 1).toNat < (digits.map digitByte).length then
          dot :: (digits.map digitByte).drop (exponent + 1).toNat else []).length ≤
          1 + (digits.length - (exponent + 1).toNat) := by
        split
        · rw [List.length_cons, List.length_drop]
          omega
        · exact Nat.zero_le _
      simp only [List.length_append, List.length_take, List.length_replicate]
      omega

theorem hcFmtF64GBits_length (E : Guest) (bits : BitVec 64) (prec : ℕ) (upper : Bool) :
    (hcFmtF64GBits E bits prec upper).length ≤ 26 := by
  have hsign : (if bits >>> 63 ≠ 0 then [minus] else []).length ≤ 1 := by
    split
    · exact le_rfl
    · exact Nat.zero_le _
  rw [hcFmtF64GBits]
  set p := if prec < 1 then 1 else if prec > 17 then 17 else prec with hp
  have hple : p ≤ 17 := by
    rw [hp]
    split_ifs
    · omega
    · omega
    · omega
  have hlen : ∀ (l : List ℕ) (c : Bool), l.length = p →
      (trimZeros (if c then l.dropLast ++ [1] else l)).reverse.length ≤ 17 := by
    intro l c hl
    rw [List.length_reverse]
    refine (trimZeros_length _).trans ?_
    split
    · rw [List.length_append, List.length_dropLast, List.length_singleton]
      omega
    · omega
  have hraw : (List.ofFn fun i => ((E.scan bits p).digits i : ℕ)).reverse.length = p := by
    rw [List.length_reverse, List.length_ofFn]
  split
  · split
    · cases upper <;> decide
    · rw [List.length_append]
      refine (Nat.add_le_add_right hsign _).trans ?_
      cases upper <;> decide
  · split
    · rw [List.length_append]
      exact (Nat.add_le_add_right hsign _).trans (by decide)
    · rw [List.length_append]
      refine Nat.add_le_add hsign (gText_length (hlen _ _ ?_) hple _ _)
      split
      · exact (carryDigits_length _).trans hraw
      · exact hraw

/-! ## The kinds of numbers -/

/-- A number is what a double is written as, or digits in a base, or has a sign of its own. -/
theorem number_kinds (E : Guest) (code : Code) (precision : Option ℕ) (v : BitVec 64) :
    (∃ text, text.length ≤ 28 ∧ number E code precision v = splitSign text ∧
      numberText E code precision v = text) ∨
    (∃ base char, 1 < base ∧ (∀ d < base, char d ≠ minus ∧ char d ≠ plus) ∧
      number E code precision v = ([], unsignedDigits base char v) ∧
      numberText E code precision v = ((reversedDigits base 64 v.toNat).map char).reverse) ∨
    number E code precision v = signedDigits v ∧
      numberText E code precision v = if v.toInt < 0 then
        minus :: ((reversedDigits 10 32 (-(v + 1) + 1).toNat).map digitByte).reverse
      else ((reversedDigits 10 32 v.toNat).map digitByte).reverse := by
  have hlower : ∀ d < 16, lowerDigit d ≠ minus ∧ lowerDigit d ≠ plus := by decide
  have hupper : ∀ d < 16, upperDigit d ≠ minus ∧ upperDigit d ≠ plus := by decide
  have hdigit : ∀ d < 10, digitByte d ≠ minus ∧ digitByte d ≠ plus := by decide
  have hbinary : ∀ d < 2, lowerDigit d ≠ minus ∧ lowerDigit d ≠ plus := by decide
  have hf := Hc.hcFmtF64Bits_length E.doubles v (precision.getD 1 : ℕ)
  have hg : ∀ upper, (hcFmtF64GBits E v (max (precision.getD 6) 1) upper).length ≤ 28 := fun upper =>
    (hcFmtF64GBits_length E _ _ _).trans (by decide)
  cases code with
  | f => exact Or.inl ⟨_, hf, rfl, rfl⟩
  | upperF => exact Or.inl ⟨_, hf, rfl, rfl⟩
  | g => exact Or.inl ⟨_, hg _, rfl, rfl⟩
  | upperG => exact Or.inl ⟨_, hg _, rfl, rfl⟩
  | x => exact Or.inr (Or.inl ⟨16, _, by decide, hlower, rfl, rfl⟩)
  | upperX => exact Or.inr (Or.inl ⟨16, _, by decide, hupper, rfl, rfl⟩)
  | u => exact Or.inr (Or.inl ⟨10, _, by decide, hdigit, rfl, rfl⟩)
  | b => exact Or.inr (Or.inl ⟨2, _, by decide, hbinary, rfl, rfl⟩)
  | upperB => exact Or.inr (Or.inl ⟨2, _, by decide, hbinary, rfl, rfl⟩)
  | _ => exact Or.inr (Or.inr ⟨rfl, rfl⟩)

theorem signedDigits_eq (v : BitVec 64) :
    (if v.toInt < 0 then
        minus :: ((reversedDigits 10 32 (-(v + 1) + 1).toNat).map digitByte).reverse
      else ((reversedDigits 10 32 v.toNat).map digitByte).reverse) =
      (signedDigits v).1 ++ (signedDigits v).2 := by
  have hv := v.isLt
  have hlo := BitVec.le_toInt v
  rw [signedDigits]
  split
  case isTrue h =>
    rw [Hc.toInt_neg_toNat h, reversedDigits_eq (by decide) (by omega)]
    rfl
  case isFalse h =>
    have habs : v.toInt.natAbs = v.toNat := by
      rw [BitVec.toInt_eq_toNat_cond] at h ⊢
      split at h
      case isTrue hs => rw [if_pos hs, Int.natAbs_natCast]
      case isFalse hs => omega
    rw [habs, reversedDigits_eq (by decide) (by omega)]
    rfl

theorem splitSign_append (text : List UInt8) : (splitSign text).1 ++ (splitSign text).2 = text := by
  rw [splitSign]
  split
  · exact List.take_append_drop 1 text
  · rfl

theorem numberText_eq (E : Guest) (code : Code) (precision : Option ℕ) (v : BitVec 64) :
    numberText E code precision v = (number E code precision v).1 ++ (number E code precision v).2 := by
  obtain ⟨text, -, hn, ht⟩ | ⟨base, char, hb, -, hn, ht⟩ | ⟨hn, ht⟩ := number_kinds E code precision v
  · rw [hn, ht, splitSign_append]
  · have hv : v.toNat < base ^ 64 := v.isLt.trans_le (Nat.pow_le_pow_left hb 64)
    rw [hn, ht, reversedDigits_eq hb hv]
    rfl
  · rw [hn, ht, signedDigits_eq]

/-- **No number fills its buffer.** -/
theorem numberText_length (E : Guest) (code : Code) (precision : Option ℕ) (v : BitVec 64) :
    (numberText E code precision v).length < numberSize := by
  have hsize : numberSize = 128 := rfl
  obtain ⟨text, hlen, -, ht⟩ | ⟨base, char, -, -, -, ht⟩ | ⟨-, ht⟩ := number_kinds E code precision v
  · rw [ht]
    omega
  · have hdigits : (reversedDigits base 64 v.toNat).length ≤ 64 := by
      rw [reversedDigits]
      split
      · exact Nat.le_add_left 1 63
      · exact List.length_take_le _ _
    rw [ht, List.length_reverse, List.length_map]
    omega
  · have hdigits : ∀ n, (reversedDigits 10 32 n).length ≤ 32 := by
      intro n
      rw [reversedDigits]
      split
      · exact Nat.le_add_left 1 31
      · exact List.length_take_le _ _
    rw [ht]
    split
    · have := hdigits (-(v + 1) + 1).toNat
      rw [List.length_cons, List.length_reverse, List.length_map]
      omega
    · have := hdigits v.toNat
      rw [List.length_reverse, List.length_map]
      omega

/-- A sign that stands alone, or digits without one. -/
def Signed (p : List UInt8 × List UInt8) : Prop :=
  p.1 = [] ∧ p.2.head? ≠ some minus ∧ p.2.head? ≠ some plus ∨ p.1 = [minus] ∨ p.1 = [plus]

theorem unsigned_numeral {base n : ℕ} {char : ℕ → UInt8} (hbase : 1 < base)
    (hchar : ∀ d < base, char d ≠ minus ∧ char d ≠ plus) : Signed ([], (numeral base n).map char) := by
  cases hn : numeral base n with
  | nil => exact absurd hn (numeral_ne_nil base n)
  | cons d ds =>
    have hd : d < base := lt_of_mem_numeral hbase (hn ▸ List.mem_cons_self)
    exact Or.inl ⟨rfl, fun h => (hchar d hd).1 (Option.some.inj h),
      fun h => (hchar d hd).2 (Option.some.inj h)⟩

theorem splitSign_signed (text : List UInt8) : Signed (splitSign text) := by
  rw [splitSign]
  split
  case isTrue h =>
    refine Or.inr ?_
    cases text with
    | nil => exact h.imp nofun nofun
    | cons c text =>
      refine h.imp (fun h => ?_) fun h => ?_
      · rw [← Option.some.inj h]
        rfl
      · rw [← Option.some.inj h]
        rfl
  case isFalse h => exact Or.inl ⟨rfl, fun hm => h (Or.inl hm), fun hp => h (Or.inr hp)⟩

theorem number_signed (E : Guest) (code : Code) (precision : Option ℕ) (v : BitVec 64) :
    Signed (number E code precision v) := by
  obtain ⟨text, -, hn, -⟩ | ⟨base, char, hb, hchar, hn, -⟩ | ⟨hn, -⟩ := number_kinds E code precision v
  · rw [hn]
    exact splitSign_signed text
  · rw [hn]
    exact unsigned_numeral hb hchar
  · rw [hn, signedDigits]
    split
    · exact Or.inr (Or.inl rfl)
    · exact unsigned_numeral (by decide) (by decide)

theorem Signed.split {p : List UInt8 × List UInt8} (hp : Signed p)
    (h : (p.1 ++ p.2).head? = some minus ∨ (p.1 ++ p.2).head? = some plus) :
    (p.1 ++ p.2).take 1 = p.1 ∧ (p.1 ++ p.2).drop 1 = p.2 := by
  obtain ⟨hnil, hm, hpl⟩ | hs | hs := hp
  · rw [hnil] at h
    exact absurd h (not_or.mpr ⟨hm, hpl⟩)
  · rw [hs]
    exact ⟨rfl, rfl⟩
  · rw [hs]
    exact ⟨rfl, rfl⟩

theorem Signed.nil {p : List UInt8 × List UInt8} (hp : Signed p)
    (h : ¬((p.1 ++ p.2).head? = some minus ∨ (p.1 ++ p.2).head? = some plus)) : p.1 = [] := by
  obtain ⟨hnil, -, -⟩ | hs | hs := hp
  · exact hnil
  · exact absurd (Or.inl (by rw [hs]; rfl)) h
  · exact absurd (Or.inr (by rw [hs]; rfl)) h

/-! ## A number in its field -/

/-- **A number is put in its field.** -/
theorem putNumber_ends (h : out.length < buf.capacity) (E : Guest) (spec : Spec) (code : Code)
    (v : BitVec 64) :
    Ends Halt.IsFail (putNumber E buf spec code v out) fun out' =>
      out' = out ++ padNumber spec.left spec.zeroPad spec.width (number E code spec.precision v).1
        (number E code spec.precision v).2 ∧ out'.length < buf.capacity := by
  have hroom := numberText_length E code spec.precision v
  have htext := numberText_eq E code spec.precision v
  have hsigned := number_signed E code spec.precision v
  rw [putNumber]
  generalize numberText E code spec.precision v = text at hroom htext ⊢
  generalize number E code spec.precision v = p at htext hsigned ⊢
  obtain ⟨sign, digits⟩ := p
  replace htext : text = sign ++ digits := htext
  have hpad : (if spec.width > text.length then spec.width - text.length else 0) =
      spec.width - (sign.length + digits.length) := by
    rw [htext, List.length_append]
    split
    · rfl
    · omega
  rw [if_neg (Nat.not_le.mpr hroom)]
  dsimp only
  rw [hpad, padNumber]
  generalize spec.width - (sign.length + digits.length) = pad
  refine Ends.ite (fun _ => Ends.error (isFail_fail _)) fun _ => ?_
  refine Ends.ite (fun hleft => ?_) fun hleft => ?_
  · rw [if_neg hleft.2]
    refine Ends.ite (fun hzero => ?_) fun hzero => ?_
    · obtain ⟨hone, hrest⟩ := hsigned.split (htext ▸ hzero.2)
      replace hone : (sign ++ digits).take 1 = sign := hone
      replace hrest : (sign ++ digits).drop 1 = digits := hrest
      rw [if_pos hzero.1, htext, hone, hrest]
      refine (emit_ends h _).bind ?_
      rintro _ ⟨rfl, hlt⟩
      refine (emit_ends hlt _).bind ?_
      rintro _ ⟨rfl, hlt⟩
      refine (emit_ends hlt _).imp ?_
      rintro _ ⟨rfl, hlt⟩
      exact ⟨by rw [List.append_assoc, List.append_assoc, List.append_assoc], hlt⟩
    · refine (emit_ends h _).bind ?_
      rintro _ ⟨rfl, hlt⟩
      refine (emit_ends hlt _).imp ?_
      rintro _ ⟨rfl, hlt⟩
      refine ⟨?_, hlt⟩
      rw [htext, List.append_assoc]
      by_cases hz : spec.zeroPad = true
      · have hnil : sign = [] := hsigned.nil fun hhead => hzero ⟨hz, htext ▸ hhead⟩
        rw [if_pos hz, if_pos hz, hnil]
        rfl
      · rw [if_neg hz, if_neg hz, List.append_assoc]
  · refine (emit_ends h _).bind ?_
    rintro _ ⟨rfl, hlt⟩
    refine (emit_ends hlt _).imp ?_
    rintro _ ⟨rfl, hlt⟩
    refine ⟨?_, hlt⟩
    rw [htext, List.append_assoc]
    by_cases hl : spec.left = true
    · rw [if_pos hl]
    · have hzero : pad = 0 := by
        by_contra hne
        exact hleft ⟨hne, hl⟩
      rw [hzero, if_neg hl, List.replicate_zero, List.replicate_zero, List.append_nil]
      split
      · rw [List.append_nil]
      · rfl

/-! ## A string in its field -/

/-- What the loop over a string writes when nothing stops it. -/
def pieces (escapeDollars : Bool) (code : Code) : ℕ → List UInt8 → List UInt8
  | 0, _ => []
  | n + 1, s =>
    match stringPiece escapeDollars code s with
    | none => []
    | some (text, s) => text ++ pieces escapeDollars code n s

theorem stringPiece_cons {escapeDollars : Bool} (hq : code ≠ .q) (c : UInt8) (s : List UInt8) :
    stringPiece escapeDollars code (c :: s) =
      some (if code = .upperQ then encodeByte escapeDollars c else [c], s) := by
  unfold stringPiece
  exact if_neg hq

theorem stringPiece_q (escapeDollars : Bool) (s : List UInt8) :
    stringPiece escapeDollars .q s = (decodeByte s).map fun (ch, s) => ([ch], s) := by
  unfold stringPiece
  exact if_pos rfl

theorem pieces_q (escapeDollars : Bool) (n : ℕ) (s : List UInt8) :
    pieces escapeDollars .q n s = unquote n s := by
  induction n generalizing s with
  | zero => rfl
  | succ n ih =>
    rw [pieces, unquote, stringPiece_q]
    cases decodeByte s with
    | none => rfl
    | some p => exact congrArg (p.1 :: ·) (ih p.2)

theorem pieces_each {escapeDollars : Bool} (hq : code ≠ .q) (s : List UInt8) :
    pieces escapeDollars code s.length s =
      s.flatMap fun c => if code = .upperQ then encodeByte escapeDollars c else [c] := by
  induction s with
  | nil =>
    rfl
  | cons c s ih =>
    rw [List.length_cons, pieces, stringPiece_cons hq, List.flatMap_cons]
    exact congrArg _ ih

theorem pieces_eq (escapeDollars : Bool) (code : Code) (s : List UInt8) :
    pieces escapeDollars code s.length s = stringText escapeDollars code s := by
  have hplain : code ≠ .q → code ≠ .upperQ → pieces escapeDollars code s.length s = s := by
    intro hq hQ
    rw [pieces_each hq]
    simp only [if_neg hQ]
    exact List.flatMap_singleton' s
  cases code with
  | q => exact pieces_q _ _ _
  | upperQ =>
    have hne : Code.upperQ ≠ .q := nofun
    rw [pieces_each hne]
    simp only [if_true]
    rfl
  | _ => exact hplain nofun nofun

theorem stringLoop_ends (h : out.length < buf.capacity) (spec : Spec) (code : Code) (start rounds : ℕ)
    (s : List UInt8) :
    Ends Halt.IsFail (stringLoop buf spec code start rounds s out) fun out' =>
      out'.length < buf.capacity ∧ ∃ t r, out' = out ++ t ∧
        pieces spec.escapeDollars code rounds s = t ++ r ∧
        (r = [] ∨ spec.truncate = true ∧ spec.width ≠ 0 ∧ spec.width ≤ out'.length - start) := by
  induction rounds generalizing s out with
  | zero => exact Ends.ok ⟨h, [], [], (List.append_nil _).symm, rfl, Or.inl rfl⟩
  | succ rounds ih =>
    rw [stringLoop]
    refine Ends.ite (fun hfull => ?_) fun hfull => ?_
    · exact Ends.ok ⟨h, [], _, (List.append_nil _).symm, rfl, Or.inr hfull⟩
    · rw [pieces]
      cases hp : stringPiece spec.escapeDollars code s with
      | none => exact Ends.ok ⟨h, [], [], (List.append_nil _).symm, rfl, Or.inl rfl⟩
      | some p =>
        obtain ⟨text, s⟩ := p
        refine (emit_ends h text).bind ?_
        rintro _ ⟨rfl, hlt⟩
        refine (ih hlt s).imp ?_
        rintro _ ⟨hlt, t, r, rfl, htr, hstop⟩
        refine ⟨hlt, text ++ t, r, List.append_assoc _ _ _, ?_, hstop⟩
        dsimp only
        rw [htr, List.append_assoc]

theorem padString_ends (spec : Spec) (text : List UInt8) (h : (out ++ text).length < buf.capacity) :
    Ends Halt.IsFail (padString buf spec out.length (out ++ text)) fun out' =>
      out' = out ++ padText spec.left spec.width text ∧ out'.length < buf.capacity := by
  have hlen : (out ++ text).length - out.length = text.length := by
    rw [List.length_append, Nat.add_sub_cancel_left]
  rw [padString, hlen, padText]
  refine Ends.ite (fun hwide => ?_) fun hwide => ?_
  · refine Ends.ite (fun _ => Ends.error (isFail_fail _)) fun hroom => ?_
    have hcap := buf.pos
    rw [List.length_append] at hroom h
    refine Ends.ite (fun hleft => ?_) fun hleft => ?_
    · rw [if_neg (by omega), if_neg hleft, List.take_left, List.drop_left, List.append_assoc]
      refine Ends.ok ⟨rfl, ?_⟩
      rw [List.length_append, List.length_append, List.length_replicate]
      omega
    · rw [if_pos (not_not.mp hleft)]
      refine (emit_ends (by rwa [List.length_append]) _).imp ?_
      rintro _ ⟨rfl, hlt⟩
      exact ⟨List.append_assoc _ _ _, hlt⟩
  · have hzero : spec.width - text.length = 0 := by omega
    refine Ends.ok ⟨?_, h⟩
    rw [hzero, List.replicate_zero, List.append_nil, List.nil_append, ite_self]

/-- **A string is put in its field**, cut off first if that is asked for. -/
theorem putString_ends (h : out.length < buf.capacity) (spec : Spec) (code : Code) (s : CString) :
    Ends Halt.IsFail (putString buf spec code s out) fun out' =>
      out' = out ++ padText spec.left spec.width
        (if spec.truncate = true ∧ spec.width ≠ 0
          then (stringText spec.escapeDollars code s.bytes).take spec.width
          else stringText spec.escapeDollars code s.bytes) ∧ out'.length < buf.capacity := by
  rw [putString]
  refine (stringLoop_ends h spec code out.length _ s.bytes).bind ?_
  rintro _ ⟨hlt, t, r, rfl, htr, hstop⟩
  rw [pieces_eq] at htr
  have hlen : (out ++ t).length - out.length = t.length := by
    rw [List.length_append, Nat.add_sub_cancel_left]
  rw [hlen] at hstop
  rw [htr]
  dsimp only
  rw [hlen]
  by_cases htrunc : spec.truncate = true ∧ spec.width ≠ 0
  · have htake : (t ++ r).take spec.width = t.take spec.width := by
      rcases hstop with rfl | hstop
      · rw [List.append_nil]
      · exact List.take_append_of_le_length hstop.2.2
    have hcut : (if spec.truncate = true ∧ spec.width ≠ 0 ∧ t.length > spec.width
        then (out ++ t).take (out.length + spec.width) else out ++ t) = out ++ t.take spec.width := by
      split
      case isTrue hlong => exact List.take_length_add_append _
      case isFalse hshort =>
        rw [List.take_of_length_le]
        by_contra hlong
        exact hshort ⟨htrunc.1, htrunc.2, Nat.not_le.mp hlong⟩
    rw [hcut, if_pos htrunc, htake]
    refine padString_ends spec _ ?_
    rw [List.length_append] at hlt ⊢
    have := List.length_take_le' spec.width t
    omega
  · have hnil : r = [] := hstop.resolve_right fun hs => htrunc ⟨hs.1, hs.2.1⟩
    rw [if_neg fun hs => htrunc ⟨hs.1, hs.2.1⟩, if_neg htrunc, hnil, List.append_nil]
    exact padString_ends spec t hlt

end ZealBringup.Zc
