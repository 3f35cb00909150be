import Mathlib
import ZealBringup.Zc.Rendering

/-!
# Quoting

`%Q` quotes a string for a source text and `%q` takes the quotes away.

* `decodeByte_encodeByte` — one byte, whatever follows it.
* `unquote_quoted` — the whole string.
* `q_undoes_Q` — the same of the formatter.
-/

namespace ZealBringup.Zc

open Hc (percent zero)

variable {E : Guest} {buf : Buffer} {args : FormatArgs} {escapeDollars : Bool}

/-! ## Strings -/

/-- What `%Q` makes of a string. -/
def quoted (escapeDollars : Bool) (s : List UInt8) : List UInt8 := s.flatMap (encodeByte escapeDollars)

/-- The characters that are not part of an escape. -/
def unescaped : List UInt8 → List UInt8
  | [] => []
  | [c] => [c]
  | c :: d :: s => if c = backslash then unescaped s else c :: unescaped (d :: s)

theorem decodeByte_plain {c : UInt8} (hb : c ≠ backslash) (hd : c ≠ dollar) (rest : List UInt8) :
    decodeByte (c :: rest) = some (c, rest) := by
  cases rest with
  | nil => rfl
  | cons n rest => rw [decodeByte, if_neg hb, if_neg fun h => hd h.1]

/-- What is behind the backslash of an escape. -/
def escapes : List UInt8 := [quote, backslash, 0x6e, 0x72, lowerT]

theorem encodeByte_cases (escapeDollars : Bool) (c : UInt8) :
    (∃ e ∈ escapes, encodeByte escapeDollars c = [backslash, e] ∧
      ∀ rest, decodeByte (backslash :: e :: rest) = some (c, rest)) ∨
    (c = dollar ∧ encodeByte escapeDollars c =
      if escapeDollars then [backslash, 0x78, 0x32, 0x34] else [dollar, dollar]) ∨
    (c ∉ [quote, backslash, newline, carriage, tab, dollar] ∧ encodeByte escapeDollars c = [c]) := by
  rw [encodeByte]
  by_cases h1 : c = quote
  · rw [if_pos h1, h1]
    exact Or.inl ⟨quote, by decide, rfl, fun _ => rfl⟩
  rw [if_neg h1]
  by_cases h2 : c = backslash
  · rw [if_pos h2, h2]
    exact Or.inl ⟨backslash, by decide, rfl, fun _ => rfl⟩
  rw [if_neg h2]
  by_cases h3 : c = newline
  · rw [if_pos h3, h3]
    exact Or.inl ⟨0x6e, by decide, rfl, fun _ => rfl⟩
  rw [if_neg h3]
  by_cases h4 : c = carriage
  · rw [if_pos h4, h4]
    exact Or.inl ⟨0x72, by decide, rfl, fun _ => rfl⟩
  rw [if_neg h4]
  by_cases h5 : c = tab
  · rw [if_pos h5, h5]
    exact Or.inl ⟨lowerT, by decide, rfl, fun _ => rfl⟩
  rw [if_neg h5]
  by_cases h6 : c = dollar
  · rw [if_pos h6]
    exact Or.inr (Or.inl ⟨h6, rfl⟩)
  · rw [if_neg h6]
    refine Or.inr (Or.inr ⟨?_, rfl⟩)
    simp only [List.mem_cons, List.not_mem_nil, or_false, not_or]
    exact ⟨h1, h2, h3, h4, h5, h6⟩

/-- **A quoted byte is read back**, whatever follows it. -/
theorem decodeByte_encodeByte (escapeDollars : Bool) (c : UInt8) (rest : List UInt8) :
    decodeByte (encodeByte escapeDollars c ++ rest) = some (c, rest) := by
  obtain ⟨e, -, h, hdec⟩ | ⟨rfl, h⟩ | ⟨hc, h⟩ := encodeByte_cases escapeDollars c
  · rw [h]
    exact hdec rest
  · rw [h]
    cases escapeDollars with
    | true => rfl
    | false => rfl
  · rw [h]
    refine decodeByte_plain ?_ ?_ rest
    · rintro rfl
      exact hc (by decide)
    · rintro rfl
      exact hc (by decide)

theorem encodeByte_length (escapeDollars : Bool) (c : UInt8) :
    0 < (encodeByte escapeDollars c).length := by
  obtain ⟨e, -, h, -⟩ | ⟨-, h⟩ | ⟨-, h⟩ := encodeByte_cases escapeDollars c
  · rw [h]
    exact Nat.succ_pos _
  · rw [h]
    cases escapeDollars <;> decide
  · rw [h]
    exact Nat.succ_pos _

/-- **A quoted string is read back.** -/
theorem unquote_quoted (s : List UInt8) {n : ℕ} (hn : (quoted escapeDollars s).length ≤ n) :
    unquote n (quoted escapeDollars s) = s := by
  induction s generalizing n with
  | nil =>
    cases n with
    | zero => rfl
    | succ n => rfl
  | cons c s ih =>
    have hc := encodeByte_length escapeDollars c
    rw [quoted, List.flatMap_cons, ← quoted, List.length_append] at hn
    cases n with
    | zero => omega
    | succ n =>
      rw [quoted, List.flatMap_cons, ← quoted, unquote, decodeByte_encodeByte]
      exact congrArg (c :: ·) (ih (by omega))

theorem unescaped_cons {c : UInt8} (hc : c ≠ backslash) (s : List UInt8) :
    unescaped (c :: s) = c :: unescaped s := by
  cases s with
  | nil => rfl
  | cons d s => rw [unescaped, if_neg hc]

/-- What is quoted leaves no quote behind that is not escaped. -/
theorem quote_not_mem_unescaped (escapeDollars : Bool) (s : List UInt8) :
    quote ∉ unescaped (quoted escapeDollars s) := by
  induction s with
  | nil => exact List.not_mem_nil
  | cons c s ih =>
    have hplain : ∀ (c : UInt8) {t : List UInt8}, c ≠ backslash → c ≠ quote → quote ∉ unescaped t →
        quote ∉ unescaped (c :: t) := by
      intro c t hb hq ht
      rw [unescaped_cons hb, List.mem_cons, not_or]
      exact ⟨hq.symm, ht⟩
    rw [quoted, List.flatMap_cons, ← quoted]
    obtain ⟨e, -, h, -⟩ | ⟨-, h⟩ | ⟨hc, h⟩ := encodeByte_cases escapeDollars c
    · rw [h]
      exact ih
    · rw [h]
      cases escapeDollars with
      | true => exact hplain 0x32 (by decide) (by decide) (hplain 0x34 (by decide) (by decide) ih)
      | false => exact hplain dollar (by decide) (by decide) (hplain dollar (by decide) (by decide) ih)
    · rw [h]
      refine hplain c ?_ ?_ ih
      · rintro rfl
        exact hc (by decide)
      · rintro rfl
        exact hc (by decide)

/-- No byte is quoted as one of these. -/
theorem not_mem_quoted {b : UInt8} (hb : b ∈ [0, newline, carriage, tab]) {s : List UInt8}
    (hs : 0 ∉ s) : b ∉ quoted escapeDollars s := by
  have hescape : ∀ b ∈ [0, newline, carriage, tab], ∀ e ∈ escapes, b ∉ [backslash, e] := by decide +kernel
  have hdollar : ∀ b ∈ [0, newline, carriage, tab],
      b ∉ [backslash, 0x78, 0x32, 0x34] ∧ b ∉ [dollar, dollar] := by decide +kernel
  have hplain : ∀ b ∈ [0, newline, carriage, tab],
      b = 0 ∨ b ∈ [quote, backslash, newline, carriage, tab, dollar] := by decide +kernel
  intro hmem
  obtain ⟨c, hc, hbc⟩ := List.mem_flatMap.mp hmem
  obtain ⟨e, he, h, -⟩ | ⟨-, h⟩ | ⟨hno, h⟩ := encodeByte_cases escapeDollars c
  · exact hescape b hb e he (h ▸ hbc)
  · rw [h] at hbc
    cases escapeDollars with
    | true => exact (hdollar b hb).1 hbc
    | false => exact (hdollar b hb).2 hbc
  · rw [h, List.mem_singleton] at hbc
    subst hbc
    rcases hplain b hb with rfl | hspecial
    · exact hs hc
    · exact hno hspecial

theorem dollar_not_mem_quoted (s : List UInt8) : dollar ∉ quoted true s := by
  have hescape : ∀ e ∈ escapes, dollar ∉ [backslash, e] := by decide +kernel
  intro hmem
  obtain ⟨c, -, hbc⟩ := List.mem_flatMap.mp hmem
  obtain ⟨e, he, h, -⟩ | ⟨-, h⟩ | ⟨hno, h⟩ := encodeByte_cases true c
  · exact hescape e he (h ▸ hbc)
  · exact absurd (h ▸ hbc) (by decide)
  · rw [h, List.mem_singleton] at hbc
    rw [← hbc] at hno
    exact hno (by decide)

/-! ## The formatter -/

/-- One argument or more, the first of which points to a string. -/
structure FormatArgs.Passes (args : FormatArgs) (s : CString) : Prop where
  some : args.argv.isSome = true
  least : 1 ≤ args.argc.toInt
  most : args.argc.toInt ≤ 64
  valid : args.arg 0 ≠ 0
  string : args.string (args.arg 0) = s

theorem stringLoop_fits {spec : Spec} (hspec : spec.truncate = false) (code : Code) (start rounds : ℕ)
    (s out : List UInt8)
    (hfit : out.length + (pieces spec.escapeDollars code rounds s).length < buf.capacity) :
    stringLoop buf spec code start rounds s out = .ok (out ++ pieces spec.escapeDollars code rounds s) := by
  induction rounds generalizing s out with
  | zero => rw [stringLoop, pieces, List.append_nil]
  | succ rounds ih =>
    rw [stringLoop, pieces, hspec, if_neg fun h => Bool.false_ne_true h.1]
    rw [pieces] at hfit
    cases hp : stringPiece spec.escapeDollars code s with
    | none => rw [List.append_nil]
    | some p =>
      obtain ⟨text, s⟩ := p
      rw [hp] at hfit
      replace hfit : out.length + (text ++ pieces spec.escapeDollars code rounds s).length
        < buf.capacity := hfit
      rw [List.length_append] at hfit
      show (emit buf out text >>= fun out => stringLoop buf spec code start rounds s out) = _
      rw [emit_fits text (by omega)]
      refine (ih s (out ++ text) ?_).trans ?_
      · rw [List.length_append]
        omega
      · rw [List.append_assoc]

/-- With room for it, a string without a width is written as it is. -/
theorem putString_fits {spec : Spec} (htrunc : spec.truncate = false) (hwidth : spec.width = 0)
    (code : Code) (s : CString) (hfit : (stringText spec.escapeDollars code s.bytes).length < buf.capacity) :
    putString buf spec code s [] = .ok (stringText spec.escapeDollars code s.bytes) := by
  rw [← pieces_eq] at hfit ⊢
  have hloop := stringLoop_fits htrunc code 0 s.bytes.length s.bytes []
    (by rw [List.length_nil, Nat.zero_add]; exact hfit)
  rw [putString, List.length_nil, hloop]
  show padString buf spec 0 (if spec.truncate = true ∧ _ then _ else _) = _
  rw [if_neg fun h => absurd h.1 (by rw [htrunc]; exact Bool.false_ne_true), padString, hwidth,
    if_neg (Nat.not_lt_zero _), List.nil_append]

/-- A format that is one string conversion, and its code. -/
def stringFormat (dollars : ℕ) (code : Code) : List UInt8 :=
  percent :: (List.replicate dollars dollar ++ [code.byte])

/-- The conversions in question, and the dollars that may stand before them. -/
def StringConversion (dollars : ℕ) (code : Code) : Prop :=
  dollars = 0 ∧ (code = .q ∨ code = .upperQ) ∨ dollars = 1 ∧ code = .upperQ

theorem directive_string (hargs : 1 ≤ args.count) {dollars : ℕ} {code : Code}
    (h : StringConversion dollars code) :
    directive E buf args (List.replicate dollars dollar ++ [code.byte]) 0 [] =
      (convert E buf args ⟨false, false, false, decide (dollars ≠ 0), 0, none⟩ code 0 [] >>=
        fun r => .ok ([], r.1, r.2)) := by
  have hcap : ¬0 ≥ buf.capacity := Nat.not_le.mpr buf.pos
  have hcount : ¬0 ≥ args.count := Nat.not_le.mpr hargs
  obtain ⟨rfl, rfl | rfl⟩ | ⟨rfl, rfl⟩ := h
  · exact (if_neg hcap).trans (if_neg hcount)
  · exact (if_neg hcap).trans (if_neg hcount)
  · exact (if_neg hcap).trans (if_neg hcount)

/-- **One conversion of a string.** -/
theorem formatText_string {dollars : ℕ} {code : Code} (h : StringConversion dollars code)
    {f s : CString} (hf : f.bytes = stringFormat dollars code) (hs : args.Passes s)
    (stripMarkers : Bool)
    (hfit : (stringText (decide (dollars ≠ 0)) code s.bytes).length < buf.capacity) :
    formatText E buf (some f) args stripMarkers =
      .ok (stringText (decide (dollars ≠ 0)) code s.bytes ++ [0],
        (stringText (decide (dollars ≠ 0)) code s.bytes).length) := by
  have hargc := hs.least
  have hmost := hs.most
  have hcount : 1 ≤ args.count := by
    rw [FormatArgs.count]
    rw [BitVec.toInt_eq_toNat_cond] at hargc
    split at hargc
    · omega
    · have := args.argc.isLt
      omega
  have hcheck : ¬(args.argc.toInt < 0 ∨ args.argc.toInt > 64 ∨ args.argc ≠ 0 ∧ args.argv.isNone) := by
    have hsome := hs.some
    rintro (hneg | hmany | ⟨-, hnone⟩)
    · omega
    · omega
    · rw [Option.isNone_iff_eq_none] at hnone
      rw [hnone] at hsome
      cases hsome
  set spec : Spec := ⟨false, false, false, decide (dollars ≠ 0), 0, none⟩ with hspec
  have hput : putString buf spec code s [] = .ok (stringText (decide (dollars ≠ 0)) code s.bytes) :=
    putString_fits rfl rfl code s hfit
  have hconvert : convert E buf args spec code 0 [] =
      .ok (1, stringText (decide (dollars ≠ 0)) code s.bytes) := by
    have harg : stringArg E args code 0 = .ok (s, 1) := by
      have hq : code = .q ∨ code = .upperQ := h.elim (fun h => h.2) fun h => Or.inr h.2
      rcases hq with rfl | rfl
      · exact (if_neg hs.valid).trans (by rw [hs.string])
      · exact (if_neg hs.valid).trans (by rw [hs.string])
    have hdef : convert E buf args spec code 0 [] = (stringArg E args code 0 >>= fun r =>
        putString buf spec code r.1 [] >>= fun out => .ok (r.2, out)) := by
      have hq : code = .q ∨ code = .upperQ := h.elim (fun h => h.2) fun h => Or.inr h.2
      rcases hq with rfl | rfl
      · rfl
      · rfl
    rw [hdef, harg]
    show (putString buf spec code s [] >>= fun out => .ok (1, out)) = _
    rw [hput]
    rfl
  have hround : formatRound E buf args stripMarkers percent
      (List.replicate dollars dollar ++ [code.byte]) 0 [] =
      .ok ([], 1, stringText (decide (dollars ≠ 0)) code s.bytes) := by
    have hnone : (if stripMarkers then readMarker
        (percent :: (List.replicate dollars dollar ++ [code.byte])) else none) = none := by
      rw [readMarker_percent, ite_self]
    have hrep : readRepeat (List.replicate dollars dollar ++ [code.byte]) = none := by
      obtain ⟨rfl, rfl | rfl⟩ | ⟨rfl, rfl⟩ := h <;> rfl
    have hne : List.replicate dollars dollar ++ [code.byte] ≠ [] := by simp
    rw [formatRound, hnone]
    dsimp only
    rw [if_neg (not_not.mpr rfl), if_neg hne, hrep]
    dsimp only
    rw [directive_string hcount h, hconvert]
    rfl
  have hloop : formatLoop E buf args stripMarkers f.bytes.length f.bytes 0 [] =
      .ok (stringText (decide (dollars ≠ 0)) code s.bytes) := by
    rw [hf, stringFormat, List.length_cons, formatLoop, hround]
    show formatLoop E buf args stripMarkers (List.replicate dollars dollar ++ [code.byte]).length [] 1 _ = _
    rw [List.length_append, List.length_singleton, formatLoop]
  rw [formatText, if_neg hcheck, hloop]
  exact if_neg (Nat.not_le.mpr hfit)

/-- **`%q` undoes `%Q`**, with and without the dollar. -/
theorem q_undoes_Q (E : Guest) (stripMarkers escapeDollars : Bool) (s : CString) :
    ∃ t : CString,
      (quote ∉ unescaped t.bytes ∧ newline ∉ t.bytes ∧ carriage ∉ t.bytes ∧ tab ∉ t.bytes) ∧
      (escapeDollars = true → dollar ∉ t.bytes) ∧
      (∀ (buf : Buffer) (args : FormatArgs) (f : CString), args.Passes s →
        t.bytes.length < buf.capacity →
        f.bytes = stringFormat (if escapeDollars then 1 else 0) .upperQ →
        formatText E buf (some f) args stripMarkers = .ok (t.bytes ++ [0], t.bytes.length)) ∧
      ∀ (buf : Buffer) (args : FormatArgs) (f : CString), args.Passes t →
        s.bytes.length < buf.capacity → f.bytes = stringFormat 0 .q →
        formatText E buf (some f) args stripMarkers = .ok (s.bytes ++ [0], s.bytes.length) := by
  refine ⟨⟨quoted escapeDollars s.bytes, not_mem_quoted List.mem_cons_self s.nonzero⟩,
    ⟨quote_not_mem_unescaped _ _, not_mem_quoted (by decide) s.nonzero,
      not_mem_quoted (by decide) s.nonzero, not_mem_quoted (by decide) s.nonzero⟩, ?_, ?_, ?_⟩
  · rintro rfl
    exact dollar_not_mem_quoted s.bytes
  · intro buf args f hs hfit hf
    have hflag : decide ((if escapeDollars then 1 else 0) ≠ 0) = escapeDollars := by
      cases escapeDollars <;> rfl
    have hconv : StringConversion (if escapeDollars then 1 else 0) .upperQ := by
      cases escapeDollars with
      | true => exact Or.inr ⟨rfl, rfl⟩
      | false => exact Or.inl ⟨rfl, Or.inr rfl⟩
    have hrun := formatText_string (E := E) hconv hf hs stripMarkers (by rw [hflag]; exact hfit)
    rw [hflag] at hrun
    exact hrun
  · intro buf args f ht hfit hf
    have htext : stringText (decide (0 ≠ 0)) .q (quoted escapeDollars s.bytes) = s.bytes :=
      unquote_quoted s.bytes le_rfl
    have hrun := formatText_string (E := E) (Or.inl ⟨rfl, Or.inl rfl⟩) hf ht stripMarkers
      (by rw [htext]; exact hfit)
    rw [htext] at hrun
    exact hrun

end ZealBringup.Zc
