import Mathlib
import ZealBringup.Zc.Fields

/-!
# What the formatter writes

The formatter reads its directives as they are spelled, and writes what they stand for.

* `readFlags_eq`, `readWidth_ends`, `readPrecision_eq`, `readDollars_eq` — the parts of a directive.
* `directive_ends`, `formatRound_ends`, `formatLoop_ends` — a directive, a round and the loop.
* `formatText_renders` — the whole text.
-/

namespace ZealBringup.Zc

open Hc (hcFmtF64Bits isDigit percent dot minus plus zero blank)
open Numeral Checked

attribute [local instance] threeDollars

variable {buf : Buffer} {out f g : List UInt8} {E : Guest} {args : FormatArgs} {arg : ℕ}

/-! ## The parts of a directive -/

theorem readFlags_eq (left zeroPad : Bool) (f : List UInt8) : ∃ flags : List Flag,
    f = flags.map Flag.byte ++ (readFlags left zeroPad f).2.2 ∧
      (readFlags left zeroPad f).1 = (left || decide (Flag.left ∈ flags)) ∧
      (readFlags left zeroPad f).2.1 = (zeroPad || decide (Flag.zeros ∈ flags)) ∧
      (readFlags left zeroPad f).2.2.head? ≠ some zero := by
  induction f generalizing left zeroPad with
  | nil => exact ⟨[], rfl, (Bool.or_false _).symm, (Bool.or_false _).symm, nofun⟩
  | cons c f ih =>
    rw [readFlags]
    split_ifs with hm hz
    · obtain ⟨flags, hf, hl, hzp, hhead⟩ := ih true zeroPad
      refine ⟨.left :: flags, ?_, ?_, ?_, hhead⟩
      · rw [List.map_cons, List.cons_append, ← hf, hm]
        rfl
      · rw [hl]
        simp
      · rw [hzp]
        simp
    · obtain ⟨flags, hf, hl, hzp, hhead⟩ := ih left true
      refine ⟨.zeros :: flags, ?_, ?_, ?_, hhead⟩
      · rw [List.map_cons, List.cons_append, ← hf, hz]
        rfl
      · rw [hl]
        simp
      · rw [hzp]
        simp
    · exact ⟨[], rfl, (Bool.or_false _).symm, (Bool.or_false _).symm,
        fun h => hz (Option.some.inj h)⟩

theorem exists_digit {c : UInt8} (h : isDigit c = true) :
    ∃ d : Fin 10, c = digitByte d ∧ c.toNat - 0x30 = d := by
  have hall : ∀ c : UInt8, isDigit c = true → c.toNat - 0x30 < 10 ∧ c = digitByte (c.toNat - 0x30) := by
    intro c hc
    rw [isDigit, decide_eq_true_iff] at hc
    have h1 : 48 ≤ c.toNat := hc.1
    have h2 : c.toNat ≤ 57 := hc.2
    refine ⟨by omega, ?_⟩
    rw [digitByte, Nat.add_sub_cancel' h1, UInt8.ofNat_toNat]
  obtain ⟨hlt, heq⟩ := hall c h
  exact ⟨⟨c.toNat - 0x30, hlt⟩, heq, rfl⟩

/-- The digits of a width are read as its value, unless it is as wide as the buffer. -/
theorem widthDigits_eq (buf : Buffer) (width : ℕ) (f : List UInt8) : ∃ ds : List (Fin 10),
    f = digitBytes ds ++ (widthDigits buf width f).2 ∧
      (buf.capacity ≤ width → buf.capacity ≤ (widthDigits buf width f).1) ∧
      ((widthDigits buf width f).1 < buf.capacity →
        (widthDigits buf width f).1 = (ds.map Fin.val).foldl (fun v d => v * 10 + d) width) := by
  induction f generalizing width with
  | nil => exact ⟨[], rfl, id, fun _ => rfl⟩
  | cons c f ih =>
    rw [widthDigits]
    split_ifs with hd hw
    · obtain ⟨d, hc, hv⟩ := exists_digit hd
      have hcap := buf.fits
      have hexact : (width * 10 + (c.toNat - 0x30)) % 2 ^ 64 = width * 10 + d := by
        rw [hv]
        omega
      obtain ⟨ds, hf, -, hval⟩ := ih ((width * 10 + (c.toNat - 0x30)) % 2 ^ 64)
      refine ⟨d :: ds, ?_, fun hle => absurd hw (Nat.not_lt.mpr hle), fun hlt => ?_⟩
      · rw [digitBytes_cons, List.cons_append, ← hf, hc]
      · rw [hval hlt, hexact]
        rfl
    · obtain ⟨d, hc, -⟩ := exists_digit hd
      obtain ⟨ds, hf, hmono, -⟩ := ih width
      refine ⟨d :: ds, ?_, hmono, fun hlt => ?_⟩
      · rw [digitBytes_cons, List.cons_append, ← hf, hc]
      · exact absurd hlt (Nat.not_lt.mpr (hmono (Nat.not_lt.mp hw)))
    · exact ⟨[], rfl, id, fun _ => rfl⟩

theorem readWidth_ends (left : Bool) (harg : arg ≤ args.count) (hf : f.head? ≠ some zero) :
    Ends Halt.IsFail (readWidth buf args left arg f) fun r =>
      ∃ w : Width, (∀ ds, w = .digits ds → ∃ d ds', ds = d :: ds' ∧ d ≠ 0) ∧
        f = w.spelled ++ r.2.2.2 ∧ r.2.2.1 = (if w = .star then arg + 1 else arg) ∧
        r.2.2.1 ≤ args.count ∧
        r.1 = (left || decide (w = .star ∧ (args.arg arg).toInt < 0)) ∧
        (r.2.1 < buf.capacity → r.2.1 = match w with
          | .none => 0
          | .digits ds => value 10 (ds.map Fin.val)
          | .star => (args.arg arg).toInt.natAbs) := by
  cases f with
  | nil => exact Ends.ok ⟨.none, (fun _ h => by cases h), rfl, rfl, harg, by simp, fun _ => rfl⟩
  | cons c f =>
    rw [readWidth]
    refine Ends.ite (fun hstar => ?_) fun hstar => ?_
    · refine Ends.ite (fun _ => Ends.error (isFail_fail _)) fun hmore => ?_
      refine Ends.ite (fun hneg => ?_) fun hneg => ?_
      · refine Ends.ok ⟨.star, (fun _ h => by cases h), congrArg (· :: f) hstar, rfl,
          Nat.not_le.mp hmore, ?_, fun _ => ?_⟩
        · simp [hneg]
        · exact Hc.toInt_neg_toNat hneg
      · refine Ends.ok ⟨.star, (fun _ h => by cases h), congrArg (· :: f) hstar, rfl,
          Nat.not_le.mp hmore, ?_, fun _ => ?_⟩
        · simp [hneg]
        · show (args.arg arg).toNat = _
          rw [BitVec.toInt_eq_toNat_cond] at hneg ⊢
          split at hneg
          case isTrue hs => rw [if_pos hs, Int.natAbs_natCast]
          case isFalse hs =>
            have := (args.arg arg).isLt
            omega
    · obtain ⟨ds, hds, -, hval⟩ := widthDigits_eq buf 0 (c :: f)
      cases ds with
      | nil =>
        refine Ends.ok ⟨.none, (fun _ h => by cases h), hds, rfl, harg, by simp, hval⟩
      | cons d ds =>
        refine Ends.ok ⟨.digits (d :: ds), fun ds' h => ?_, hds, rfl, harg, by simp, hval⟩
        cases h
        refine ⟨d, ds, rfl, ?_⟩
        rintro rfl
        refine hf ?_
        rw [hds]
        rfl

theorem precisionDigits_eq (precision : ℕ) (f : List UInt8) : ∃ ds : List (Fin 10),
    f = digitBytes ds ++ (precisionDigits precision f).2 ∧
      (precisionDigits precision f).1 = (precisionDigits precision (digitBytes ds)).1 := by
  induction f generalizing precision with
  | nil => exact ⟨[], rfl, rfl⟩
  | cons c f ih =>
    rw [precisionDigits]
    split_ifs with hd hp
    · obtain ⟨d, hc, -⟩ := exists_digit hd
      obtain ⟨ds, hf, hval⟩ := ih (precision * 10 + (c.toNat - 0x30))
      refine ⟨d :: ds, ?_, ?_⟩
      · rw [digitBytes_cons, List.cons_append, ← hf, hc]
      · rw [hval, digitBytes_cons, precisionDigits, ← hc, if_pos hd, if_pos hp]
    · obtain ⟨d, hc, -⟩ := exists_digit hd
      obtain ⟨ds, hf, hval⟩ := ih precision
      refine ⟨d :: ds, ?_, ?_⟩
      · rw [digitBytes_cons, List.cons_append, ← hf, hc]
      · rw [hval, digitBytes_cons, precisionDigits, ← hc, if_pos hd, if_neg hp]
    · exact ⟨[], rfl, rfl⟩

theorem readPrecision_eq (f : List UInt8) : ∃ p : Option (List (Fin 10)),
    f = Directive.precisionSpelled p ++ (readPrecision f).2 ∧
      (readPrecision f).1 = p.map fun ds => (precisionDigits 0 (digitBytes ds)).1 := by
  cases f with
  | nil => exact ⟨none, rfl, rfl⟩
  | cons c f =>
    rw [readPrecision]
    split
    case isTrue hc =>
      obtain ⟨ds, hf, hval⟩ := precisionDigits_eq 0 f
      refine ⟨some ds, ?_, congrArg some hval⟩
      rw [hc]
      exact congrArg (dot :: ·) hf
    case isFalse hc => exact ⟨none, rfl, rfl⟩

theorem readTruncate_eq (f : List UInt8) :
    f = (if (readTruncate f).1 then [lowerT] else []) ++ (readTruncate f).2 := by
  cases f with
  | nil => rfl
  | cons c f =>
    rw [readTruncate]
    split
    case isTrue hc => exact congrArg (· :: f) hc
    case isFalse hc => rfl

theorem readDollars_eq (f : List UInt8) : ∃ n : Fin 3,
    f = List.replicate n dollar ++ (readDollars f).2 ∧ (readDollars f).1 = decide (n ≠ 0) ∧
      (n ≠ 0 → (readDollars f).2.head? = some upperQ) := by
  cases f with
  | nil => exact ⟨0, rfl, rfl, fun h => absurd rfl h⟩
  | cons c f =>
    rw [readDollars]
    dsimp only
    by_cases hc : c = dollar
    · rw [if_pos hc]
      by_cases hq : (if f.head? = some dollar then f.tail else f).head? = some upperQ
      · rw [if_pos hq]
        by_cases hd : f.head? = some dollar
        · rw [if_pos hd] at hq ⊢
          refine ⟨2, ?_, rfl, fun _ => hq⟩
          obtain ⟨t, rfl⟩ := List.head?_eq_some_iff.mp hd
          rw [hc]
          rfl
        · rw [if_neg hd] at hq ⊢
          exact ⟨1, congrArg (· :: f) hc, rfl, fun _ => hq⟩
      · rw [if_neg hq]
        exact ⟨0, rfl, rfl, fun h => absurd rfl h⟩
    · rw [if_neg hc]
      exact ⟨0, rfl, rfl, fun h => absurd rfl h⟩

theorem ofByte_eq_some {b : UInt8} {code : Code} (h : Code.ofByte b = some code) : code.byte = b := by
  rw [Code.ofByte] at h
  exact of_decide_eq_true (List.find?_some (p := fun code : Code => decide (code.byte = b)) h)

/-! ## A directive -/

/-- How many arguments a conversion takes. -/
def taken (code : Code) : ℕ := if code = .z ∨ code = .upperZ then 2 else 1

theorem next_eq {d : Directive} {code : Code} (h : d.code = some code) (arg : ℕ) :
    d.next arg = d.first arg + taken code := by
  rw [Directive.next, h]
  cases code <;> rfl

theorem stringArg_ends (E : Guest) (code : Code) (harg : arg < args.count) :
    Ends Halt.IsFail (stringArg E args code arg) fun r =>
      fieldString E args code arg = some r.1 ∧ r.2 = arg + taken code ∧ r.2 ≤ args.count := by
  have hpointer : Ends Halt.IsFail (if args.arg arg = 0 then .error (.fail "format %s argument is null")
      else .ok (args.string (args.arg arg), arg + 1) : Except Halt (CString × ℕ)) fun r =>
      (if args.arg arg = 0 then none else some (args.string (args.arg arg))) = some r.1 ∧
        r.2 = arg + 1 ∧ r.2 ≤ args.count := by
    refine Ends.ite (fun _ => Ends.error (isFail_fail _)) fun hp => ?_
    exact Ends.ok ⟨if_neg hp, rfl, harg⟩
  cases code with
  | o => exact Ends.ok ⟨rfl, rfl, harg⟩
  | z | upperZ =>
    rw [stringArg, fieldString]
    refine Ends.ite (fun _ => Ends.error (isFail_fail _)) fun hmore => ?_
    split
    case h_1 => exact Ends.error (isFail_fail _)
    case h_2 s hs =>
      rw [hs]
      exact Ends.ok ⟨rfl, rfl, Nat.not_lt.mp hmore⟩
  | upperS =>
    rw [stringArg, fieldString]
    cases E.helper .upperS (args.arg arg) 0 with
    | error message => exact Ends.error (isFail_fail _)
    | ok s => exact Ends.ok ⟨rfl, rfl, harg⟩
  | _ => exact hpointer

/-- The specification that a directive is read as. -/
def Directive.spec (d : Directive) (args : FormatArgs) (arg : ℕ) : Spec :=
  ⟨d.left args arg, d.zeros, d.truncate, d.dollars ≠ 0, d.fieldWidth args arg, d.precisionValue⟩

theorem convert_ends (h : out.length < buf.capacity) (E : Guest) (d : Directive) (code : Code)
    (harg : d.first arg < args.count) :
    Ends Halt.IsFail (convert E buf args (d.spec args arg) code (d.first arg) out) fun r =>
      ∃ u, d.codeText E args arg code = some u ∧ r.1 = d.first arg + taken code ∧ r.1 ≤ args.count ∧
        r.2 = out ++ u ∧ r.2.length < buf.capacity := by
  have hstring : ∀ code : Code, d.codeText E args arg code =
        ((fieldString E args code (d.first arg)).map fun s =>
          padText (d.left args arg) (d.fieldWidth args arg)
            (if d.truncate ∧ d.fieldWidth args arg ≠ 0
              then (stringText (d.dollars ≠ 0) code s.bytes).take (d.fieldWidth args arg)
              else stringText (d.dollars ≠ 0) code s.bytes)) →
      Ends Halt.IsFail (do
        let p ← stringArg E args code (d.first arg)
        let out ← putString buf (d.spec args arg) code p.1 out
        (.ok (p.2, out) : Except Halt (ℕ × List UInt8))) fun r =>
      ∃ u, d.codeText E args arg code = some u ∧ r.1 = d.first arg + taken code ∧ r.1 ≤ args.count ∧
        r.2 = out ++ u ∧ r.2.length < buf.capacity := by
    intro code hcode
    refine (stringArg_ends E code harg).bind ?_
    rintro ⟨s, arg'⟩ ⟨hs, hnext, hle⟩
    refine (putString_ends h _ code s).bind ?_
    rintro _ ⟨rfl, hlt⟩
    refine Ends.ok ⟨_, ?_, hnext, hle, rfl, hlt⟩
    rw [hcode, hs]
    rfl
  have hnumber : ∀ code : Code, taken code = 1 → d.codeText E args arg code =
        some (padNumber (d.left args arg) d.zeros (d.fieldWidth args arg)
          (number E code d.precisionValue (args.arg (d.first arg))).1
          (number E code d.precisionValue (args.arg (d.first arg))).2) →
      Ends Halt.IsFail (do
        let out ← putNumber E buf (d.spec args arg) code (args.arg (d.first arg)) out
        (.ok (d.first arg + 1, out) : Except Halt (ℕ × List UInt8))) fun r =>
      ∃ u, d.codeText E args arg code = some u ∧ r.1 = d.first arg + taken code ∧ r.1 ≤ args.count ∧
        r.2 = out ++ u ∧ r.2.length < buf.capacity := by
    intro code hone hcode
    refine (putNumber_ends h E _ code _).bind ?_
    rintro _ ⟨rfl, hlt⟩
    exact Ends.ok ⟨_, hcode, by rw [hone], harg, rfl, hlt⟩
  have hpacked : ∀ text : List UInt8, Ends Halt.IsFail (do
        let out ← emit buf out text
        (.ok (d.first arg + 1, out) : Except Halt (ℕ × List UInt8))) fun r =>
      ∃ u, some text = some u ∧ r.1 = d.first arg + 1 ∧ r.1 ≤ args.count ∧
        r.2 = out ++ u ∧ r.2.length < buf.capacity := by
    intro text
    refine (emit_ends h text).bind ?_
    rintro _ ⟨rfl, hlt⟩
    exact Ends.ok ⟨_, rfl, rfl, harg, rfl, hlt⟩
  cases code with
  | c => exact hpacked _
  | upperC => exact hpacked _
  | s => exact hstring .s rfl
  | q => exact hstring .q rfl
  | upperQ => exact hstring .upperQ rfl
  | o => exact hstring .o rfl
  | upperS => exact hstring .upperS rfl
  | z => exact hstring .z rfl
  | upperZ => exact hstring .upperZ rfl
  | d => exact hnumber .d rfl rfl
  | u => exact hnumber .u rfl rfl
  | x => exact hnumber .x rfl rfl
  | upperX => exact hnumber .upperX rfl rfl
  | b => exact hnumber .b rfl rfl
  | upperB => exact hnumber .upperB rfl rfl
  | f => exact hnumber .f rfl rfl
  | upperF => exact hnumber .upperF rfl rfl
  | g => exact hnumber .g rfl rfl
  | upperG => exact hnumber .upperG rfl rfl

/-- **A directive** is read as it is spelled, and writes what it stands for. -/
theorem directive_ends (h : out.length < buf.capacity) (E : Guest) (harg : arg ≤ args.count)
    (f : List UInt8) :
    Ends Halt.IsFail (directive E buf args f arg out) fun r =>
      ∃ (d : Directive) (u : List UInt8), f = d.spelled ++ r.1 ∧ d.text E args arg = some u ∧
        r.2.1 = d.next arg ∧ r.2.1 ≤ args.count ∧ r.2.2 = out ++ u ∧ r.2.2.length < buf.capacity := by
  rw [directive]
  obtain ⟨flags, hf, hleft, hzeros, hhead⟩ := readFlags_eq false false f
  generalize readFlags false false f = r at hf hleft hzeros hhead ⊢
  obtain ⟨left, zeroPad, f1⟩ := r
  dsimp only at hf hleft hzeros hhead ⊢
  refine (readWidth_ends left harg hhead).bind ?_
  rintro ⟨left', width, arg', f2⟩ ⟨w, hlead, hf1, hfirst, hle, hleft', hwidth⟩
  dsimp only at hf1 hfirst hle hleft' hwidth ⊢
  refine Ends.ite (fun _ => Ends.error (isFail_fail _)) fun hnarrow => ?_
  obtain ⟨p, hf2, hprec⟩ := readPrecision_eq f2
  generalize readPrecision f2 = r at hf2 hprec ⊢
  obtain ⟨precision, f3⟩ := r
  dsimp only at hf2 hprec ⊢
  have hf3 := readTruncate_eq f3
  generalize readTruncate f3 = r at hf3 ⊢
  obtain ⟨truncate, f4⟩ := r
  dsimp only at hf3 ⊢
  obtain ⟨n, hf4, hdollar, hQ⟩ := readDollars_eq f4
  generalize readDollars f4 = r at hf4 hdollar hQ ⊢
  obtain ⟨esc, f5⟩ := r
  dsimp only at hf4 hdollar hQ ⊢
  cases f5 with
  | nil => exact Ends.error (isFail_fail _)
  | cons c f6 =>
    -- the directive that has been read, for the code that follows
    have hd : ∀ (code : Option Code), (n ≠ 0 → code = some .upperQ) → Directive.codeByte code = c →
        ∃ d : Directive, d.code = code ∧ f = d.spelled ++ f6 ∧ d.first arg = arg' ∧
          d.spec args arg = ⟨left', zeroPad, truncate, esc, width, precision⟩ := by
      intro code hcode hbyte
      refine ⟨⟨flags, w, p, truncate, n, code, hlead, hcode⟩, rfl, ?_, hfirst.symm, ?_⟩
      · rw [Directive.spelled, hf, hf1, hf2, hf3, hf4, hbyte]
        simp only [List.append_assoc, List.singleton_append]
      · rw [Directive.spec, Spec.mk.injEq]
        refine ⟨?_, ?_, rfl, hdollar.symm, (hwidth (Nat.not_le.mp hnarrow)).symm, hprec.symm⟩
        · rw [hleft', hleft, Directive.left]
          simp
        · rw [hzeros, Directive.zeros]
          simp
    by_cases hpercent : c = percent
    · have hn : n = 0 := by
        by_contra hn
        have := Option.some.inj (hQ hn)
        rw [hpercent] at this
        exact absurd this (by decide)
      obtain ⟨d, hcode, hspelled, hdfirst, -⟩ := hd none (fun hn' => absurd hn hn') hpercent.symm
      dsimp only
      rw [if_pos hpercent]
      refine (fmtByte_ends h percent).bind ?_
      rintro _ ⟨rfl, hlt⟩
      refine Ends.ok ⟨d, [percent], hspelled, ?_, ?_, hle, rfl, hlt⟩
      · rw [Directive.text, hcode]
      · rw [Directive.next, hcode]
        exact hdfirst.symm
    · dsimp only
      rw [if_neg hpercent]
      cases hb : Code.ofByte c with
      | none => exact Ends.error (isFail_fail _)
      | some code =>
        refine Ends.ite (fun _ => Ends.error (isFail_fail _)) fun hmore => ?_
        have hbyte := ofByte_eq_some hb
        have hquoted : n ≠ 0 → some code = some Code.upperQ := by
          intro hn
          have hc := Option.some.inj (hQ hn)
          rw [hc] at hb
          exact hb.symm.trans (by decide)
        obtain ⟨d, hcode, hspelled, hdfirst, hspec⟩ := hd (some code) hquoted hbyte
        rw [← hdfirst, ← hspec]
        refine (convert_ends h E d code (by omega)).bind ?_
        rintro ⟨arg'', out'⟩ ⟨u, hu, hnext, hle', hout, hlt⟩
        refine Ends.ok ⟨d, u, hspelled, ?_, ?_, hle', hout, hlt⟩
        · rw [Directive.text, hcode]
          exact hu
        · rw [next_eq hcode]
          exact hnext

/-! ## The format -/

theorem skipMarker_length (f : List UInt8) : (skipMarker f).length ≤ f.length := by
  induction f with
  | nil => exact le_rfl
  | cons c f ih =>
    cases f with
    | nil => exact Nat.zero_le _
    | cons d f =>
      rw [skipMarker]
      split
      · exact (Nat.le_succ _).trans (Nat.le_succ _)
      · exact ih.trans (Nat.le_succ _)

theorem readMarker_length {f g : List UInt8} (h : readMarker f = some g) : g.length < f.length := by
  rw [readMarker] at h
  split_ifs at h with h1 h2
  · obtain ⟨t, rfl⟩ := h1
    cases h
    have := skipMarker_length t
    rw [List.length_append]
    exact Nat.lt_of_le_of_lt this (by simp)
  · obtain ⟨t, ht, u, rfl⟩ := h2
    cases h
    have hlen : ∀ t ∈ styleTags, t.length = 4 := by decide
    rw [List.length_drop, List.length_append, hlen t ht]
    omega

theorem readRepeat_eq {f g : List UInt8} (h : readRepeat f = some g) :
    ∃ c, (c = lowerC ∨ c = upperC) ∧ f = lowerH :: star :: c :: g := by
  match f, h with
  | a :: b :: c :: f, h =>
    rw [readRepeat] at h
    split_ifs at h with hc
    obtain ⟨rfl, rfl, hc⟩ := hc
    cases h
    exact ⟨c, hc, rfl⟩

theorem putRepeat_ends (h : out.length < buf.capacity) (count packed : BitVec 64) :
    Ends Halt.IsFail (putRepeat buf count packed out) fun out' =>
      out' = out ++ (List.replicate count.toInt.toNat (packedBytes packed)).flatten ∧
        out'.length < buf.capacity := by
  rw [putRepeat]
  refine Ends.ite (fun hpos => ?_) fun hpos => ?_
  · refine Ends.ite (fun _ => Ends.error (isFail_fail _)) fun _ => ?_
    have hcount : count.toInt.toNat = count.toNat := by
      have hp := hpos.1
      have hlt := count.isLt
      rw [BitVec.toInt_eq_toNat_cond] at hp ⊢
      split at hp
      case isTrue hs => rw [if_pos hs, Int.toNat_natCast]
      case isFalse hs => omega
    rw [hcount]
    exact emit_ends h _
  · refine Ends.ok ⟨?_, h⟩
    have hnil : (List.replicate count.toInt.toNat (packedBytes packed)).flatten = [] := by
      by_cases hp : count.toInt > 0
      · have hlen : (packedBytes packed).length = 0 := not_not.mp fun hne => hpos ⟨hp, hne⟩
        rw [List.length_eq_zero_iff.mp hlen]
        exact List.flatten_replicate_nil
      · rw [Int.toNat_of_nonpos (Int.not_lt.mp hp)]
        rfl
    rw [hnil, List.append_nil]

/-- A round writes what the part of the format stands for that it takes. -/
theorem formatRound_ends (h : out.length < buf.capacity) (E : Guest) (stripMarkers : Bool)
    (harg : arg ≤ args.count) (c : UInt8) (f : List UInt8) :
    Ends Halt.IsFail (formatRound E buf args stripMarkers c f arg out) fun r =>
      r.1.length ≤ f.length ∧ r.2.1 ≤ args.count ∧ ∃ u, r.2.2 = out ++ u ∧
        r.2.2.length < buf.capacity ∧ ∀ t, Renders E args stripMarkers r.1 r.2.1 t →
          Renders E args stripMarkers (c :: f) arg (u ++ t) := by
  rw [formatRound]
  cases hm : (if stripMarkers then readMarker (c :: f) else none) with
  | some g =>
    have hstrip : stripMarkers = true := by
      by_contra hs
      rw [if_neg hs] at hm
      cases hm
    rw [if_pos hstrip] at hm
    refine Ends.ok ⟨Nat.lt_succ_iff.mp (readMarker_length hm), harg, [], (List.append_nil _).symm, h,
      fun t ht => .marker hstrip hm ht⟩
  | none =>
    dsimp only
    refine Ends.ite (fun hc => ?_) fun hc => ?_
    · refine (fmtByte_ends h c).bind ?_
      rintro _ ⟨rfl, hlt⟩
      refine Ends.ok ⟨le_rfl, harg, [c], rfl, hlt, fun t ht => .char hc (fun hs => ?_) ht⟩
      rwa [if_pos hs] at hm
    · refine Ends.ite (fun _ => Ends.error (isFail_fail _)) fun _ => ?_
      obtain rfl := not_not.mp hc
      cases hr : readRepeat f with
      | some g =>
        obtain ⟨b, hb, rfl⟩ := readRepeat_eq hr
        dsimp only
        refine Ends.ite (fun _ => Ends.error (isFail_fail _)) fun hmore => ?_
        refine (putRepeat_ends h _ _).bind ?_
        rintro _ ⟨rfl, hlt⟩
        have hle := Nat.not_lt.mp hmore
        exact Ends.ok ⟨by simp only [List.length_cons]; omega, hle, _, rfl, hlt,
          fun t ht => .repeated hb hle ht⟩
      | none =>
        refine (directive_ends h E harg f).imp ?_
        rintro ⟨g, arg', out'⟩ ⟨d, u, hf, hu, hnext, hle, hout, hlt⟩
        dsimp only at hf hnext hle hout hlt ⊢
        refine ⟨?_, hle, u, hout, hlt, fun t ht => ?_⟩
        · rw [hf, List.length_append]
          exact Nat.le_add_left _ _
        · rw [hf]
          rw [hnext] at ht hle
          exact .field d hu hle ht

/-- **The loop**, by induction on its rounds: what is written is the text of what has been taken. -/
theorem formatLoop_ends (h : out.length < buf.capacity) (E : Guest) (stripMarkers : Bool)
    (harg : arg ≤ args.count) {rounds : ℕ} (hf : f.length ≤ rounds) :
    Ends Halt.IsFail (formatLoop E buf args stripMarkers rounds f arg out) fun out' =>
      out'.length < buf.capacity ∧ ∃ t, out' = out ++ t ∧ Renders E args stripMarkers f arg t := by
  induction rounds generalizing f arg out with
  | zero =>
    rw [List.length_eq_zero_iff.mp (Nat.le_zero.mp hf)]
    exact Ends.ok ⟨h, [], (List.append_nil _).symm, .done arg⟩
  | succ rounds ih =>
    cases f with
    | nil => exact Ends.ok ⟨h, [], (List.append_nil _).symm, .done arg⟩
    | cons c f =>
      refine (formatRound_ends h E stripMarkers harg c f).bind ?_
      rintro ⟨g, arg', out'⟩ ⟨hlen, hle, u, rfl, hlt, hrest⟩
      refine (ih hlt hle (hlen.trans (Nat.le_of_succ_le_succ hf))).imp ?_
      rintro _ ⟨hlt, t, rfl, ht⟩
      exact ⟨hlt, u ++ t, List.append_assoc _ _ _, hrest t ht⟩

/-- **The formatter.**  It stops through `zc_fail`, or what it writes stays inside the buffer and is the
one text that the format stands for, with its NUL. -/
theorem formatText_renders (E : Guest) (buf : Buffer) (format : Option CString) (args : FormatArgs)
    (stripMarkers : Bool) :
    Ends Halt.IsFail (formatText E buf format args stripMarkers) fun r =>
      ∃ f t, format = some f ∧ r = (t ++ [0], t.length) ∧ t.length < buf.capacity ∧
        ∀ t', Renders E args stripMarkers f.bytes 0 t' ↔ t' = t := by
  cases format with
  | none => exact Ends.error (isFail_fail _)
  | some f =>
    refine Ends.ite (fun _ => Ends.error (isFail_fail _)) fun _ => ?_
    have hpos : ([] : List UInt8).length < buf.capacity := buf.pos
    refine (formatLoop_ends hpos E stripMarkers (Nat.zero_le _) le_rfl).bind ?_
    rintro out ⟨hlt, t, htext, ht⟩
    rw [List.nil_append] at htext
    subst htext
    rw [if_neg (Nat.not_le.mpr hlt)]
    refine Ends.ok ⟨f, out, rfl, rfl, hlt, fun t' => ⟨fun ht' => ht'.unique ht, ?_⟩⟩
    rintro rfl
    exact ht

/-- No doubles and no helpers. -/
def bareGuest : Guest := ⟨Hc.noDoubles, fun _ _ => ⟨fun _ => 0, 0, 0⟩, fun _ _ _ => .error ""⟩

/-- `%5c` -/
def wideChar : Directive where
  flags := []
  width := .digits [5]
  precision := none
  truncate := false
  dollars := 0
  code := some .c
  lead := by
    intro ds h
    cases h
    exact ⟨5, [], rfl, by decide⟩
  quoted := fun h => absurd rfl h

/-- A character is not put in a field, whatever its width. -/
theorem formatText_char_width :
    ¬∀ (E : Guest) (buf : Buffer) (args : FormatArgs) (d : Directive) (f : CString) (r : List UInt8 × ℕ),
      d.code = some .c → f.bytes = percent :: d.spelled →
      formatText E buf (some f) args false = .ok r →
      r.1 = padText (d.left args 0) (d.fieldWidth args 0) (packedBytes (args.arg (d.first 0))) ++ [0] := by
  intro h
  have hrun := h bareGuest ⟨16, by decide, by decide⟩
    ⟨1, some fun _ => 0x41, fun _ => ⟨[], List.not_mem_nil⟩⟩ wideChar
    ⟨[0x25, 0x35, 0x63], by decide⟩ ([0x41, 0], 1) rfl (by decide) (by decide +kernel)
  revert hrun
  decide +kernel

end ZealBringup.Zc
