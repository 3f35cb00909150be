import Mathlib
import ZealBringup.Hc.Number

/-!
# GrPrint

`hc_builtin_grprintn` formats up to five arguments into a buffer of 192 bytes.  The end of the buffer
is looked at once for each character or conversion of the format, and again for each character of a
string argument, but not for the characters of a number.

* `hcFmtF64Bits` — a double as text.
* `hcBuiltinGrprintn` — what is written to the buffer.
* `grprintn_in_buffer_iff` — when it stays inside.
-/

namespace ZealBringup.Hc

def percent : UInt8 := 0x25
def dot : UInt8 := 0x2e

/-! ## Doubles -/

/-- The arithmetic of the machine's doubles, as far as it is used here. -/
structure Doubles where
  double : Type
  ofBits : BitVec 64 → double
  isNaN : double → Bool
  ltZero : double → Bool
  neg : double → double
  add : double → double → double
  sub : double → double → double
  mul : double → double → double
  div : double → double → double
  half : double
  ofInt : BitVec 64 → double
  toInt : double → BitVec 64

/-- `prec` between 0 and 6. -/
def clampPrec (prec : ℤ) : ℕ := if prec < 0 then 0 else if prec > 6 then 6 else prec.toNat

/-- The digits of the integer part, of which there are at most twenty. -/
def wholeDigits (ip : BitVec 64) : List UInt8 :=
  if ip.toNat = 0 then [zero] else (((Nat.digits 10 ip.toNat).take 20).map digitChar).reverse

/-- So many digits of the fraction, the last one found first. -/
def fracDigits : ℕ → ℤ → List UInt8
  | 0, _ => []
  | n + 1, f => fracDigits n (f.tdiv 10) ++ [UInt8.ofInt (0x30 + f.tmod 10)]

/-- What `hc_fmt_f64_bits` appends. -/
def hcFmtF64Bits (F : Doubles) (bits : BitVec 64) (prec : ℤ) : List UInt8 :=
  let v := F.ofBits bits
  let prec := clampPrec prec
  if F.isNaN v then [0x6e, 0x61, 0x6e]
  else
    let neg := F.ltZero v
    let v := if neg then F.neg v else v
    let scale := BitVec.ofNat 64 (10 ^ prec)
    let v := F.add v (F.div F.half (F.ofInt scale))
    let ip := F.toInt v
    let frac := if prec > 0 then F.toInt (F.mul (F.sub v (F.ofInt ip)) (F.ofInt scale)) else 0
    let carry := prec > 0 ∧ frac.toInt ≥ scale.toInt
    let ip := if carry then ip + 1 else ip
    let frac := if carry then 0 else frac
    (if neg then [minus] else []) ++ wholeDigits ip ++
      if prec > 0 then dot :: fracDigits prec frac.toInt else []

/-! ## The format -/

/-- What is appended at once.  Of a string the part that fits is appended. -/
structure Piece where
  text : List UInt8
  isString : Bool
  deriving DecidableEq, Repr

/-- The arguments, and the strings that they may point to. -/
structure Args where
  argv : ℕ → BitVec 64
  string : BitVec 64 → List UInt8

def skipDigits : List UInt8 → List UInt8
  | [] => []
  | c :: f => if isDigit c then skipDigits f else c :: f

/-- `prec = prec * 10 + (*f - '0');` -/
def precDigits (prec : BitVec 32) : List UInt8 → BitVec 32 × List UInt8
  | [] => (prec, [])
  | c :: f =>
    if isDigit c then precDigits (prec * 10 + BitVec.ofNat 32 (c.toNat - 0x30)) f
    else (prec, c :: f)

/-- The optional width and precision before a conversion. -/
def readPrec (f : List UInt8) : BitVec 32 × List UInt8 :=
  match skipDigits f with
  | [] => (1, [])
  | c :: f => if c = dot then precDigits 0 f else (1, c :: f)

/-- A conversion of an argument. -/
def convert (F : Doubles) (args : Args) (prec : BitVec 32) (av : BitVec 64) :
    List UInt8 → Piece × List UInt8
  | [] => (⟨[percent], false⟩, [])
  | c :: f =>
    if c = 0x66 ∨ c = 0x46 then (⟨hcFmtF64Bits F av prec.toInt, false⟩, f)
    else if c = 0x64 then (⟨hcFmtI64 av false, false⟩, f)
    else if c = upperX ∨ c = lowerX then (⟨hcFmtI64 av true, false⟩, f)
    else if c = 0x63 then (⟨[UInt8.ofBitVec (av.setWidth 8)], false⟩, f)
    else if c = 0x73 then (⟨if av = 0 then [] else args.string av, true⟩, f)
    else (⟨[percent, c], false⟩, f)

/-- One round of the loop of `hc_builtin_grprintn`: the piece, what is left of the format and how many
arguments have been taken, if the loop goes on. -/
def nextPiece (F : Doubles) (args : Args) (narg : ℕ) (f : List UInt8) (ai : ℕ) :
    Option (Piece × List UInt8 × ℕ) :=
  match f with
  | [] => none
  | c :: f =>
    if c ≠ percent then some (⟨[c], false⟩, f, ai)
    else if f.head? = some percent then some (⟨[percent], false⟩, f.tail, ai)
    else if ai ≥ narg then none
    else
      let (prec, f) := readPrec f
      let (p, f) := convert F args prec (args.argv ai) f
      some (p, f, ai + 1)

/-- `end - buf` -/
def bufEnd : ℕ := 192 - 1

/-- A piece goes behind what has been written. -/
def emit (out : List UInt8) (p : Piece) : List UInt8 :=
  if p.isString then out ++ p.text.take (bufEnd - out.length) else out ++ p.text

/-- The loop.  A round takes at least one character of the format, so their number bounds the rounds. -/
def grprintnLoop (F : Doubles) (args : Args) (narg : ℕ) :
    ℕ → List UInt8 → ℕ → List UInt8 → List UInt8 × ℕ
  | 0, _, ai, out => (out, ai)
  | rounds + 1, f, ai, out =>
    if out.length < bufEnd then
      match nextPiece F args narg f ai with
      | none => (out, ai)
      | some (p, f, ai) => grprintnLoop F args narg rounds f ai (emit out p)
    else (out, ai)

/-- `(int)nargs` between 0 and 5. -/
def clampArgs (nargs : BitVec 64) : ℕ :=
  let narg := (nargs.setWidth 32).toInt
  if narg < 0 then 0 else if narg > 5 then 5 else narg.toNat

/-- The bytes that are written from the start of `buf` on, before the NUL, and the number of arguments
taken. -/
def hcBuiltinGrprintn (F : Doubles) (args : Args) (fmt : List UInt8) (nargs : BitVec 64) :
    List UInt8 × ℕ :=
  grprintnLoop F args (clampArgs nargs) fmt.length fmt 0 []

/-! ## The rounds -/

variable {F : Doubles} {args : Args} {narg rounds ai ai' : ℕ} {f f' out : List UInt8} {p : Piece}

theorem skipDigits_length (f : List UInt8) : (skipDigits f).length ≤ f.length := by
  induction f with
  | nil => exact le_rfl
  | cons c f ih =>
    rw [skipDigits]
    split
    · exact ih.trans (Nat.le_succ _)
    · exact le_rfl

theorem precDigits_length (prec : BitVec 32) (f : List UInt8) :
    (precDigits prec f).2.length ≤ f.length := by
  induction f generalizing prec with
  | nil => exact le_rfl
  | cons c f ih =>
    rw [precDigits]
    split
    · exact (ih _).trans (Nat.le_succ _)
    · exact le_rfl

theorem readPrec_length (f : List UInt8) : (readPrec f).2.length ≤ f.length := by
  have hskip := skipDigits_length f
  rw [readPrec]
  cases h : skipDigits f with
  | nil => exact Nat.zero_le _
  | cons c g =>
    rw [h, List.length_cons] at hskip
    dsimp only
    split
    · exact (precDigits_length 0 g).trans ((Nat.le_succ _).trans hskip)
    · exact hskip

theorem convert_length (F : Doubles) (args : Args) (prec : BitVec 32) (av : BitVec 64) (f : List UInt8) :
    (convert F args prec av f).2.length ≤ f.length := by
  cases f with
  | nil => exact le_rfl
  | cons c f =>
    rw [convert]
    split_ifs
    all_goals exact Nat.le_succ _

/-- A round takes some of the format, and an argument only if there is one. -/
theorem nextPiece_takes (h : nextPiece F args narg f ai = some (p, f', ai')) :
    f'.length < f.length ∧ (ai ≤ narg → ai' ≤ narg) := by
  cases f with
  | nil => cases h
  | cons c f =>
    rw [nextPiece] at h
    split at h
    · cases h
      exact ⟨Nat.lt_succ_self _, id⟩
    split at h
    · cases h
      refine ⟨?_, id⟩
      rw [List.length_tail, List.length_cons]
      omega
    split at h
    · cases h
    · rename_i hai
      cases h
      refine ⟨?_, fun _ => by omega⟩
      exact Nat.lt_succ_of_le ((convert_length _ _ _ _ _).trans (readPrec_length f))

/-- More rounds than the format has characters change nothing. -/
theorem grprintnLoop_rounds (h : f.length ≤ rounds) (more : ℕ) :
    grprintnLoop F args narg (rounds + more) f ai out = grprintnLoop F args narg rounds f ai out := by
  induction rounds generalizing f ai out with
  | zero =>
    have hf : f = [] := List.eq_nil_of_length_eq_zero (Nat.le_zero.mp h)
    subst hf
    rw [Nat.zero_add, grprintnLoop]
    cases more with
    | zero => rfl
    | succ more =>
      rw [grprintnLoop]
      split
      · rfl
      · rfl
  | succ rounds ih =>
    rw [Nat.add_right_comm, grprintnLoop, grprintnLoop]
    split
    · cases hnext : nextPiece F args narg f ai with
      | none => rfl
      | some r =>
        obtain ⟨p, f', ai'⟩ := r
        exact ih (Nat.le_of_lt_succ ((nextPiece_takes hnext).1.trans_le h))
    · rfl

/-! ## The buffer -/

/-- The pieces of a format, if the buffer had no end. -/
def pieces (F : Doubles) (args : Args) (narg : ℕ) : ℕ → List UInt8 → ℕ → List Piece
  | 0, _, _ => []
  | rounds + 1, f, ai =>
    match nextPiece F args narg f ai with
    | none => []
    | some (p, f, ai) => p :: pieces F args narg rounds f ai

/-- How long the pieces are together. -/
def width (ps : List Piece) : ℕ := (ps.map fun p => p.text.length).sum

/-- Whatever comes behind `n` characters and does not have its end looked at ends in the buffer, if it
begins before its end. -/
def Fits (n : ℕ) (ps : List Piece) : Prop :=
  ∀ qs p rs, ps = qs ++ p :: rs → p.isString = false → n + width qs < bufEnd →
    n + width qs + p.text.length ≤ bufEnd

theorem width_cons (p : Piece) (ps : List Piece) : width (p :: ps) = p.text.length + width ps := rfl

theorem fits_nil (n : ℕ) : Fits n [] := by
  intro qs p rs h
  exact absurd h.symm (List.append_ne_nil_of_right_ne_nil _ (List.cons_ne_nil _ _))

theorem fits_of_le {n : ℕ} (h : bufEnd ≤ n) (ps : List Piece) : Fits n ps := by
  intro qs p rs _ _ hlt
  omega

theorem fits_cons {n : ℕ} {p : Piece} {ps : List Piece} : Fits n (p :: ps) ↔
    (p.isString = false → n < bufEnd → n + p.text.length ≤ bufEnd) ∧ Fits (n + p.text.length) ps := by
  constructor
  · intro h
    refine ⟨fun hs hn => h [] p ps rfl hs hn, fun qs q rs heq hq hlt => ?_⟩
    have := h (p :: qs) q rs (by rw [heq]; rfl) hq
    rw [width_cons] at this
    omega
  · rintro ⟨h1, h2⟩ qs q rs heq hq hlt
    cases qs with
    | nil =>
      cases heq
      exact h1 hq hlt
    | cons r qs =>
      cases heq
      rw [width_cons] at hlt ⊢
      have := h2 qs q rs rfl hq
      omega

theorem grprintnLoop_full (h : bufEnd ≤ out.length) :
    grprintnLoop F args narg rounds f ai out = (out, ai) := by
  cases rounds with
  | zero => rfl
  | succ rounds => exact if_neg (Nat.not_lt.mpr h)

/-- The loop stays in the buffer exactly when its pieces fit. -/
theorem grprintnLoop_le_iff (h : out.length ≤ bufEnd) :
    (grprintnLoop F args narg rounds f ai out).1.length ≤ bufEnd ↔
      Fits out.length (pieces F args narg rounds f ai) := by
  induction rounds generalizing f ai out with
  | zero => exact iff_of_true h (fits_nil _)
  | succ rounds ih =>
    rcases Nat.lt_or_ge out.length bufEnd with hlt | hge
    · rw [grprintnLoop, if_pos hlt, pieces]
      cases hnext : nextPiece F args narg f ai with
      | none => exact iff_of_true h (fits_nil _)
      | some r =>
        obtain ⟨p, f', ai'⟩ := r
        dsimp only
        rw [fits_cons, emit]
        cases hs : p.isString with
        | false =>
          rw [if_neg Bool.false_ne_true]
          have hlen : (out ++ p.text).length = out.length + p.text.length := List.length_append
          by_cases hfit : out.length + p.text.length ≤ bufEnd
          · rw [ih (hlen ▸ hfit), hlen]
            exact (and_iff_right fun _ _ => hfit).symm
          · rw [grprintnLoop_full (by omega), hlen]
            exact iff_of_false hfit fun hh => hfit (hh.1 rfl hlt)
        | true =>
          rw [if_pos rfl]
          have hlen : (out ++ p.text.take (bufEnd - out.length)).length =
              min (out.length + p.text.length) bufEnd := by
            rw [List.length_append, List.length_take]
            omega
          have hstr : (true = false → out.length < bufEnd → out.length + p.text.length ≤ bufEnd) :=
            fun h => absurd h.symm Bool.false_ne_true
          rw [and_iff_right hstr, ih (by omega), hlen]
          by_cases hfit : out.length + p.text.length ≤ bufEnd
          · rw [min_eq_left hfit]
          · exact iff_of_true (fits_of_le (by omega) _) (fits_of_le (by omega) _)
    · rw [grprintnLoop_full hge]
      exact iff_of_true h (fits_of_le hge _)

theorem grprintnLoop_used (h : ai ≤ narg) : (grprintnLoop F args narg rounds f ai out).2 ≤ narg := by
  induction rounds generalizing f ai out with
  | zero => exact h
  | succ rounds ih =>
    rw [grprintnLoop]
    split
    · cases hnext : nextPiece F args narg f ai with
      | none => exact h
      | some r =>
        obtain ⟨p, f', ai'⟩ := r
        exact ih ((nextPiece_takes hnext).2 h)
    · exact h

theorem clampArgs_le (nargs : BitVec 64) : clampArgs nargs ≤ nargs.toNat := by
  have hlow : (nargs.setWidth 32).toNat ≤ nargs.toNat := by
    rw [BitVec.toNat_setWidth]
    exact Nat.mod_le _ _
  have hint : (nargs.setWidth 32).toInt ≤ (nargs.setWidth 32).toNat := by
    rw [BitVec.toInt_eq_toNat_cond]
    split
    · exact le_rfl
    · omega
  rw [clampArgs]
  split_ifs
  · exact Nat.zero_le _
  · omega
  · omega

/-- The formatter writes in the buffer, ends the text there and takes no argument that is not there. -/
def InBuffer (F : Doubles) (args : Args) (fmt : List UInt8) (nargs : BitVec 64) : Prop :=
  (hcBuiltinGrprintn F args fmt nargs).1.length < 192 ∧
    (hcBuiltinGrprintn F args fmt nargs).2 ≤ nargs.toNat

/-- **When the formatter stays in its buffer**: when no number, character or unknown conversion that
begins in front of its last byte goes past it. -/
theorem grprintn_in_buffer_iff (F : Doubles) (args : Args) (fmt : List UInt8) (nargs : BitVec 64) :
    InBuffer F args fmt nargs ↔ Fits 0 (pieces F args (clampArgs nargs) fmt.length fmt 0) := by
  have hused : (hcBuiltinGrprintn F args fmt nargs).2 ≤ nargs.toNat :=
    (grprintnLoop_used (Nat.zero_le _)).trans (clampArgs_le nargs)
  exact (and_iff_left hused).trans (Nat.lt_succ_iff.trans (grprintnLoop_le_iff (Nat.zero_le _)))

/-- Arithmetic for formats without doubles. -/
def noDoubles : Doubles where
  double := Unit
  ofBits _ := ()
  isNaN _ := true
  ltZero _ := false
  neg _ := ()
  add _ _ := ()
  sub _ _ := ()
  mul _ _ := ()
  div _ _ := ()
  half := ()
  ofInt _ := ()
  toInt _ := 0

set_option maxRecDepth 10000 in
/-- 190 letters and the two digits of a number: the NUL comes behind the buffer. -/
theorem grprintn_overruns :
    hcBuiltinGrprintn noDoubles ⟨fun _ => 10, fun _ => []⟩ (List.replicate 190 0x61 ++ [percent, 0x64]) 1 =
        (List.replicate 190 0x61 ++ [0x31, 0x30], 1) ∧
      ¬InBuffer noDoubles ⟨fun _ => 10, fun _ => []⟩ (List.replicate 190 0x61 ++ [percent, 0x64]) 1 := by
  have hrun : hcBuiltinGrprintn noDoubles ⟨fun _ => 10, fun _ => []⟩
      (List.replicate 190 0x61 ++ [percent, 0x64]) 1 =
        (List.replicate 190 0x61 ++ [0x31, 0x30], 1) := by
    decide +kernel
  refine ⟨hrun, fun h => ?_⟩
  rw [InBuffer, hrun] at h
  exact absurd h.1 (by decide)

/-! ## Room for a conversion -/

theorem fracDigits_length (n : ℕ) (f : ℤ) : (fracDigits n f).length = n := by
  induction n generalizing f with
  | zero => rfl
  | succ n ih => rw [fracDigits, List.length_append, ih, List.length_singleton]

theorem wholeDigits_length (ip : BitVec 64) : (wholeDigits ip).length ≤ 20 := by
  rw [wholeDigits]
  split
  · decide
  · rw [List.length_reverse, List.length_map]
    exact List.length_take_le _ _

theorem clampPrec_le (prec : ℤ) : clampPrec prec ≤ 6 := by
  rw [clampPrec]
  split_ifs
  · omega
  · omega
  · omega

/-- A sign, twenty digits, a point and six decimals. -/
theorem hcFmtF64Bits_length (F : Doubles) (bits : BitVec 64) (prec : ℤ) :
    (hcFmtF64Bits F bits prec).length ≤ 28 := by
  have hprec := clampPrec_le prec
  rw [hcFmtF64Bits]
  dsimp only
  split
  · decide
  · rw [List.length_append, List.length_append]
    have hsign : ∀ b : Bool, (if b then [minus] else []).length ≤ 1 := by decide
    have hfrac : ∀ f : ℤ, (if clampPrec prec > 0 then dot :: fracDigits (clampPrec prec) f else []).length
        ≤ 7 := by
      intro f
      split
      · rw [List.length_cons, fracDigits_length]
        omega
      · exact Nat.zero_le _
    have h1 := hsign (F.ltZero (F.ofBits bits))
    refine Nat.add_le_add (Nat.add_le_add h1 (wholeDigits_length _)) (hfrac _)

end ZealBringup.Hc
