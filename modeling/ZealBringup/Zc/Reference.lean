import Mathlib
import ZealBringup.Lib.Numeral
import ZealBringup.Zc.Format

/-!
# What a format stands for

A format is a text with directives in it.  A directive is spelled as flags, a width, a precision, the
`t` of a truncation and a code; what it stands for depends on its arguments only.

* `Directive` — a directive, and how it is spelled.
* `Directive.text` — what it stands for.
* `Renders` — the text of a format.
* `Renders.unique` — a format has one text.
-/

namespace ZealBringup.Zc

open Hc (hcFmtF64Bits isDigit percent dot minus plus zero blank)
open Numeral

local instance threeDollars : NeZero 3 := ⟨by decide⟩

/-! ## Directives -/

inductive Flag where
  | left | zeros
  deriving DecidableEq, Repr

def Flag.byte : Flag → UInt8
  | left => minus
  | zeros => zero

/-- No width, a numeral that does not begin with `0`, or a width that is an argument. -/
inductive Width where
  | none
  | digits (ds : List (Fin 10))
  | star
  deriving DecidableEq, Repr

def digitBytes (ds : List (Fin 10)) : List UInt8 := ds.map fun d : Fin 10 => digitByte d.val

theorem digitBytes_cons (d : Fin 10) (ds : List (Fin 10)) :
    digitBytes (d :: ds) = digitByte d :: digitBytes ds := rfl

def Width.spelled : Width → List UInt8
  | none => []
  | digits ds => digitBytes ds
  | star => [Zc.star]

/-- What a directive asks for.  No code is that of `%` itself. -/
structure Directive where
  flags : List Flag
  width : Width
  precision : Option (List (Fin 10))
  truncate : Bool
  dollars : Fin 3
  code : Option Code
  lead : ∀ ds, width = .digits ds → ∃ d ds', ds = d :: ds' ∧ d ≠ 0
  quoted : dollars ≠ 0 → code = some .upperQ

namespace Directive

def precisionSpelled : Option (List (Fin 10)) → List UInt8
  | none => []
  | some ds => dot :: digitBytes ds

def codeByte : Option Code → UInt8
  | none => percent
  | some code => code.byte

/-- The directive behind its `%`. -/
def spelled (d : Directive) : List UInt8 :=
  d.flags.map Flag.byte ++ (d.width.spelled ++ (precisionSpelled d.precision ++
    ((if d.truncate then [lowerT] else []) ++ (List.replicate d.dollars dollar ++ [codeByte d.code]))))

end Directive

/-! ## Fields -/

/-- A number in its field: blanks before its sign, or zeros behind it, or blanks at the end. -/
def padNumber (left zeros : Bool) (width : ℕ) (sign digits : List UInt8) : List UInt8 :=
  let pad := width - (sign.length + digits.length)
  if left then sign ++ digits ++ List.replicate pad blank
  else if zeros then sign ++ List.replicate pad zero ++ digits
  else List.replicate pad blank ++ sign ++ digits

/-- A text in its field. -/
def padText (left : Bool) (width : ℕ) (text : List UInt8) : List UInt8 :=
  if left then text ++ List.replicate (width - text.length) blank
  else List.replicate (width - text.length) blank ++ text

def unsignedDigits (base : ℕ) (char : ℕ → UInt8) (v : BitVec 64) : List UInt8 :=
  (numeral base v.toNat).map char

/-- The sign that a text begins with, and the rest. -/
def splitSign (text : List UInt8) : List UInt8 × List UInt8 :=
  if text.head? = some minus ∨ text.head? = some plus then (text.take 1, text.drop 1) else ([], text)

/-- A number in two's complement. -/
def signedDigits (v : BitVec 64) : List UInt8 × List UInt8 :=
  (if v.toInt < 0 then [minus] else [], (numeral 10 v.toInt.natAbs).map digitByte)

/-- The sign of a number, and its digits. -/
def number (E : Guest) (code : Code) (precision : Option ℕ) (v : BitVec 64) : List UInt8 × List UInt8 :=
  match code with
  | .f | .upperF => splitSign (hcFmtF64Bits E.doubles v (precision.getD 1))
  | .g | .upperG => splitSign (hcFmtF64GBits E v (max (precision.getD 6) 1) (code = .upperG))
  | .x => ([], unsignedDigits 16 lowerDigit v)
  | .upperX => ([], unsignedDigits 16 upperDigit v)
  | .u => ([], unsignedDigits 10 digitByte v)
  | .b | .upperB => ([], unsignedDigits 2 lowerDigit v)
  | _ => signedDigits v

/-- A string without its quoting. -/
def unquote : ℕ → List UInt8 → List UInt8
  | 0, _ => []
  | n + 1, s =>
    match decodeByte s with
    | none => []
    | some (c, s) => c :: unquote n s

/-- What a string conversion makes of its string. -/
def stringText (escapeDollars : Bool) (code : Code) (s : List UInt8) : List UInt8 :=
  match code with
  | .q => unquote s.length s
  | .upperQ => s.flatMap (encodeByte escapeDollars)
  | _ => s

/-- The string that a conversion is about. -/
def fieldString (E : Guest) (args : FormatArgs) (code : Code) (arg : ℕ) : Option CString :=
  match code with
  | .o => some (truthText (args.arg arg))
  | .z | .upperZ => (E.helper code (args.arg arg) (args.arg (arg + 1))).toOption
  | .upperS => (E.helper code (args.arg arg) 0).toOption
  | _ => if args.arg arg = 0 then none else some (args.string (args.arg arg))

namespace Directive

variable (d : Directive) (E : Guest) (args : FormatArgs) (arg : ℕ)

/-- The argument behind that of a width. -/
def first : ℕ := if d.width = .star then arg + 1 else arg

def left : Bool := Flag.left ∈ d.flags ∨ d.width = .star ∧ (args.arg arg).toInt < 0

def zeros : Bool := Flag.zeros ∈ d.flags

def fieldWidth : ℕ :=
  match d.width with
  | .none => 0
  | .digits ds => value 10 (ds.map Fin.val)
  | .star => (args.arg arg).toInt.natAbs

def precisionValue : Option ℕ := d.precision.map fun ds => (precisionDigits 0 (digitBytes ds)).1

/-- The argument behind those of the directive. -/
def next : ℕ :=
  match d.code with
  | none => d.first arg
  | some .z | some .upperZ => d.first arg + 2
  | some _ => d.first arg + 1

/-- What a conversion stands for. -/
def codeText (code : Code) : Option (List UInt8) :=
  match code with
  | .c => some (packedBytes (args.arg (d.first arg)))
  | .upperC => some ((packedBytes (args.arg (d.first arg))).map upperByte)
  | .s | .q | .upperQ | .o | .upperS | .z | .upperZ =>
    (fieldString E args code (d.first arg)).map fun s =>
      let text := stringText (d.dollars ≠ 0) code s.bytes
      let width := d.fieldWidth args arg
      padText (d.left args arg) width (if d.truncate ∧ width ≠ 0 then text.take width else text)
  | _ =>
    let (sign, digits) := number E code d.precisionValue (args.arg (d.first arg))
    some (padNumber (d.left args arg) d.zeros (d.fieldWidth args arg) sign digits)

/-- What a directive stands for. -/
def text : Option (List UInt8) :=
  match d.code with
  | none => some [percent]
  | some code => d.codeText E args arg code

end Directive

/-- **The text of a format**, whose arguments begin with the given one.  Text that is not part of a
directive is left as it is, but for the markers that are to be stripped. -/
inductive Renders (E : Guest) (args : FormatArgs) (stripMarkers : Bool) :
    List UInt8 → ℕ → List UInt8 → Prop
  | done (arg : ℕ) : Renders E args stripMarkers [] arg []
  | marker {f g t : List UInt8} {arg : ℕ} (hstrip : stripMarkers = true) (hf : readMarker f = some g)
      (h : Renders E args stripMarkers g arg t) : Renders E args stripMarkers f arg t
  | char {c : UInt8} {f t : List UInt8} {arg : ℕ} (hc : c ≠ percent)
      (hf : stripMarkers = true → readMarker (c :: f) = none)
      (h : Renders E args stripMarkers f arg t) : Renders E args stripMarkers (c :: f) arg (c :: t)
  | repeated {c : UInt8} {f t : List UInt8} {arg : ℕ} (hc : c = lowerC ∨ c = upperC)
      (harg : arg + 2 ≤ args.count) (h : Renders E args stripMarkers f (arg + 2) t) :
      Renders E args stripMarkers (percent :: lowerH :: star :: c :: f) arg
        ((List.replicate (args.arg arg).toInt.toNat (packedBytes (args.arg (arg + 1)))).flatten ++ t)
  | field {f t u : List UInt8} {arg : ℕ} (d : Directive) (hu : d.text E args arg = some u)
      (harg : d.next arg ≤ args.count) (h : Renders E args stripMarkers f (d.next arg) t) :
      Renders E args stripMarkers (percent :: (d.spelled ++ f)) arg (u ++ t)

/-! ## A format has one text -/

/-- Two ways to cut off the characters of a kind from the front. -/
theorem append_span {P : UInt8 → Prop} {xs ys a b : List UInt8} (h : xs ++ a = ys ++ b)
    (hx : ∀ c ∈ xs, P c) (hy : ∀ c ∈ ys, P c) (ha : ∀ c ∈ a.head?, ¬P c) (hb : ∀ c ∈ b.head?, ¬P c) :
    xs = ys ∧ a = b := by
  induction xs generalizing ys with
  | nil =>
    cases ys with
    | nil => exact ⟨rfl, h⟩
    | cons c ys =>
      rw [List.nil_append] at h
      rw [h] at ha
      exact absurd (hy c List.mem_cons_self) (ha c rfl)
  | cons c xs ih =>
    cases ys with
    | nil =>
      rw [List.nil_append] at h
      rw [← h] at hb
      exact absurd (hx c List.mem_cons_self) (hb c rfl)
    | cons d ys =>
      obtain ⟨rfl, htail⟩ := List.cons.inj h
      obtain ⟨rfl, hab⟩ := ih htail (fun c hc => hx c (List.mem_cons_of_mem _ hc))
        fun c hc => hy c (List.mem_cons_of_mem _ hc)
      exact ⟨rfl, hab⟩

def digitChars : List UInt8 := digitBytes (List.finRange 10)

theorem mem_digitChars {ds : List (Fin 10)} {c : UInt8} (h : c ∈ digitBytes ds) : c ∈ digitChars := by
  obtain ⟨d, -, rfl⟩ := List.mem_map.mp h
  exact List.mem_map.mpr ⟨d, List.mem_finRange d, rfl⟩

theorem digitBytes_injective : Function.Injective digitBytes :=
  List.map_injective_iff.mpr (by decide)

namespace Directive

/-- What the code, and each part before it, can begin with. -/
def codeChars : List UInt8 := percent :: Code.all.map Code.byte

def dollarChars : List UInt8 := dollar :: codeChars

def truncateChars : List UInt8 := lowerT :: dollarChars

def precisionChars : List UInt8 := dot :: truncateChars

def widthChars : List UInt8 := star :: (digitChars.tail ++ precisionChars)

theorem codeByte_mem (code : Option Code) : codeByte code ∈ codeChars := by
  cases code with
  | none => exact List.mem_cons_self
  | some code =>
    refine List.mem_cons_of_mem _ (List.mem_map.mpr ⟨code, ?_, rfl⟩)
    cases code <;> decide

theorem codeByte_injective : Function.Injective codeByte := by
  intro a b h
  have hall : ∀ a ∈ (none :: Code.all.map some), ∀ b ∈ (none :: Code.all.map some),
      codeByte a = codeByte b → a = b := by decide
  have hmem : ∀ a : Option Code, a ∈ (none :: Code.all.map some) := by
    intro a
    cases a with
    | none => exact List.mem_cons_self
    | some code => cases code <;> decide
  exact hall a (hmem a) b (hmem b) h

/-- The head of a part is one of its own or one of the next part. -/
theorem head_append {S T xs ys : List UInt8} (hx : ∀ c ∈ xs, c ∈ S) (hy : ∀ c ∈ ys.head?, c ∈ T) :
    ∀ c ∈ (xs ++ ys).head?, c ∈ S ∨ c ∈ T := by
  intro c hc
  cases xs with
  | nil => exact Or.inr (hy c hc)
  | cons x xs =>
    obtain rfl := Option.some.inj hc
    exact Or.inl (hx x List.mem_cons_self)

/-- The parts of a directive, the last one first. -/
def codePart (d : Directive) (f : List UInt8) : List UInt8 := codeByte d.code :: f

def dollarPart (d : Directive) (f : List UInt8) : List UInt8 :=
  List.replicate d.dollars dollar ++ d.codePart f

def truncatePart (d : Directive) (f : List UInt8) : List UInt8 :=
  (if d.truncate then [lowerT] else []) ++ d.dollarPart f

def precisionPart (d : Directive) (f : List UInt8) : List UInt8 :=
  precisionSpelled d.precision ++ d.truncatePart f

def widthPart (d : Directive) (f : List UInt8) : List UInt8 := d.width.spelled ++ d.precisionPart f

theorem spelled_append (d : Directive) (f : List UInt8) :
    d.spelled ++ f = d.flags.map Flag.byte ++ d.widthPart f := by
  rw [spelled, widthPart, precisionPart, truncatePart, dollarPart, codePart]
  simp only [List.append_assoc, List.singleton_append]

section Heads

variable (d : Directive) (f : List UInt8)

theorem codePart_head : ∀ c ∈ (d.codePart f).head?, c ∈ codeChars := by
  intro c hc
  obtain rfl := Option.some.inj hc
  exact codeByte_mem d.code

theorem mem_dollars : ∀ c ∈ List.replicate d.dollars dollar, c = dollar := fun _ => List.eq_of_mem_replicate

theorem dollarPart_head : ∀ c ∈ (d.dollarPart f).head?, c ∈ dollarChars := by
  intro c hc
  have hd : ∀ c ∈ List.replicate d.dollars dollar, c ∈ [dollar] :=
    fun c hc => List.mem_singleton.mpr (d.mem_dollars c hc)
  exact (head_append hd (d.codePart_head f) c hc).elim
    (fun h => List.mem_cons.mpr (Or.inl (List.mem_singleton.mp h))) (List.mem_cons_of_mem _)

theorem mem_truncate : ∀ c ∈ (if d.truncate then [lowerT] else []), c = lowerT := by
  intro c hc
  split at hc
  · exact List.mem_singleton.mp hc
  · exact absurd hc List.not_mem_nil

theorem truncatePart_head : ∀ c ∈ (d.truncatePart f).head?, c ∈ truncateChars := by
  intro c hc
  have ht : ∀ c ∈ (if d.truncate then [lowerT] else []), c ∈ [lowerT] :=
    fun c hc => List.mem_singleton.mpr (d.mem_truncate c hc)
  exact (head_append ht (d.dollarPart_head f) c hc).elim
    (fun h => List.mem_cons.mpr (Or.inl (List.mem_singleton.mp h))) (List.mem_cons_of_mem _)

theorem mem_precision {p : Option (List (Fin 10))} :
    ∀ c ∈ precisionSpelled p, c ∈ dot :: digitChars := by
  intro c hc
  cases p with
  | none => exact absurd hc List.not_mem_nil
  | some ds =>
    exact (List.mem_cons.mp hc).elim (fun h => List.mem_cons.mpr (Or.inl h))
      fun h => List.mem_cons_of_mem _ (mem_digitChars h)

theorem precisionPart_head : ∀ c ∈ (d.precisionPart f).head?, c ∈ precisionChars := by
  intro c hc
  rw [precisionPart] at hc
  cases hp : d.precision with
  | none =>
    rw [hp] at hc
    exact List.mem_cons_of_mem _ (d.truncatePart_head f c hc)
  | some ds =>
    rw [hp] at hc
    obtain rfl := Option.some.inj hc
    exact List.mem_cons_self

theorem mem_width {w : Width} : ∀ c ∈ w.spelled, c ∈ star :: digitChars := by
  intro c hc
  cases w with
  | none => exact absurd hc List.not_mem_nil
  | digits ds => exact List.mem_cons_of_mem _ (mem_digitChars hc)
  | star => exact List.mem_cons.mpr (Or.inl (List.mem_singleton.mp hc))

theorem widthPart_head : ∀ c ∈ (d.widthPart f).head?, c ∈ widthChars := by
  intro c hc
  rw [widthPart] at hc
  cases hw : d.width with
  | none =>
    rw [hw] at hc
    exact List.mem_cons_of_mem _ (List.mem_append_right _ (d.precisionPart_head f c hc))
  | star =>
    rw [hw] at hc
    obtain rfl := Option.some.inj hc
    exact List.mem_cons_self
  | digits ds =>
    obtain ⟨e, ds', rfl, he⟩ := d.lead ds hw
    rw [hw] at hc
    obtain rfl := Option.some.inj hc
    have hall : ∀ e : Fin 10, e ≠ 0 → digitByte e ∈ digitChars.tail := by decide
    exact List.mem_cons_of_mem _ (List.mem_append_left _ (hall e he))

end Heads

theorem width_inj {w w' : Width} (hw : ∀ ds, w = .digits ds → ds ≠ [])
    (hw' : ∀ ds, w' = .digits ds → ds ≠ []) (h : w.spelled = w'.spelled) : w = w' := by
  have hstar : ∀ ds : List (Fin 10), digitBytes ds ≠ [star] := by
    intro ds hds
    have hmem := mem_digitChars (hds ▸ List.mem_cons_self : star ∈ digitBytes ds)
    revert hmem
    decide
  have hnil : ∀ ds : List (Fin 10), digitBytes ds = [] → ds = [] := fun ds => List.map_eq_nil_iff.mp
  cases w with
  | none =>
    cases w' with
    | none => rfl
    | digits ds => exact absurd (hnil ds h.symm) (hw' ds rfl)
    | star => cases h
  | digits ds =>
    cases w' with
    | none => exact absurd (hnil ds h) (hw ds rfl)
    | digits ds' => exact congrArg Width.digits (digitBytes_injective h)
    | star => exact absurd h (hstar ds)
  | star =>
    cases w' with
    | none => cases h
    | digits ds => exact absurd h.symm (hstar ds)
    | star => rfl

theorem precision_inj {p p' : Option (List (Fin 10))} (h : precisionSpelled p = precisionSpelled p') :
    p = p' := by
  cases p with
  | none =>
    cases p' with
    | none => rfl
    | some ds => cases h
  | some ds =>
    cases p' with
    | none => cases h
    | some ds' => exact congrArg some (digitBytes_injective (List.cons.inj h).2)

/-- **A directive is spelled in one way**, and where it ends can be seen. -/
theorem spelled_inj {d d' : Directive} {f f' : List UInt8} (h : d.spelled ++ f = d'.spelled ++ f') :
    d = d' ∧ f = f' := by
  have hflag : ∀ (e : Directive), ∀ c ∈ e.flags.map Flag.byte, c ∈ [minus, zero] := by
    intro e c hc
    obtain ⟨fl, -, rfl⟩ := List.mem_map.mp hc
    cases fl <;> decide
  have hflagW : ∀ c ∈ widthChars, c ∉ [minus, zero] := by decide +kernel
  have hwidthP : ∀ c ∈ precisionChars, c ∉ star :: digitChars := by decide +kernel
  have hprecT : ∀ c ∈ truncateChars, c ∉ dot :: digitChars := by decide +kernel
  have htruncD : ∀ c ∈ dollarChars, c ≠ lowerT := by decide +kernel
  have hdollarC : ∀ c ∈ codeChars, c ≠ dollar := by decide +kernel
  rw [spelled_append, spelled_append] at h
  obtain ⟨h1, h⟩ := append_span h (hflag d) (hflag d') (fun c hc => hflagW c (d.widthPart_head f c hc))
    fun c hc => hflagW c (d'.widthPart_head f' c hc)
  obtain ⟨h2, h⟩ := append_span h mem_width mem_width
    (fun c hc => hwidthP c (d.precisionPart_head f c hc))
    fun c hc => hwidthP c (d'.precisionPart_head f' c hc)
  obtain ⟨h3, h⟩ := append_span h mem_precision mem_precision
    (fun c hc => hprecT c (d.truncatePart_head f c hc))
    fun c hc => hprecT c (d'.truncatePart_head f' c hc)
  obtain ⟨h4, h⟩ := append_span h d.mem_truncate d'.mem_truncate
    (fun c hc => htruncD c (d.dollarPart_head f c hc))
    fun c hc => htruncD c (d'.dollarPart_head f' c hc)
  obtain ⟨h5, h⟩ := append_span h d.mem_dollars d'.mem_dollars
    (fun c hc => hdollarC c (d.codePart_head f c hc))
    fun c hc => hdollarC c (d'.codePart_head f' c hc)
  obtain ⟨h6, h⟩ := List.cons.inj h
  have hlead : ∀ (e : Directive), ∀ ds, e.width = .digits ds → ds ≠ [] := by
    rintro e ds hds rfl
    obtain ⟨_, _, hnil, -⟩ := e.lead [] hds
    cases hnil
  have hbyte : Function.Injective Flag.byte := by
    intro a b hab
    cases a <;> cases b <;> first | rfl | exact absurd hab (by decide)
  have e1 := List.map_injective_iff.mpr hbyte h1
  have e2 := width_inj (hlead d) (hlead d') h2
  have e3 := precision_inj h3
  have e4 : d.truncate = d'.truncate := by
    revert h4
    cases d.truncate <;> cases d'.truncate <;> simp
  have e5 : d.dollars = d'.dollars := by
    have hlen := congrArg List.length h5
    rw [List.length_replicate, List.length_replicate] at hlen
    exact Fin.ext hlen
  have e6 := codeByte_injective h6
  refine ⟨?_, h⟩
  obtain ⟨_, _, _, _, _, _, _, _⟩ := d
  obtain ⟨_, _, _, _, _, _, _, _⟩ := d'
  dsimp only at e1 e2 e3 e4 e5 e6
  subst e1 e2 e3 e4 e5 e6
  rfl

end Directive

theorem readMarker_percent (f : List UInt8) : readMarker (percent :: f) = none := by
  have hcons : ∀ t : List UInt8, t.head? ≠ some percent → t ≠ [] → ¬t <+: percent :: f := by
    rintro t hhead hne ⟨u, hu⟩
    cases t with
    | nil => exact hne rfl
    | cons c t => exact hhead (congrArg some (List.cons.inj hu).1)
  rw [readMarker, if_neg (hcons _ (by decide) (by decide)), if_neg]
  rintro ⟨t, ht, hpre⟩
  have htags : ∀ t ∈ styleTags, t.head? ≠ some percent ∧ t ≠ [] := by decide
  exact hcons t (htags t ht).1 (htags t ht).2 hpre

variable {E : Guest} {args : FormatArgs} {stripMarkers : Bool} {f t t' : List UInt8} {arg : ℕ}

/-- No directive begins like a repeat. -/
theorem spelled_ne_repeat {d : Directive} {c : UInt8} {g : List UInt8} :
    lowerH :: star :: c :: g ≠ d.spelled ++ f := by
  intro h
  have hhead : ∀ c ∈ (d.spelled ++ f).head?, c ∈ [minus, zero] ∨ c ∈ Directive.widthChars := by
    rw [Directive.spelled_append]
    refine Directive.head_append (fun c hc => ?_) (d.widthPart_head f)
    obtain ⟨fl, -, rfl⟩ := List.mem_map.mp hc
    cases fl <;> decide
  rw [← h] at hhead
  have hno : ¬(lowerH ∈ [minus, zero] ∨ lowerH ∈ Directive.widthChars) := by decide
  exact hno (hhead lowerH rfl)

/-- **A format has one text**, by induction on how it is made. -/
theorem Renders.unique (h : Renders E args stripMarkers f arg t)
    (h' : Renders E args stripMarkers f arg t') : t = t' := by
  induction h generalizing t' with
  | done arg =>
    cases h' with
    | done => rfl
    | marker hstrip hf h => cases hf
  | marker hstrip hf h ih =>
    cases h' with
    | done => cases hf
    | marker hstrip' hf' h' =>
      rw [hf] at hf'
      cases hf'
      exact ih h'
    | char hc hf' h' =>
      rw [hf' hstrip] at hf
      cases hf
    | repeated hc harg h' =>
      rw [readMarker_percent] at hf
      cases hf
    | field d hu harg h' =>
      rw [readMarker_percent] at hf
      cases hf
  | char hc hf h ih =>
    cases h' with
    | marker hstrip hf' h' =>
      rw [hf hstrip] at hf'
      cases hf'
    | char hc' hf' h' => exact congrArg _ (ih h')
    | repeated hc' harg h' => exact absurd rfl hc
    | field d hu harg h' => exact absurd rfl hc
  | repeated hc harg h ih =>
    generalize hg : percent :: lowerH :: star :: _ :: _ = g at h'
    cases h' with
    | done => cases hg
    | marker hstrip hf h' =>
      rw [← hg, readMarker_percent] at hf
      cases hf
    | char hc' hf h' =>
      cases hg
      exact absurd rfl hc'
    | repeated hc' harg' h' =>
      cases hg
      exact congrArg _ (ih h')
    | field d hu harg' h' => exact absurd (List.cons.inj hg).2 spelled_ne_repeat
  | field d hu harg h ih =>
    generalize hg : percent :: (d.spelled ++ _) = g at h'
    cases h' with
    | done => cases hg
    | marker hstrip hf h' =>
      rw [← hg, readMarker_percent] at hf
      cases hf
    | char hc' hf h' => exact absurd (List.cons.inj hg).1.symm hc'
    | repeated hc' harg' h' => exact absurd (List.cons.inj hg).2.symm spelled_ne_repeat
    | field d' hu' harg' h' =>
      obtain ⟨rfl, rfl⟩ := Directive.spelled_inj (List.cons.inj hg).2
      rw [hu] at hu'
      cases hu'
      exact congrArg _ (ih h')

end ZealBringup.Zc
