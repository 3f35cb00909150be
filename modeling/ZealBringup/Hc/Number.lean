import Mathlib
import ZealBringup.Lib.Numeral

/-!
# Numbers as text

The builtins of the demo compiler write a 64-bit word in decimal or hexadecimal and read a word back
from a text.

* `hcFmtI64` — a word as text.
* `hcBuiltinStr2I64` — the word that a text begins with.
-/

namespace ZealBringup.Hc

def blank : UInt8 := 0x20
def tab : UInt8 := 0x09
def plus : UInt8 := 0x2b
def minus : UInt8 := 0x2d
def zero : UInt8 := 0x30
def lowerX : UInt8 := 0x78
def upperX : UInt8 := 0x58

/-! ## Writing -/

/-- `d < 10 ? '0' + d : 'A' + (d - 10)` -/
def digitChar (d : ℕ) : UInt8 := UInt8.ofNat (if d < 10 then 0x30 + d else 0x41 + (d - 10))

/-- The characters that `hc_fmt_i64` collects in `tmp`, the last one first. -/
def tmpDigits (base u : ℕ) : List UInt8 :=
  if u = 0 then [zero] else (Nat.digits base u).map digitChar

/-- What `hc_fmt_i64` appends. -/
def hcFmtI64 (v : BitVec 64) (hex : Bool) : List UInt8 :=
  if hex then (tmpDigits 16 v.toNat).reverse
  else if v.toInt < 0 then minus :: (tmpDigits 10 (-(v + 1) + 1).toNat).reverse
  else (tmpDigits 10 v.toNat).reverse

/-- The magnitude of a negative word. -/
theorem toInt_neg_toNat {v : BitVec 64} (h : v.toInt < 0) : (-(v + 1) + 1).toNat = v.toInt.natAbs := by
  have hv := v.isLt
  rw [BitVec.toInt_eq_toNat_cond] at h ⊢
  split at h
  case isTrue h' => omega
  case isFalse h' =>
    rw [if_neg h', BitVec.toNat_add, BitVec.toNat_neg, BitVec.toNat_add]
    have h1 : BitVec.toNat (1 : BitVec 64) = 1 := rfl
    rw [h1]
    omega

/-! ## Reading -/

/-- The number read so far, and whether the signed arithmetic has left its range. -/
structure Num where
  v : BitVec 64
  overflow : Bool
  deriving DecidableEq, Repr

/-- An integer fits into a signed word. -/
def fits (z : ℤ) : Bool := -2 ^ 63 ≤ z ∧ z < 2 ^ 63

def isDigit (c : UInt8) : Bool := 0x30 ≤ c ∧ c ≤ 0x39

def isLowerHex (c : UInt8) : Bool := 0x61 ≤ c ∧ c ≤ 0x66

def isUpperHex (c : UInt8) : Bool := 0x41 ≤ c ∧ c ≤ 0x46

/-- `v = v * 10 + (c - '0');` -/
def Num.decimal (n : Num) (c : UInt8) : Num where
  v := n.v * 10 + BitVec.ofNat 64 (c.toNat - 0x30)
  overflow := n.overflow || !fits (n.v.toInt * 10) ||
    !fits ((n.v * 10).toInt + (c.toNat - 0x30 : ℕ))

/-- What is or-ed into `v` for a hexadecimal digit. -/
def hexDigit (c : UInt8) : ℕ :=
  if isDigit c then c.toNat - 0x30
  else if isLowerHex c then c.toNat - 0x61 + 10
  else c.toNat - 0x41 + 10

/-- `v <<= 4; v |= ...;` -/
def Num.hex (n : Num) (c : UInt8) : Num where
  v := n.v <<< 4 ||| BitVec.ofNat 64 (hexDigit c)
  overflow := n.overflow || !fits (n.v.toInt * 16)

/-- `neg ? -v : v` -/
def Num.sign (n : Num) (neg : Bool) : Num :=
  if neg then ⟨-n.v, n.overflow || !fits (-n.v.toInt)⟩ else n

def skipBlanks : List UInt8 → List UInt8
  | [] => []
  | c :: p => if c = blank ∨ c = tab then skipBlanks p else c :: p

end ZealBringup.Hc
