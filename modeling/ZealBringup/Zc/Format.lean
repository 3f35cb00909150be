import Mathlib
import ZealBringup.Hc.Print

/-!
# The formatter of the runtime

`format_text` is what `Print`, `StrPrintJoin` and the source generators use.  It stops through `zc_fail`
when the format, the arguments or the buffer do not suffice.

* `Buffer`, `CString`, `FormatArgs` — what it is called with.
* `Halt` — how it ends without a text.  A write outside of a buffer is an end of its own here.
* `formatText` — the call.
-/

namespace ZealBringup.Zc

open Hc (Doubles hcFmtF64Bits isDigit percent dot minus plus zero blank)

/-- No text: `zc_fail` with its message, or a write outside of a buffer. -/
inductive Halt where
  | fail (message : String)
  | overrun
  deriving DecidableEq, Repr

/-- The bytes of a string before its NUL. -/
structure CString where
  bytes : List UInt8
  nonzero : 0 ∉ bytes

/-- A buffer somewhere in the addresses of the machine. -/
structure Buffer where
  capacity : ℕ
  pos : 0 < capacity
  fits : capacity ≤ 2 ^ 48

/-- The arguments of a call, and the strings in memory. -/
structure FormatArgs where
  argc : BitVec 64
  argv : Option (ℕ → BitVec 64)
  string : BitVec 64 → CString

/-- `argv[i]` -/
def FormatArgs.arg (args : FormatArgs) (i : ℕ) : BitVec 64 := (args.argv.getD fun _ => 0) i

/-- `argc`, once it is known not to be negative. -/
def FormatArgs.count (args : FormatArgs) : ℕ := args.argc.toNat

/-! ## Bytes -/

def dollar : UInt8 := 0x24
def star : UInt8 := 0x2a
def quote : UInt8 := 0x22
def backslash : UInt8 := 0x5c
def newline : UInt8 := 0x0a
def carriage : UInt8 := 0x0d
def tab : UInt8 := 0x09
def lowerC : UInt8 := 0x63
def upperC : UInt8 := 0x43
def lowerH : UInt8 := 0x68
def lowerT : UInt8 := 0x74
def upperQ : UInt8 := 0x51

/-- What `code` can be. -/
inductive Code where
  | c | upperC | s | q | upperQ | upperS | z | upperZ | o
  | d | u | x | upperX | b | upperB | f | upperF | g | upperG
  deriving DecidableEq, Repr

def Code.byte : Code → UInt8
  | c => 0x63
  | upperC => 0x43
  | s => 0x73
  | q => 0x71
  | upperQ => 0x51
  | upperS => 0x53
  | z => 0x7a
  | upperZ => 0x5a
  | o => 0x6f
  | d => 0x64
  | u => 0x75
  | x => 0x78
  | upperX => 0x58
  | b => 0x62
  | upperB => 0x42
  | f => 0x66
  | upperF => 0x46
  | g => 0x67
  | upperG => 0x47

def Code.all : List Code :=
  [c, upperC, s, q, upperQ, upperS, z, upperZ, o, d, u, x, upperX, b, upperB, f, upperF, g, upperG]

def Code.ofByte (b : UInt8) : Option Code := Code.all.find? fun code => code.byte = b

/-- `FMT_BYTE` -/
def fmtByte (buf : Buffer) (out : List UInt8) (ch : UInt8) : Except Halt (List UInt8) :=
  if out.length = buf.capacity - 1 then .error (.fail "formatted text exceeds buffer")
  else if out.length ≥ buf.capacity then .error .overrun
  else .ok (out ++ [ch])

/-- `FMT_BYTE` for one byte after the other. -/
def emit (buf : Buffer) (out : List UInt8) : List UInt8 → Except Halt (List UInt8)
  | [] => .ok out
  | ch :: text => do emit buf (← fmtByte buf out ch) text

/-! ## Doubles -/

/-- What the loops over the double leave: `prec` digits, the digit behind them and the exponent. -/
structure Scan (prec : ℕ) where
  digits : Fin prec → Fin 10
  guard : ℤ
  exponent : ℤ

/-- The parts that are not in the runtime's own integer code: the arithmetic of the doubles, and the
functions of the guest that lists are looked up with. -/
structure Guest where
  doubles : Doubles
  scan : BitVec 64 → (prec : ℕ) → Scan prec
  helper : Code → BitVec 64 → BitVec 64 → Except String CString

/-- One more in the last place, with what is left to carry.  The last digit comes first. -/
def carryDigits : List ℕ → List ℕ × Bool
  | [] => ([], true)
  | d :: ds =>
    if d = 9 then
      let (ds, carry) := carryDigits ds
      (0 :: ds, carry)
    else ((d + 1) :: ds, false)

/-- Trailing zeros go, but one digit stays. -/
def trimZeros : List ℕ → List ℕ
  | [] => []
  | [d] => [d]
  | d :: e :: ds => if d = 0 then trimZeros (e :: ds) else d :: e :: ds

def digitByte (d : ℕ) : UInt8 := UInt8.ofNat (0x30 + d)

/-- What follows the digits and the exponent of `hc_fmt_f64_g_bits`. -/
def gText (prec : ℕ) (digits : List ℕ) (exponent : ℤ) (upper : Bool) : List UInt8 :=
  let chars := digits.map digitByte
  if exponent < -4 ∨ exponent ≥ prec then
    let magnitude := exponent.natAbs
    let reversed := if magnitude = 0 then [0] else (Nat.digits 10 magnitude).take 4
    chars.take 1 ++ (if chars.length > 1 then dot :: chars.drop 1 else []) ++
      [if upper then 0x45 else 0x65, if exponent < 0 then minus else plus] ++
      (if reversed.length < 2 then [zero] else []) ++ (reversed.map digitByte).reverse
  else
    let decimal := exponent + 1
    if decimal ≤ 0 then [zero, dot] ++ List.replicate (-decimal).toNat zero ++ chars
    else
      let n := decimal.toNat
      chars.take n ++ List.replicate (n - chars.length) zero ++
        if n < chars.length then dot :: chars.drop n else []

/-- What `hc_fmt_f64_g_bits` appends. -/
def hcFmtF64GBits (E : Guest) (bits : BitVec 64) (prec : ℕ) (upper : Bool) : List UInt8 :=
  let prec := if prec < 1 then 1 else if prec > 17 then 17 else prec
  let sign := if bits >>> 63 ≠ 0 then [minus] else []
  if (bits >>> 52) &&& 0x7ff = 0x7ff then
    if bits &&& 0x000fffffffffffff ≠ 0 then if upper then [0x4e, 0x41, 0x4e] else [0x6e, 0x61, 0x6e]
    else sign ++ if upper then [0x49, 0x4e, 0x46] else [0x69, 0x6e, 0x66]
  else if bits &&& 0x7fffffffffffffff = 0 then sign ++ [zero]
  else
    let scan := E.scan bits prec
    let reversed := (List.ofFn fun i => (scan.digits i : ℕ)).reverse
    let (reversed, carry) := if scan.guard ≥ 5 then carryDigits reversed else (reversed, false)
    let reversed := if carry then reversed.dropLast ++ [1] else reversed
    let exponent := if carry then scan.exponent + 1 else scan.exponent
    sign ++ gText prec (trimZeros reversed).reverse exponent upper

/-! ## Numbers -/

/-- `lower_digits[digit]` -/
def lowerDigit (d : ℕ) : UInt8 := UInt8.ofNat (if d < 10 then 0x30 + d else 0x61 + (d - 10))

/-- `upper_digits[digit]` -/
def upperDigit (d : ℕ) : UInt8 := UInt8.ofNat (if d < 10 then 0x30 + d else 0x41 + (d - 10))

/-- The digits of a value as the loops collect them, the last one first and at most `limit` of them. -/
def reversedDigits (base limit v : ℕ) : List ℕ :=
  if v = 0 then [0] else (Nat.digits base v).take limit

/-- What is put into `number` for an argument. -/
def numberText (E : Guest) (code : Code) (precision : Option ℕ) (av : BitVec 64) : List UInt8 :=
  match code with
  | .f | .upperF => hcFmtF64Bits E.doubles av (precision.getD 1)
  | .g | .upperG => hcFmtF64GBits E av (max (precision.getD 6) 1) (code = .upperG)
  | .x => ((reversedDigits 16 64 av.toNat).map lowerDigit).reverse
  | .upperX => ((reversedDigits 16 64 av.toNat).map upperDigit).reverse
  | .u => ((reversedDigits 10 64 av.toNat).map digitByte).reverse
  | .b | .upperB => ((reversedDigits 2 64 av.toNat).map lowerDigit).reverse
  | _ =>
    if av.toInt < 0 then
      minus :: ((reversedDigits 10 32 (-(av + 1) + 1).toNat).map digitByte).reverse
    else ((reversedDigits 10 32 av.toNat).map digitByte).reverse

/-- The flags, width and precision of a conversion. -/
structure Spec where
  left : Bool
  zeroPad : Bool
  truncate : Bool
  escapeDollars : Bool
  width : ℕ
  precision : Option ℕ

/-- `char number[128]`, its NUL included. -/
def numberSize : ℕ := 128

def putNumber (E : Guest) (buf : Buffer) (spec : Spec) (code : Code) (av : BitVec 64)
    (out : List UInt8) : Except Halt (List UInt8) :=
  let number := numberText E code spec.precision av
  if number.length ≥ numberSize then .error .overrun
  else
    let pad := if spec.width > number.length then spec.width - number.length else 0
    if number.length > buf.capacity - 1 - out.length ∨
        pad > buf.capacity - 1 - out.length - number.length then
      .error (.fail "formatted text exceeds buffer")
    else if pad ≠ 0 ∧ ¬spec.left then
      if spec.zeroPad ∧ (number.head? = some minus ∨ number.head? = some plus) then do
        let out ← emit buf out (number.take 1)
        let out ← emit buf out (List.replicate pad zero)
        emit buf out (number.drop 1)
      else do
        let out ← emit buf out (List.replicate pad (if spec.zeroPad then zero else blank))
        emit buf out number
    else do
      let out ← emit buf out number
      emit buf out (List.replicate pad blank)

/-! ## Strings -/

/-- The value of the hexadecimal digits that a string begins with, at most so many, and what is behind
them. -/
def hexValue : ℕ → UInt8 → List UInt8 → UInt8 × List UInt8
  | 0, value, s => (value, s)
  | _ + 1, value, [] => (value, [])
  | n + 1, value, h :: s =>
    if isDigit h then hexValue n (value <<< 4 ||| (h - 0x30)) s
    else if Hc.isLowerHex h then hexValue n (value <<< 4 ||| (h - 0x61 + 10)) s
    else if Hc.isUpperHex h then hexValue n (value <<< 4 ||| (h - 0x41 + 10)) s
    else (value, h :: s)

/-- A round of the loop for `%q`: the byte and what is left, if the string goes on. -/
def decodeByte : List UInt8 → Option (UInt8 × List UInt8)
  | [] => none
  | [c] => some (c, [])
  | c :: n :: s =>
    if c = backslash then
      if n = zero then none
      else if n = 0x27 ∨ n = 0x60 ∨ n = quote ∨ n = backslash then some (n, s)
      else if n = 0x64 then some (dollar, s)
      else if n = 0x6e then some (newline, s)
      else if n = 0x72 then some (carriage, s)
      else if n = lowerT then some (tab, s)
      else if n = 0x78 ∨ n = 0x58 then
        let (value, s) := hexValue 2 0 s
        if value = 0 then none else some (value, s)
      else some (c, n :: s)
    else if c = dollar ∧ n = dollar then some (c, s)
    else some (c, n :: s)

/-- What a byte becomes for `%Q`. -/
def encodeByte (escapeDollars : Bool) (c : UInt8) : List UInt8 :=
  if c = quote then [backslash, quote]
  else if c = backslash then [backslash, backslash]
  else if c = newline then [backslash, 0x6e]
  else if c = carriage then [backslash, 0x72]
  else if c = tab then [backslash, lowerT]
  else if c = dollar then
    if escapeDollars then [backslash, 0x78, 0x32, 0x34] else [dollar, dollar]
  else [c]

/-- A round of the loop over a string: what is written and what is left. -/
def stringPiece (escapeDollars : Bool) (code : Code) (s : List UInt8) :
    Option (List UInt8 × List UInt8) :=
  if code = .q then (decodeByte s).map fun (ch, s) => ([ch], s)
  else
    match s with
    | [] => none
    | c :: s => some (if code = .upperQ then encodeByte escapeDollars c else [c], s)

/-- The loop over a string.  A round takes at least one byte of it. -/
def stringLoop (buf : Buffer) (spec : Spec) (code : Code) (start : ℕ) :
    ℕ → List UInt8 → List UInt8 → Except Halt (List UInt8)
  | 0, _, out => .ok out
  | rounds + 1, s, out =>
    if spec.truncate ∧ spec.width ≠ 0 ∧ out.length - start ≥ spec.width then .ok out
    else
      match stringPiece spec.escapeDollars code s with
      | none => .ok out
      | some (text, s) => do stringLoop buf spec code start rounds s (← emit buf out text)

/-- The blanks around a string that begins at `start`.  On the left they are put in place by
`memmove` and `memset`. -/
def padString (buf : Buffer) (spec : Spec) (start : ℕ) (out : List UInt8) :
    Except Halt (List UInt8) :=
  let length := out.length - start
  if spec.width > length then
    let pad := spec.width - length
    if pad > buf.capacity - 1 - out.length then .error (.fail "formatted text exceeds buffer")
    else if ¬spec.left then
      if start + pad + length > buf.capacity then .error .overrun
      else .ok (out.take start ++ List.replicate pad blank ++ out.drop start)
    else emit buf out (List.replicate pad blank)
  else .ok out

def putString (buf : Buffer) (spec : Spec) (code : Code) (s : CString) (out : List UInt8) :
    Except Halt (List UInt8) := do
  let start := out.length
  let out ← stringLoop buf spec code start s.bytes.length s.bytes out
  let out := if spec.truncate ∧ spec.width ≠ 0 ∧ out.length - start > spec.width then
      out.take (start + spec.width) else out
  padString buf spec start out

/-- `"TRUE"` and `"FALSE"` -/
def truthText (av : BitVec 64) : CString :=
  if av ≠ 0 then ⟨[0x54, 0x52, 0x55, 0x45], by decide⟩ else ⟨[0x46, 0x41, 0x4c, 0x53, 0x45], by decide⟩

/-- The string of a conversion, and the arguments that have been taken. -/
def stringArg (E : Guest) (args : FormatArgs) (code : Code) (arg : ℕ) : Except Halt (CString × ℕ) :=
  match code with
  | .o => .ok (truthText (args.arg arg), arg + 1)
  | .z | .upperZ =>
    if arg + 2 > args.count then .error (.fail "format needs index and list arguments")
    else
      match E.helper code (args.arg arg) (args.arg (arg + 1)) with
      | .error message => .error (.fail message)
      | .ok s => .ok (s, arg + 2)
  | .upperS =>
    match E.helper code (args.arg arg) 0 with
    | .error message => .error (.fail message)
    | .ok s => .ok (s, arg + 1)
  | _ =>
    if args.arg arg = 0 then .error (.fail "format %s argument is null")
    else .ok (args.string (args.arg arg), arg + 1)

/-! ## Packed characters -/

/-- The bytes of a packed value, the lowest one first, up to one that is zero. -/
def packedBytes (packed : BitVec 64) : List UInt8 :=
  ((List.range 8).map fun i => UInt8.ofBitVec ((packed >>> (i * 8)).setWidth 8)).takeWhile (· ≠ 0)

/-- `ch -= 'a' - 'A'` for a small letter. -/
def upperByte (ch : UInt8) : UInt8 := if 0x61 ≤ ch ∧ ch ≤ 0x7a then ch - 0x20 else ch

/-- `%h*c`, which repeats a packed value. -/
def putRepeat (buf : Buffer) (count packed : BitVec 64) (out : List UInt8) : Except Halt (List UInt8) :=
  let length := (packedBytes packed).length
  if count.toInt > 0 ∧ length ≠ 0 then
    if count.toNat > (buf.capacity - 1 - out.length) / length then
      .error (.fail "formatted text exceeds buffer")
    else emit buf out (List.replicate count.toNat (packedBytes packed)).flatten
  else .ok out

/-! ## The format -/

/-- `-` and `0` -/
def readFlags (left zeroPad : Bool) : List UInt8 → Bool × Bool × List UInt8
  | [] => (left, zeroPad, [])
  | c :: f =>
    if c = minus then readFlags true zeroPad f
    else if c = zero then readFlags left true f
    else (left, zeroPad, c :: f)

/-- The digits of a width, as long as the buffer is wider. -/
def widthDigits (buf : Buffer) (width : ℕ) : List UInt8 → ℕ × List UInt8
  | [] => (width, [])
  | c :: f =>
    if isDigit c then
      widthDigits buf
        (if width < buf.capacity then (width * 10 + (c.toNat - 0x30)) % 2 ^ 64 else width) f
    else (width, c :: f)

/-- A width, from an argument or from digits: whether it asks for the left side, the width, and what is
left of the arguments and the format. -/
def readWidth (buf : Buffer) (args : FormatArgs) (left : Bool) (arg : ℕ) (f : List UInt8) :
    Except Halt (Bool × ℕ × ℕ × List UInt8) :=
  match f with
  | [] => .ok (left, 0, arg, [])
  | c :: f =>
    if c = star then
      if arg ≥ args.count then .error (.fail "format needs a width argument")
      else
        let requested := args.arg arg
        if requested.toInt < 0 then .ok (true, (-(requested + 1) + 1).toNat, arg + 1, f)
        else .ok (left, requested.toNat, arg + 1, f)
    else
      let (width, f) := widthDigits buf 0 (c :: f)
      .ok (left, width, arg, f)

def precisionDigits (precision : ℕ) : List UInt8 → ℕ × List UInt8
  | [] => (precision, [])
  | c :: f =>
    if isDigit c then
      precisionDigits (if precision < 100 then precision * 10 + (c.toNat - 0x30) else precision) f
    else (precision, c :: f)

def readPrecision : List UInt8 → Option ℕ × List UInt8
  | [] => (none, [])
  | c :: f =>
    if c = dot then
      let (precision, f) := precisionDigits 0 f
      (some precision, f)
    else (none, c :: f)

def readTruncate : List UInt8 → Bool × List UInt8
  | [] => (false, [])
  | c :: f => if c = lowerT then (true, f) else (false, c :: f)

/-- `$` or `$$` in front of a `Q`. -/
def readDollars (f : List UInt8) : Bool × List UInt8 :=
  match f with
  | [] => (false, [])
  | c :: g =>
    if c = dollar then
      let escaped := if g.head? = some dollar then g.tail else g
      if escaped.head? = some upperQ then (true, escaped) else (false, f)
    else (false, f)

/-- A conversion of an argument, behind its flags. -/
def convert (E : Guest) (buf : Buffer) (args : FormatArgs) (spec : Spec) (code : Code) (arg : ℕ)
    (out : List UInt8) : Except Halt (ℕ × List UInt8) :=
  match code with
  | .c | .upperC => do
    let text := packedBytes (args.arg arg)
    let out ← emit buf out (if code = .upperC then text.map upperByte else text)
    .ok (arg + 1, out)
  | .s | .q | .upperQ | .o | .upperS | .z | .upperZ => do
    let (s, arg) ← stringArg E args code arg
    let out ← putString buf spec code s out
    .ok (arg, out)
  | _ => do
    let out ← putNumber E buf spec code (args.arg arg) out
    .ok (arg + 1, out)

/-- What a `%` begins, unless it is a repeat. -/
def directive (E : Guest) (buf : Buffer) (args : FormatArgs) (f : List UInt8) (arg : ℕ)
    (out : List UInt8) : Except Halt (List UInt8 × ℕ × List UInt8) := do
  let (left, zeroPad, f) := readFlags false false f
  let (left, width, arg, f) ← readWidth buf args left arg f
  if width ≥ buf.capacity then .error (.fail "format width exceeds buffer")
  else
    let (precision, f) := readPrecision f
    let (truncate, f) := readTruncate f
    let (escapeDollars, f) := readDollars f
    match f with
    | [] => .error (.fail "format ends with incomplete conversion")
    | code :: f =>
      if code = percent then do
        let out ← fmtByte buf out percent
        .ok (f, arg, out)
      else
        match Code.ofByte code with
        | none => .error (.fail "format code is unsupported")
        | some code =>
          if arg ≥ args.count then .error (.fail "format needs another argument")
          else do
            let spec : Spec := ⟨left, zeroPad, truncate, escapeDollars, width, precision⟩
            let (arg, out) ← convert E buf args spec code arg out
            .ok (f, arg, out)

/-- `format[spec] == 'h' && format[spec + 1] == '*'` and a character conversion. -/
def readRepeat : List UInt8 → Option (List UInt8)
  | h :: s :: c :: f => if h = lowerH ∧ s = star ∧ (c = lowerC ∨ c = upperC) then some f else none
  | _ => none

/-- A marker of two dollars up to the next two. -/
def skipMarker : List UInt8 → List UInt8
  | [] => []
  | [_] => []
  | c :: d :: f => if c = dollar ∧ d = dollar then f else skipMarker (d :: f)

/-- `"$PT$"` and `"$FG$"` -/
def styleTags : List (List UInt8) := [[0x24, 0x50, 0x54, 0x24], [0x24, 0x46, 0x47, 0x24]]

/-- What is behind a marker that the format begins with. -/
def readMarker (f : List UInt8) : Option (List UInt8) :=
  if [dollar, dollar] <+: f then some (skipMarker (f.drop 2))
  else if ∃ t ∈ styleTags, t <+: f then some (f.drop 4)
  else none

/-- A round of the loop over the format. -/
def formatRound (E : Guest) (buf : Buffer) (args : FormatArgs) (stripMarkers : Bool) (c : UInt8)
    (f : List UInt8) (arg : ℕ) (out : List UInt8) : Except Halt (List UInt8 × ℕ × List UInt8) :=
  match if stripMarkers then readMarker (c :: f) else none with
  | some f => .ok (f, arg, out)
  | none =>
    if c ≠ percent then do
      let out ← fmtByte buf out c
      .ok (f, arg, out)
    else if f = [] then .error (.fail "format ends with percent")
    else
      match readRepeat f with
      | some f =>
        if arg + 2 > args.count then .error (.fail "format needs repeat and character arguments")
        else do
          let out ← putRepeat buf (args.arg arg) (args.arg (arg + 1)) out
          .ok (f, arg + 2, out)
      | none => directive E buf args f arg out

/-- The loop over the format.  A round takes at least one byte of it. -/
def formatLoop (E : Guest) (buf : Buffer) (args : FormatArgs) (stripMarkers : Bool) :
    ℕ → List UInt8 → ℕ → List UInt8 → Except Halt (List UInt8)
  | 0, _, _, out => .ok out
  | _ + 1, [], _, out => .ok out
  | rounds + 1, c :: f, arg, out => do
    let (f, arg, out) ← formatRound E buf args stripMarkers c f arg out
    formatLoop E buf args stripMarkers rounds f arg out

/-- The bytes from the start of `output` on, the NUL included, and the length that is returned. -/
def formatText (E : Guest) (buf : Buffer) (format : Option CString) (args : FormatArgs)
    (stripMarkers : Bool) : Except Halt (List UInt8 × ℕ) :=
  match format with
  | none => .error (.fail "format arguments are invalid")
  | some format =>
    if args.argc.toInt < 0 ∨ args.argc.toInt > 64 ∨ args.argc ≠ 0 ∧ args.argv.isNone then
      .error (.fail "format arguments are invalid")
    else do
      let out ← formatLoop E buf args stripMarkers format.bytes.length format.bytes 0 []
      if out.length ≥ buf.capacity then .error .overrun
      else .ok (out ++ [0], out.length)

end ZealBringup.Zc
