import ZealBringup.Bridge.Mask

/-!
# Lists of strings with aliases

The packed lists of `TaskBridge.ZC`: strings one behind the other, each with its NUL, and one more
NUL at the end; a string that begins with `@` is another name of the entry before it.

* `defineListLoad`, `defineSub`, `listSub`, `listMatch`, `hashListAdd` — the walks over a list.
* `AliasList` — the strings of a list, and `numbered` the number of each.
* `Numbered` — all the walks number the strings alike.
-/

namespace ZealBringup.Bridge

/-! ## Pointers -/

/-- A `U8 *` into a list: the bytes from there on. -/
abbrev Ptr := List UInt8

namespace Ptr

def byte (p : Ptr) : UInt8 := p.headD 0

/-- `while (*p) p++;` -/
def skipString (p : Ptr) : Ptr := p.dropWhile (· ≠ 0)

/-- `while (*p++);` -/
def pastNul (p : Ptr) : Ptr := p.skipString.tail

/-- The string that a pointer points to. -/
def cstr (p : Ptr) : List UInt8 := p.takeWhile (· ≠ 0)

theorem length_pastNul_le (p : Ptr) : p.pastNul.length ≤ p.length := by
  unfold pastNul skipString
  rw [List.length_tail]
  exact Nat.le_trans (Nat.sub_le _ _) (List.dropWhile_suffix _).length_le

theorem length_tail_lt {p : Ptr} (h : p.byte ≠ 0) : p.tail.length < p.length := by
  cases p with
  | nil => exact absurd rfl h
  | cons a p => exact Nat.lt_succ_self _

theorem length_pastNul_lt {p : Ptr} (h : p.byte ≠ 0) : p.pastNul.length < p.length := by
  cases p with
  | nil => exact absurd rfl h
  | cons a p =>
    have ha : a ≠ 0 := h
    have hskip : skipString (a :: p) = skipString p := by
      unfold skipString
      rw [List.dropWhile_cons_of_pos (by simpa using ha)]
    unfold pastNul
    rw [hskip]
    exact Nat.lt_succ_of_le (length_pastNul_le p)

end Ptr

/-! ## The code -/

/-- `CHashDefineStr`. -/
structure CHashDefineStr where
  str : List UInt8
  srcLink : List UInt8
  data : List UInt8
  count : ℤ
  subIdx : List Ptr

/-- `CHashGeneric`. -/
structure CHashGeneric where
  str : List UInt8
  type : Int64
  userData0 : ℤ

/-- The first loop of `DefineListLoad`. -/
def countLoop (ptr : Ptr) (count : ℤ) : ℤ × Ptr :=
  if ptr.byte ≠ 0 then countLoop ptr.pastNul (if ptr.byte ≠ 64 then count + 1 else count)
  else (count, ptr)
termination_by ptr.length
decreasing_by exact Ptr.length_pastNul_lt (by assumption)

/-- Its second loop: the pointers it puts at `idx`. -/
def indexLoop (ptr : Ptr) : List Ptr :=
  if ptr.byte ≠ 0 then
    if ptr.byte ≠ 64 then ptr :: indexLoop ptr.pastNul else indexLoop ptr.pastNul
  else []
termination_by ptr.length
decreasing_by all_goals exact Ptr.length_pastNul_lt (by assumption)

/-- The define, and the table of the task with it in front. -/
def defineListLoad (table : List CHashDefineStr) (dname : List UInt8) (list : Ptr) :
    Option CHashDefineStr × List CHashDefineStr :=
  let (count, ptr) := countLoop list 0
  let nbytes : ℤ := list.length - ptr.length + 1
  if nbytes ≤ 0 ∨ nbytes > 0x100000 then (none, table)
  else
    let tmph : CHashDefineStr :=
      { str := dname, srcLink := [65, 68, 58], data := list.take nbytes.toNat, count,
        subIdx := indexLoop list }
    (some tmph, tmph :: table)

/-- `throw('UndefDef')`. -/
inductive DefineError where
  | undefDef (dname : List UInt8)

/-- `HashFind` of a define. -/
def findDefine (table : List CHashDefineStr) (dname : List UInt8) : Option CHashDefineStr :=
  table.find? fun h => h.str == dname

def define (table : List CHashDefineStr) (dname : List UInt8) : Except DefineError Ptr :=
  match findDefine table dname with
  | some tmph => .ok tmph.data
  | none => .error (.undefDef dname)

def defineSub (sub : ℤ) (table : List CHashDefineStr) (dname : List UInt8) :
    Except DefineError (Option Ptr) :=
  match findDefine table dname with
  | some tmph => .ok (if 0 ≤ sub ∧ sub < tmph.count then tmph.subIdx[sub.toNat]? else none)
  | none => .error (.undefDef dname)

/-- The loop of `ListSub`. -/
def subLoop (list : Ptr) (sub : ℤ) : Ptr × ℤ :=
  if list.byte ≠ 0 ∧ 0 < sub then
    let list' := list.pastNul
    if list'.byte = 64 then subLoop list'.tail sub else subLoop list' (sub - 1)
  else (list, sub)
termination_by list.length
decreasing_by
  all_goals
    have hlt := Ptr.length_pastNul_lt (And.left (by assumption))
  · exact Nat.lt_of_le_of_lt (by rw [List.length_tail]; exact Nat.sub_le _ _) hlt
  · exact hlt

def listSub (sub : ℤ) (list : Option Ptr) : Option Ptr :=
  match list with
  | none => none
  | some list =>
    let (list, sub) := subLoop list sub
    if sub ≠ 0 ∨ list.byte = 0 then none else some list

def LMF_IGNORE_CASE : UInt64 := 1
def LMF_EXACT : UInt64 := 2

/-- How `ListMatch` reads a byte. -/
def foldCase (flags : UInt64) (ch : UInt8) : UInt8 :=
  if flags &&& LMF_IGNORE_CASE ≠ 0 then upCase ch else ch

/-- Its loops along the needle and an entry. -/
def matchSpan (flags : UInt64) (ptr haystack : Ptr) : Ptr × Ptr :=
  if ptr.byte ≠ 0 ∧ foldCase flags ptr.byte = foldCase flags haystack.byte then
    matchSpan flags ptr.tail haystack.tail
  else (ptr, haystack)
termination_by ptr.length
decreasing_by exact Ptr.length_tail_lt (And.left (by assumption))

theorem matchSpan_suffix (flags : UInt64) (ptr haystack : Ptr) :
    (matchSpan flags ptr haystack).2 <:+ haystack := by
  induction ptr, haystack using matchSpan.induct flags with
  | case1 ptr haystack h ih =>
    rw [matchSpan.eq_def, if_pos h]
    exact ih.trans (List.tail_suffix haystack)
  | case2 ptr haystack h =>
    have heq : (matchSpan flags ptr haystack).2 = haystack := by rw [matchSpan.eq_def, if_neg h]
    exact ⟨[], heq⟩

/-- An entry is shorter past its NUL, however far the comparison went. -/
theorem length_past_matchSpan_lt (flags : UInt64) (needle : Ptr) {haystack : Ptr}
    (h : haystack.byte ≠ 0) :
    (Ptr.pastNul (matchSpan flags needle
      (if haystack.byte = 64 then haystack.tail else haystack)).2).length < haystack.length := by
  generalize hname : (if haystack.byte = 64 then haystack.tail else haystack) = name
  have hsuffix := matchSpan_suffix flags needle name
  have hle := Ptr.length_pastNul_le (matchSpan flags needle name).2
  split at hname
  · subst hname
    exact Nat.lt_of_le_of_lt (Nat.le_trans hle hsuffix.length_le) (Ptr.length_tail_lt h)
  · subst hname
    rcases Nat.lt_or_eq_of_le hsuffix.length_le with hlt | heq
    · exact Nat.lt_of_le_of_lt hle hlt
    · rw [hsuffix.eq_of_length heq]
      exact Ptr.length_pastNul_lt h

/-- The loop of `ListMatch`. -/
def matchLoop (needle : U8Str) (flags : UInt64) (haystack : Ptr) (sub res : ℤ) : ℤ :=
  if haystack.byte ≠ 0 then
    let exactMatch := false
    let sub' := if haystack.byte = 64 then sub - 1 else sub
    let name : Ptr := if haystack.byte = 64 then haystack.tail else haystack
    let span := matchSpan flags needle.bytes name
    if span.1.byte = 0 ∧ span.2.byte = 0 then sub'
    else
      let res' :=
        if span.1.byte = 0 then
          if res ≠ -1 then if !exactMatch then -2 else res
          else if flags &&& LMF_EXACT = 0 then sub' else res
        else res
      matchLoop needle flags span.2.pastNul (sub' + 1) res'
  else res
termination_by haystack.length
decreasing_by
  exact length_past_matchSpan_lt flags _ (by assumption)

def listMatch (needle : U8Str) (haystackList : Option Ptr) (flags : UInt64) : ℤ :=
  match haystackList with
  | none => -1
  | some haystackList => matchLoop needle flags haystackList 0 (-1)

/-- The loop of `HashListAdd`. -/
def addLoop (type : Int64) (list : Ptr) (i : ℤ) (table : List CHashGeneric) :
    ℤ × List CHashGeneric :=
  if list.byte ≠ 0 then
    let name : Ptr := if list.byte = 64 then list.tail else list
    let i' := if list.byte = 64 then i else i + 1
    addLoop type name.pastNul i' ({ str := name.cstr, type, userData0 := i' - 1 } :: table)
  else (i, table)
termination_by list.length
decreasing_by
  have hne : list.byte ≠ 0 := by assumption
  show (Ptr.pastNul (if list.byte = 64 then list.tail else list)).length < list.length
  split
  · exact Nat.lt_of_le_of_lt (Ptr.length_pastNul_le _) (Ptr.length_tail_lt hne)
  · exact Ptr.length_pastNul_lt hne

def hashListAdd (list : Option Ptr) (type : Int64) (table : List CHashGeneric) :
    ℤ × List CHashGeneric :=
  match list with
  | none => (0, table)
  | some list => addLoop type list 0 table

/-! ## The strings and their numbers -/

/-- A string that is a name of the entry before it. -/
def isAlias (s : List UInt8) : Bool := s.head? == some 64

/-- The strings of a list, the first of them no alias. -/
structure AliasList where
  strs : List (List UInt8)
  nonempty : ∀ s ∈ strs, s ≠ []
  nul : ∀ s ∈ strs, 0 ∉ s
  head : ∀ s ∈ strs.head?, isAlias s = false

/-- The bytes of the strings. -/
def pack (strs : List (List UInt8)) : List UInt8 := strs.flatMap (· ++ [0]) ++ [0]

/-- The strings that are no aliases. -/
def entries (strs : List (List UInt8)) : List (List UInt8) := strs.filter fun s => !isAlias s

/-- The names with their numbers: an entry has the next number, an alias that of the entry
before. -/
def numbered (next : ℤ) : List (List UInt8) → List (List UInt8 × ℤ)
  | [] => []
  | s :: strs =>
    if isAlias s then (s.tail, next - 1) :: numbered next strs
    else (s, next) :: numbered (next + 1) strs

/-- Where the entries are, in front of `beyond`. -/
def entryPtrs (beyond : List UInt8) : List (List UInt8) → List Ptr
  | [] => []
  | s :: strs =>
    if isAlias s then entryPtrs beyond strs
    else (pack (s :: strs) ++ beyond) :: entryPtrs beyond strs

/-- An entry at an index; there is none below zero. -/
def entryAt (ptrs : List Ptr) (sub : ℤ) : Option Ptr := if 0 ≤ sub then ptrs[sub.toNat]? else none

/-- A needle is a name, as `ListMatch` compares with its flags. -/
def Same (flags : UInt64) (needle name : List UInt8) : Prop :=
  needle.map (foldCase flags) = name.map (foldCase flags)

/-- A needle is the beginning of a longer name. -/
def ProperPrefix (flags : UInt64) (needle name : List UInt8) : Prop :=
  needle.map (foldCase flags) <+: name.map (foldCase flags) ∧ ¬ Same flags needle name

instance (flags : UInt64) (needle name : List UInt8) : Decidable (Same flags needle name) :=
  inferInstanceAs (Decidable (_ = _))

instance (flags : UInt64) (needle name : List UInt8) :
    Decidable (ProperPrefix flags needle name) :=
  inferInstanceAs (Decidable (_ ∧ _))

/-- **All the walks number the strings alike**, with the list in front of the bytes `beyond`. -/
structure Numbered (l : AliasList) (beyond : List UInt8) : Prop where
  /-- The pointers point to the entries, in their order. -/
  ptrs : (entryPtrs beyond l.strs).map Ptr.cstr = entries l.strs
  /-- What `DefineListLoad` makes, and `DefineSub` finds. -/
  load : ∀ table dname tmph, (defineListLoad table dname (pack l.strs ++ beyond)).1 = some tmph →
    tmph.count = (entries l.strs).length ∧ tmph.subIdx = entryPtrs beyond l.strs ∧
      ∀ sub, defineSub sub (defineListLoad table dname (pack l.strs ++ beyond)).2 dname =
        .ok (entryAt (entryPtrs beyond l.strs) sub)
  sub : ∀ sub, listSub sub (some (pack l.strs ++ beyond)) = entryAt (entryPtrs beyond l.strs) sub
  add : ∀ type table, hashListAdd (some (pack l.strs ++ beyond)) type table =
    (((entries l.strs).length : ℤ), ((numbered 0 l.strs).map fun name =>
      ({ str := name.1, type, userData0 := name.2 } : CHashGeneric)).reverse ++ table)
  /-- A needle that is one name alone has its number. -/
  once : ∀ (needle : U8Str) flags name, name ∈ numbered 0 l.strs →
    (numbered 0 l.strs).filter (fun n => Same flags needle.bytes n.1) = [name] →
    listMatch needle (some (pack l.strs ++ beyond)) flags = name.2
  /-- Prefixes do not count where the flags ask for the whole name. -/
  exact : ∀ (needle : U8Str) flags, flags &&& LMF_EXACT ≠ 0 →
    listMatch needle (some (pack l.strs ++ beyond)) flags ≠ -2
  ambiguous : ∀ (needle : U8Str) flags, flags &&& LMF_EXACT = 0 →
    (listMatch needle (some (pack l.strs ++ beyond)) flags = -2 ↔
      (∀ n ∈ numbered 0 l.strs, ¬ Same flags needle.bytes n.1) ∧
        2 ≤ ((numbered 0 l.strs).filter fun n => ProperPrefix flags needle.bytes n.1).length)

end ZealBringup.Bridge
