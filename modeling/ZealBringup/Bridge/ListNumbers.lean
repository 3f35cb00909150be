import Mathlib.Tactic.Ring
import ZealBringup.Bridge.Lists

/-!
# The numbers of the strings of a list

Every walk over a packed list is a recursion on its strings.  `ListSub` alone takes an alias without
a name for the end of the list.

* `countLoop_pack`, `indexLoop_pack`, `addLoop_pack`, `matchLoop_pack`, `subLoop_pack` — the walks.
* `numbered_iff` — the walks number the strings alike exactly when no alias without a name is before
  an entry.
-/

namespace ZealBringup.Bridge

/-! ## A packed list -/

section Packed

variable {s q beyond : List UInt8} {strs : List (List UInt8)}

/-- The strings of a list have a byte and no NUL. -/
def Strings (strs : List (List UInt8)) : Prop := ∀ s ∈ strs, s ≠ [] ∧ 0 ∉ s

theorem AliasList.strings (l : AliasList) : Strings l.strs :=
  fun s hs => ⟨l.nonempty s hs, l.nul s hs⟩

theorem pack_cons (s : List UInt8) (strs : List (List UInt8)) (beyond : List UInt8) :
    pack (s :: strs) ++ beyond = s ++ 0 :: (pack strs ++ beyond) := by
  simp [pack]

theorem pack_nil (beyond : List UInt8) : pack [] ++ beyond = 0 :: beyond := rfl

theorem pastNul_append (hs : 0 ∉ s) (q : List UInt8) : Ptr.pastNul (s ++ 0 :: q) = q := by
  have hall : ∀ c ∈ s, c ≠ 0 := fun c hc h0 => hs (h0 ▸ hc)
  unfold Ptr.pastNul Ptr.skipString
  rw [List.dropWhile_append_of_pos (by simpa using hall), List.dropWhile_cons_of_neg (by simp),
    List.tail_cons]

theorem cstr_append (hs : 0 ∉ s) (q : List UInt8) : Ptr.cstr (s ++ 0 :: q) = s := by
  have hall : ∀ c ∈ s, c ≠ 0 := fun c hc h0 => hs (h0 ▸ hc)
  unfold Ptr.cstr
  rw [List.takeWhile_append_of_pos (by simpa using hall), List.takeWhile_cons_of_neg (by simp),
    List.append_nil]

theorem byte_ne_zero (hs : s ≠ [] ∧ 0 ∉ s) (q : List UInt8) : Ptr.byte (s ++ q) ≠ 0 := by
  obtain ⟨c, t, rfl⟩ := List.exists_cons_of_ne_nil hs.1
  intro h0
  have hc : c = 0 := h0
  exact hs.2 (by simp [hc])

theorem byte_eq_at_iff (hs : s ≠ []) (q : List UInt8) :
    Ptr.byte (s ++ q) = 64 ↔ isAlias s = true := by
  obtain ⟨c, t, rfl⟩ := List.exists_cons_of_ne_nil hs
  simp [Ptr.byte, isAlias]

theorem Strings.cons (h : Strings (s :: strs)) : (s ≠ [] ∧ 0 ∉ s) ∧ Strings strs :=
  ⟨h s List.mem_cons_self, fun t ht => h t (List.mem_cons_of_mem s ht)⟩

theorem entries_alias (h : isAlias s = true) : entries (s :: strs) = entries strs := by
  simp [entries, h]

theorem entries_entry (h : isAlias s = false) : entries (s :: strs) = s :: entries strs := by
  simp [entries, h]

/-! ## The walks of `DefineListLoad` -/

theorem countLoop_pack (h : Strings strs) (n : ℤ) :
    countLoop (pack strs ++ beyond) n = (n + (entries strs).length, 0 :: beyond) := by
  induction strs generalizing n with
  | nil =>
    rw [pack_nil, countLoop.eq_def, if_neg (by simp [Ptr.byte])]
    simp [entries]
  | cons s strs ih =>
    obtain ⟨hs, hrest⟩ := h.cons
    rw [pack_cons, countLoop.eq_def, if_pos (byte_ne_zero hs _), pastNul_append hs.2, ih hrest]
    by_cases halias : isAlias s = true
    · rw [if_neg (not_not.mpr ((byte_eq_at_iff hs.1 _).mpr halias)), entries_alias halias]
    · rw [if_pos (mt (byte_eq_at_iff hs.1 _).mp halias),
        entries_entry (Bool.not_eq_true _ ▸ halias), List.length_cons]
      push_cast
      rw [add_assoc, add_comm 1]

theorem indexLoop_pack (h : Strings strs) :
    indexLoop (pack strs ++ beyond) = entryPtrs beyond strs := by
  induction strs with
  | nil =>
    rw [pack_nil, indexLoop.eq_def, if_neg (by simp [Ptr.byte])]
    rfl
  | cons s strs ih =>
    obtain ⟨hs, hrest⟩ := h.cons
    rw [entryPtrs, pack_cons, indexLoop.eq_def, if_pos (byte_ne_zero hs _), pastNul_append hs.2,
      ih hrest]
    by_cases halias : isAlias s = true
    · rw [if_neg (not_not.mpr ((byte_eq_at_iff hs.1 _).mpr halias)), if_pos halias]
    · rw [if_pos (mt (byte_eq_at_iff hs.1 _).mp halias), if_neg halias]

theorem length_entryPtrs (beyond : List UInt8) (strs : List (List UInt8)) :
    (entryPtrs beyond strs).length = (entries strs).length := by
  induction strs with
  | nil => rfl
  | cons s strs ih =>
    by_cases halias : isAlias s = true
    · rw [entryPtrs, if_pos halias, entries_alias halias, ih]
    · rw [entryPtrs, if_neg halias, entries_entry (Bool.not_eq_true _ ▸ halias), List.length_cons,
        List.length_cons, ih]

/-- The pointers point to the entries. -/
theorem cstr_entryPtrs (h : Strings strs) :
    (entryPtrs beyond strs).map Ptr.cstr = entries strs := by
  induction strs with
  | nil => rfl
  | cons s strs ih =>
    obtain ⟨hs, hrest⟩ := h.cons
    by_cases halias : isAlias s = true
    · rw [entryPtrs, if_pos halias, entries_alias halias, ih hrest]
    · rw [entryPtrs, if_neg halias, entries_entry (Bool.not_eq_true _ ▸ halias), List.map_cons,
        pack_cons, cstr_append hs.2, ih hrest]

/-! ## `HashListAdd` -/

theorem addLoop_pack (h : Strings strs) (type : Int64) (i : ℤ) (table : List CHashGeneric) :
    addLoop type (pack strs ++ beyond) i table =
      (i + (entries strs).length, ((numbered i strs).map fun name =>
        ({ str := name.1, type, userData0 := name.2 } : CHashGeneric)).reverse ++ table) := by
  induction strs generalizing i table with
  | nil =>
    rw [pack_nil, addLoop.eq_def, if_neg (by simp [Ptr.byte])]
    simp [entries, numbered]
  | cons s strs ih =>
    obtain ⟨hs, hrest⟩ := h.cons
    rw [pack_cons, addLoop.eq_def, if_pos (byte_ne_zero hs _)]
    dsimp only
    by_cases halias : isAlias s = true
    · have hat := (byte_eq_at_iff hs.1 (0 :: (pack strs ++ beyond))).mpr halias
      obtain ⟨c, t, rfl⟩ := List.exists_cons_of_ne_nil hs.1
      have ht : 0 ∉ t := fun h0 => hs.2 (List.mem_cons_of_mem c h0)
      rw [if_pos hat, if_pos hat, List.cons_append, List.tail_cons, pastNul_append ht,
        cstr_append ht, ih hrest, entries_alias halias, numbered, if_pos halias]
      simp
    · have hat := mt (byte_eq_at_iff hs.1 (0 :: (pack strs ++ beyond))).mp halias
      rw [if_neg hat, if_neg hat, pastNul_append hs.2, cstr_append hs.2, ih hrest,
        entries_entry (Bool.not_eq_true _ ▸ halias), numbered, if_neg halias]
      simp [add_assoc, add_comm]

/-! ## `ListSub` -/

/-- The entries that the walk of `ListSub` comes to: it ends at an alias without a name. -/
def reachPtrs (beyond : List UInt8) : List (List UInt8) → List Ptr
  | [] => []
  | s :: strs =>
    if s = [64] then []
    else if isAlias s then reachPtrs beyond strs
    else (pack (s :: strs) ++ beyond) :: reachPtrs beyond strs

/-- Where the loop ends: the end of `ListSub` after it. -/
def subEnd (p : Ptr × ℤ) : Option Ptr := if p.2 ≠ 0 ∨ p.1.byte = 0 then none else some p.1

theorem listSub_eq (sub : ℤ) (list : Ptr) :
    listSub sub (some list) = subEnd (subLoop list sub) := rfl

/-- The walk from inside of a string on. -/
theorem subLoop_pack (h : Strings strs) (hs : s ≠ [] ∧ 0 ∉ s) (n : ℕ) :
    subEnd (subLoop (s ++ 0 :: (pack strs ++ beyond)) (n + 1)) = (reachPtrs beyond strs)[n]? := by
  induction strs generalizing s n with
  | nil =>
    rw [subLoop.eq_def, if_pos ⟨byte_ne_zero hs _, by omega⟩]
    dsimp only
    rw [pastNul_append hs.2, pack_nil, if_neg (by simp [Ptr.byte]), subLoop.eq_def,
      if_neg (by simp [Ptr.byte])]
    simp [subEnd, Ptr.byte, reachPtrs]
  | cons r strs ih =>
    obtain ⟨hr, hrest⟩ := h.cons
    rw [subLoop.eq_def, if_pos ⟨byte_ne_zero hs _, by omega⟩]
    dsimp only
    rw [pastNul_append hs.2, pack_cons]
    have hat := byte_eq_at_iff hr.1 (0 :: (pack strs ++ beyond))
    by_cases halias : isAlias r = true
    · obtain ⟨c, t, rfl⟩ := List.exists_cons_of_ne_nil hr.1
      have hc : c = 64 := by simpa [isAlias] using halias
      rw [if_pos (hat.mpr halias), List.cons_append, List.tail_cons, reachPtrs]
      by_cases hnil : t = []
      · -- an alias without a name: the walk is at a NUL, and stops
        rw [hnil, hc, if_pos rfl, List.nil_append, subLoop.eq_def, if_neg (by simp [Ptr.byte])]
        simp [subEnd, Ptr.byte]
      · have ht : 0 ∉ t := fun h0 => hr.2 (List.mem_cons_of_mem c h0)
        rw [if_neg (by simp [hnil]), if_pos halias]
        exact ih hrest ⟨hnil, ht⟩ n
    · have hne : r ≠ [64] := by
        rintro rfl
        exact halias rfl
      rw [if_neg (mt hat.mp halias), reachPtrs, if_neg hne, if_neg halias]
      cases n with
      | zero =>
        rw [subLoop.eq_def, if_neg (by simp), ← pack_cons]
        have hbyte := byte_ne_zero hr (0 :: (pack strs ++ beyond))
        rw [← pack_cons] at hbyte
        simp [subEnd, hbyte]
      | succ n =>
        rw [List.getElem?_cons_succ, ← ih hrest hr n]
        push_cast
        rw [add_sub_cancel_right]

theorem listSub_pack (h : Strings strs) (hhead : ∀ s ∈ strs.head?, isAlias s = false) (sub : ℤ) :
    listSub sub (some (pack strs ++ beyond)) = entryAt (reachPtrs beyond strs) sub := by
  rw [listSub_eq]
  unfold entryAt
  by_cases hneg : 0 ≤ sub
  · obtain ⟨n, rfl⟩ := Int.eq_ofNat_of_zero_le hneg
    rw [if_pos hneg]
    cases strs with
    | nil =>
      rw [pack_nil, subLoop.eq_def, if_neg (by simp [Ptr.byte])]
      simp [subEnd, Ptr.byte, reachPtrs]
    | cons s strs =>
      obtain ⟨hs, hrest⟩ := h.cons
      have hentry : isAlias s = false := hhead s rfl
      have hne : s ≠ [64] := by
        rintro rfl
        exact absurd hentry (by decide)
      rw [reachPtrs, if_neg hne, if_neg (Bool.eq_false_iff.mp hentry)]
      cases n with
      | zero =>
        rw [subLoop.eq_def, if_neg (by simp)]
        have hbyte := byte_ne_zero hs (0 :: (pack strs ++ beyond))
        rw [← pack_cons] at hbyte
        simp [subEnd, hbyte]
      | succ n =>
        rw [pack_cons]
        exact subLoop_pack hrest hs n
  · rw [if_neg hneg, subLoop.eq_def, if_neg (by omega)]
    have hne : sub ≠ 0 := by omega
    simp [subEnd, hne]

/-- No alias without a name is before an entry. -/
def NamedAliases (strs : List (List UInt8)) : Prop :=
  ∀ before after, strs = before ++ [64] :: after → entries after = []

theorem namedAliases_cons :
    NamedAliases (s :: strs) ↔ (s = [64] → entries strs = []) ∧ NamedAliases strs := by
  constructor
  · intro h
    refine ⟨fun hs => h [] strs (by rw [hs, List.nil_append]), fun before after heq => ?_⟩
    exact h (s :: before) after (by rw [heq, List.cons_append])
  · rintro ⟨hs, hrest⟩ before after heq
    cases before with
    | nil =>
      rw [List.nil_append, List.cons.injEq] at heq
      rw [← heq.2]
      exact hs heq.1
    | cons b before =>
      rw [List.cons_append, List.cons.injEq] at heq
      exact hrest before after heq.2

/-- **The walk comes to every entry** exactly when no alias without a name is before one. -/
theorem reachPtrs_eq_iff :
    reachPtrs beyond strs = entryPtrs beyond strs ↔ NamedAliases strs := by
  induction strs with
  | nil =>
    simp only [reachPtrs, entryPtrs, true_iff]
    intro before after heq
    exact absurd heq.symm (by simp)
  | cons s strs ih =>
    rw [namedAliases_cons, reachPtrs, entryPtrs, ← ih]
    by_cases hs : s = [64]
    · have hnil : entryPtrs beyond strs = [] ↔ entries strs = [] := by
        rw [← List.length_eq_zero_iff, length_entryPtrs, List.length_eq_zero_iff]
      have halias : isAlias s = true := by rw [hs]; rfl
      rw [if_pos hs, if_pos halias]
      constructor
      · intro h
        have hentries := hnil.mp h.symm
        refine ⟨fun _ => hentries, ?_⟩
        rw [ih]
        intro before after heq
        rw [heq] at hentries
        simp only [entries, List.filter_append, List.append_eq_nil_iff] at hentries
        have hafter := hentries.2
        rw [List.filter_cons_of_neg (by decide)] at hafter
        exact hafter
      · rintro ⟨h, -⟩
        exact (hnil.mpr (h hs)).symm
    · rw [if_neg hs]
      by_cases halias : isAlias s = true
      · rw [if_pos halias, if_pos halias]
        exact ⟨fun h => ⟨fun h' => absurd h' hs, h⟩, fun h => h.2⟩
      · rw [if_neg halias, if_neg halias, List.cons.injEq]
        exact ⟨fun h => ⟨fun h' => absurd h' hs, h.2⟩, fun h => ⟨rfl, h.2⟩⟩

end Packed

/-! ## `ListMatch` -/

section Match

variable {flags : UInt64} {needle name q beyond : List UInt8}

theorem foldCase_eq_zero_iff {c : UInt8} : foldCase flags c = 0 ↔ c = 0 := by
  unfold foldCase
  split
  · exact upCase_eq_iff (by decide)
  · rfl

/-- What a comparison with a name finds out, and where it leaves the list. -/
theorem matchSpan_pack (hneedle : 0 ∉ needle) (hname : 0 ∉ name) (q : List UInt8) :
    ((matchSpan flags needle (name ++ 0 :: q)).1.byte = 0 ↔
      needle.map (foldCase flags) <+: name.map (foldCase flags)) ∧
    ((matchSpan flags needle (name ++ 0 :: q)).1.byte = 0 ∧
        (matchSpan flags needle (name ++ 0 :: q)).2.byte = 0 ↔ Same flags needle name) ∧
      (matchSpan flags needle (name ++ 0 :: q)).2.pastNul = q := by
  induction needle generalizing name with
  | nil =>
    rw [matchSpan.eq_def, if_neg (by simp [Ptr.byte])]
    refine ⟨by simp [Ptr.byte], ?_, pastNul_append hname q⟩
    cases name with
    | nil => simp [Ptr.byte, Same]
    | cons b name =>
      have hb : b ≠ 0 := by
        rintro rfl
        exact hname List.mem_cons_self
      simp [Ptr.byte, Same, hb]
  | cons a needle ih =>
    have ha : a ≠ 0 := by
      rintro rfl
      exact hneedle List.mem_cons_self
    have hfa : foldCase flags a ≠ 0 := mt foldCase_eq_zero_iff.mp ha
    have hrest : 0 ∉ needle := fun h0 => hneedle (List.mem_cons_of_mem a h0)
    rw [matchSpan.eq_def]
    cases name with
    | nil =>
      have hzero : foldCase flags 0 = 0 := foldCase_eq_zero_iff.mpr rfl
      rw [if_neg (by simpa [Ptr.byte, hzero] using fun _ => hfa)]
      exact ⟨by simp [Ptr.byte, ha], by simp [Ptr.byte, ha, Same], pastNul_append hname q⟩
    | cons b name =>
      have htail : 0 ∉ name := fun h0 => hname (List.mem_cons_of_mem b h0)
      by_cases hab : foldCase flags a = foldCase flags b
      · rw [if_pos ⟨ha, hab⟩]
        have hih := ih hrest htail
        simpa [Same, hab] using hih
      · rw [if_neg (fun h => hab h.2)]
        refine ⟨by simp [Ptr.byte, ha, hab], by simp [Ptr.byte, ha, Same, hab],
          pastNul_append hname q⟩

/-- `ListMatch` over the names and their numbers. -/
def matchNames (flags : UInt64) (needle : List UInt8) : List (List UInt8 × ℤ) → ℤ → ℤ
  | [], res => res
  | (name, k) :: names, res =>
    if Same flags needle name then k
    else
      matchNames flags needle names
        (if ProperPrefix flags needle name then
          if res ≠ -1 then -2 else if flags &&& LMF_EXACT = 0 then k else res
        else res)

theorem matchLoop_name (needle : U8Str) (hname : 0 ∉ name) (sub res : ℤ) (p : Ptr)
    (hp : p.byte ≠ 0)
    (heq : (if p.byte = 64 then p.tail else p) = name ++ 0 :: q) :
    matchLoop needle flags p sub res =
      if Same flags needle.bytes name then (if p.byte = 64 then sub - 1 else sub)
      else
        matchLoop needle flags q ((if p.byte = 64 then sub - 1 else sub) + 1)
          (if ProperPrefix flags needle.bytes name then
            if res ≠ -1 then -2
            else if flags &&& LMF_EXACT = 0 then (if p.byte = 64 then sub - 1 else sub) else res
          else res) := by
  obtain ⟨hstart, hsame, hpast⟩ := @matchSpan_pack flags needle.bytes name needle.nul hname q
  rw [matchLoop.eq_def, if_pos hp]
  dsimp only
  rw [heq, hpast]
  generalize (if p.byte = 64 then sub - 1 else sub) = sub'
  by_cases hs : Same flags needle.bytes name
  · rw [if_pos (hsame.mpr hs), if_pos hs]
  · rw [if_neg (mt hsame.mp hs), if_neg hs]
    by_cases hpre : needle.bytes.map (foldCase flags) <+: name.map (foldCase flags)
    · have hproper : ProperPrefix flags needle.bytes name := ⟨hpre, hs⟩
      simp [hstart.mpr hpre, hproper]
    · have hproper : ¬ ProperPrefix flags needle.bytes name := fun h => hpre h.1
      simp [mt hstart.mp hpre, hproper]

theorem matchLoop_pack (needle : U8Str) {strs : List (List UInt8)} (h : Strings strs)
    (next res : ℤ) :
    matchLoop needle flags (pack strs ++ beyond) next res =
      matchNames flags needle.bytes (numbered next strs) res := by
  induction strs generalizing next res with
  | nil =>
    rw [pack_nil, matchLoop.eq_def, if_neg (by simp [Ptr.byte])]
    rfl
  | cons s strs ih =>
    obtain ⟨hs, hrest⟩ := h.cons
    have hat := byte_eq_at_iff hs.1 (0 :: (pack strs ++ beyond))
    have hbyte := byte_ne_zero hs (0 :: (pack strs ++ beyond))
    rw [pack_cons, numbered]
    by_cases halias : isAlias s = true
    · obtain ⟨c, t, rfl⟩ := List.exists_cons_of_ne_nil hs.1
      have ht : 0 ∉ t := fun h0 => hs.2 (List.mem_cons_of_mem c h0)
      have heq : (if Ptr.byte (c :: t ++ 0 :: (pack strs ++ beyond)) = 64 then
          List.tail (c :: t ++ 0 :: (pack strs ++ beyond))
          else c :: t ++ 0 :: (pack strs ++ beyond)) = t ++ 0 :: (pack strs ++ beyond) := by
        rw [if_pos (hat.mpr halias)]
        rfl
      rw [matchLoop_name needle ht next res _ hbyte heq, if_pos halias, if_pos (hat.mpr halias),
        sub_add_cancel, ih hrest, matchNames, List.tail_cons]
    · have heq : (if Ptr.byte (s ++ 0 :: (pack strs ++ beyond)) = 64 then
          List.tail (s ++ 0 :: (pack strs ++ beyond))
          else s ++ 0 :: (pack strs ++ beyond)) = s ++ 0 :: (pack strs ++ beyond) :=
        if_neg (mt hat.mp halias)
      rw [matchLoop_name needle hs.2 next res _ hbyte heq, if_neg halias,
        if_neg (mt hat.mp halias), ih hrest, matchNames]

/-! ### What it answers -/

variable {names : List (List UInt8 × ℤ)} {res : ℤ}

/-- Numbers of entries are not below zero. -/
theorem le_numbered {next : ℤ} {strs : List (List UInt8)} :
    ∀ n ∈ numbered next strs, next - 1 ≤ n.2 := by
  induction strs generalizing next with
  | nil => simp [numbered]
  | cons s strs ih =>
    rw [numbered]
    split
    · rw [List.forall_mem_cons]
      exact ⟨le_refl _, ih⟩
    · rw [List.forall_mem_cons]
      refine ⟨by dsimp only; omega, fun n hn => ?_⟩
      have hle := ih n hn
      omega

theorem numbered_nonneg (l : AliasList) : ∀ n ∈ numbered 0 l.strs, 0 ≤ n.2 := by
  intro n hn
  cases hstrs : l.strs with
  | nil => simp [hstrs, numbered] at hn
  | cons s strs =>
    have hentry : isAlias s = false := l.head s (by rw [hstrs]; rfl)
    rw [hstrs, numbered, if_neg (Bool.eq_false_iff.mp hentry), List.mem_cons] at hn
    rcases hn with rfl | hn
    · exact le_refl 0
    · have hle := le_numbered n hn
      omega

/-- The one name that the needle is gives the answer. -/
theorem matchNames_once {name : List UInt8 × ℤ}
    (h : names.filter (fun n => Same flags needle n.1) = [name]) (res : ℤ) :
    matchNames flags needle names res = name.2 := by
  induction names generalizing res with
  | nil => simp at h
  | cons n names ih =>
    rw [matchNames]
    by_cases hs : Same flags needle n.1
    · rw [List.filter_cons_of_pos (by simpa using hs), List.cons.injEq] at h
      rw [if_pos hs, h.1]
    · rw [List.filter_cons_of_neg (by simpa using hs)] at h
      rw [if_neg hs]
      exact ih h _

/-- A name that the needle is gives an answer that is a number. -/
theorem matchNames_of_same (h : ∃ n ∈ names, Same flags needle n.1) (res : ℤ) :
    ∃ n ∈ names, matchNames flags needle names res = n.2 := by
  induction names generalizing res with
  | nil => simp at h
  | cons n names ih =>
    rw [matchNames]
    by_cases hs : Same flags needle n.1
    · exact ⟨n, List.mem_cons_self, if_pos hs⟩
    · rw [if_neg hs]
      have hrest : ∃ m ∈ names, Same flags needle m.1 := by
        obtain ⟨m, hm, hms⟩ := h
        rcases List.mem_cons.mp hm with rfl | hm
        · exact absurd hms hs
        · exact ⟨m, hm, hms⟩
      obtain ⟨m, hm, heq⟩ := ih hrest _
      exact ⟨m, List.mem_cons_of_mem n hm, heq⟩

/-- Where whole names are asked for, prefixes change nothing. -/
theorem matchNames_exact (hexact : flags &&& LMF_EXACT ≠ 0)
    (h : ∀ n ∈ names, ¬ Same flags needle n.1) : matchNames flags needle names (-1) = -1 := by
  induction names with
  | nil => rfl
  | cons n names ih =>
    rw [List.forall_mem_cons] at h
    rw [matchNames, if_neg h.1]
    simpa [hexact] using ih h.2

section Prefix

variable (hloose : flags &&& LMF_EXACT = 0) (h : ∀ n ∈ names, ¬ Same flags needle n.1)

include h

theorem matchNames_ambiguous : matchNames flags needle names (-2) = -2 := by
  induction names with
  | nil => rfl
  | cons n names ih =>
    rw [List.forall_mem_cons] at h
    rw [matchNames, if_neg h.1]
    simpa using ih h.2

/-- After one prefix, one more makes the answer ambiguous. -/
theorem matchNames_after (hres : 0 ≤ res) :
    matchNames flags needle names res = -2 ↔
      1 ≤ (names.filter fun n => ProperPrefix flags needle n.1).length := by
  induction names with
  | nil =>
    rw [matchNames, List.filter_nil, List.length_nil]
    omega
  | cons n names ih =>
    rw [List.forall_mem_cons] at h
    rw [matchNames, if_neg h.1]
    by_cases hpre : ProperPrefix flags needle n.1
    · rw [if_pos hpre, if_pos (by omega), matchNames_ambiguous h.2,
        List.filter_cons_of_pos (by simpa using hpre), List.length_cons]
      exact ⟨fun _ => by omega, fun _ => rfl⟩
    · rw [if_neg hpre, List.filter_cons_of_neg (by simpa using hpre)]
      exact ih h.2

include hloose

/-- **Two prefixes make the answer ambiguous.** -/
theorem matchNames_iff (hnum : ∀ n ∈ names, 0 ≤ n.2) :
    matchNames flags needle names (-1) = -2 ↔
      2 ≤ (names.filter fun n => ProperPrefix flags needle n.1).length := by
  induction names with
  | nil =>
    rw [matchNames, List.filter_nil, List.length_nil]
    omega
  | cons n names ih =>
    rw [List.forall_mem_cons] at h hnum
    rw [matchNames, if_neg h.1]
    by_cases hpre : ProperPrefix flags needle n.1
    · rw [if_pos hpre, if_neg (by omega), if_pos hloose, matchNames_after h.2 hnum.1,
        List.filter_cons_of_pos (by simpa using hpre), List.length_cons]
      omega
    · rw [if_neg hpre, List.filter_cons_of_neg (by simpa using hpre)]
      exact ih h.2 hnum.2

end Prefix

end Match

/-! ## The numbering -/

section Numbering

variable (l : AliasList) (beyond : List UInt8)

theorem length_walk :
    ((pack l.strs ++ beyond).length : ℤ) - (countLoop (pack l.strs ++ beyond) 0).2.length + 1 =
      (pack l.strs).length := by
  rw [countLoop_pack l.strings]
  simp only [List.length_append, List.length_cons]
  push_cast
  ring

/-- A list is loaded unless it is too long. -/
theorem defineListLoad_eq (table : List CHashDefineStr) (dname : List UInt8) :
    defineListLoad table dname (pack l.strs ++ beyond) =
      if (pack l.strs).length ≤ 0x100000 then
        (some ⟨dname, [65, 68, 58], pack l.strs, (entries l.strs).length, entryPtrs beyond l.strs⟩,
          ⟨dname, [65, 68, 58], pack l.strs, (entries l.strs).length,
            entryPtrs beyond l.strs⟩ :: table)
      else (none, table) := by
  have hwalk := length_walk l beyond
  unfold defineListLoad
  rw [countLoop_pack l.strings] at hwalk ⊢
  dsimp only at hwalk ⊢
  rw [hwalk]
  have hpos : 0 < (pack l.strs).length := by simp [pack]
  by_cases hlen : (pack l.strs).length ≤ 0x100000
  · rw [if_neg (by omega), if_pos hlen, indexLoop_pack l.strings, Int.toNat_natCast,
      List.take_left, zero_add]
  · rw [if_pos (by omega), if_neg hlen]

theorem defineSub_load (table : List CHashDefineStr) (dname : List UInt8) (tmph : CHashDefineStr)
    (h : (defineListLoad table dname (pack l.strs ++ beyond)).1 = some tmph) :
    tmph.count = (entries l.strs).length ∧ tmph.subIdx = entryPtrs beyond l.strs ∧
      ∀ sub, defineSub sub (defineListLoad table dname (pack l.strs ++ beyond)).2 dname =
        .ok (entryAt (entryPtrs beyond l.strs) sub) := by
  rw [defineListLoad_eq] at h ⊢
  by_cases hlen : (pack l.strs).length ≤ 0x100000
  · rw [if_pos hlen] at h ⊢
    obtain rfl := Option.some.inj h
    refine ⟨rfl, rfl, fun sub => ?_⟩
    unfold defineSub findDefine entryAt
    rw [List.find?_cons_of_pos (by simp)]
    dsimp only
    by_cases hneg : 0 ≤ sub
    · by_cases hlt : sub < (entries l.strs).length
      · rw [if_pos ⟨hneg, hlt⟩, if_pos hneg]
      · rw [if_neg (fun h => hlt h.2), if_pos hneg, List.getElem?_eq_none]
        rw [length_entryPtrs]
        omega
    · rw [if_neg (fun h => hneg h.1), if_neg hneg]
  · rw [if_neg hlen] at h
    exact absurd h (by simp)

theorem entryAt_inj {a b : List Ptr} (h : ∀ sub, entryAt a sub = entryAt b sub) : a = b := by
  apply List.ext_getElem?
  intro i
  have hi := h i
  unfold entryAt at hi
  rwa [if_pos (Int.natCast_nonneg i), if_pos (Int.natCast_nonneg i), Int.toNat_natCast] at hi

/-- **The walks number the strings alike** exactly when no alias without a name is before an entry;
a list is loaded as long as it is not above 0x100000 bytes. -/
theorem numbered_iff :
    (Numbered l beyond ↔
      ∀ before after, l.strs = before ++ [64] :: after → entries after = []) ∧
    ∀ table dname, (defineListLoad table dname (pack l.strs ++ beyond)).1.isSome ↔
      (pack l.strs).length ≤ 0x100000 := by
  have hsub (sub : ℤ) : listSub sub (some (pack l.strs ++ beyond)) =
      entryAt (reachPtrs beyond l.strs) sub := listSub_pack l.strings l.head sub
  have hmatch (needle : U8Str) (flags : UInt64) :
      listMatch needle (some (pack l.strs ++ beyond)) flags =
        matchNames flags needle.bytes (numbered 0 l.strs) (-1) :=
    matchLoop_pack needle l.strings 0 (-1)
  constructor
  · constructor
    · intro h
      apply reachPtrs_eq_iff.mp
      apply entryAt_inj
      intro sub
      rw [← hsub, h.sub]
    · intro h
      have hreach : reachPtrs beyond l.strs = entryPtrs beyond l.strs := reachPtrs_eq_iff.mpr h
      refine ⟨cstr_entryPtrs l.strings, defineSub_load l beyond, fun sub => ?_,
        fun type table => ?_, fun needle flags name _ honce => ?_, fun needle flags hexact => ?_,
        fun needle flags hloose => ?_⟩
      · rw [hsub, hreach]
      · show addLoop type (pack l.strs ++ beyond) 0 table = _
        rw [addLoop_pack l.strings, zero_add]
      · rw [hmatch]
        exact matchNames_once honce (-1)
      · rw [hmatch]
        by_cases hsame : ∃ n ∈ numbered 0 l.strs, Same flags needle.bytes n.1
        · obtain ⟨n, hn, heq⟩ := matchNames_of_same hsame (-1)
          have hnum := numbered_nonneg l n hn
          omega
        · rw [matchNames_exact hexact fun n hn hs => hsame ⟨n, hn, hs⟩]
          decide
      · rw [hmatch]
        by_cases hsame : ∃ n ∈ numbered 0 l.strs, Same flags needle.bytes n.1
        · obtain ⟨n, hn, heq⟩ := matchNames_of_same hsame (-1)
          have hnum := numbered_nonneg l n hn
          constructor
          · intro h2
            omega
          · rintro ⟨hnone, -⟩
            obtain ⟨m, hm, hms⟩ := hsame
            exact absurd hms (hnone m hm)
        · have hnone : ∀ n ∈ numbered 0 l.strs, ¬ Same flags needle.bytes n.1 :=
            fun n hn hs => hsame ⟨n, hn, hs⟩
          rw [matchNames_iff hloose hnone (numbered_nonneg l)]
          exact ⟨fun h2 => ⟨hnone, h2⟩, fun h2 => h2.2⟩
  · intro table dname
    rw [defineListLoad_eq]
    split <;> simp [*]

/-- The strings `A`, `@` and `B`: the second entry is not found. -/
def unnamedAlias : AliasList where
  strs := [[65], [64], [66]]
  nonempty := by decide
  nul := by decide
  head := by decide

theorem unnamedAlias_lost :
    (entries unnamedAlias.strs)[1]? = some [66] ∧
      listSub 1 (some (pack unnamedAlias.strs ++ [])) = none ∧ ¬ Numbered unnamedAlias [] := by
  have hlost : listSub 1 (some (pack unnamedAlias.strs ++ [])) = none := by
    rw [listSub_pack unnamedAlias.strings unnamedAlias.head]
    decide
  refine ⟨by decide, hlost, fun h => ?_⟩
  have hsub := h.sub 1
  rw [hlost] at hsub
  exact absurd hsub (by decide)

end Numbering

end ZealBringup.Bridge
