import Mathlib.Data.List.DropRight
import ZealBringup.Fat.Volume

/-!
# Directory entries

`pi4_fat32_directory_entry` of `pi4_fat32.h`.

* `pi4Fat32DirectoryEntry` — what the code makes of the 32 bytes of a slot.
* `shortName`, `encoded` — the entry that a slot encodes.
* `pi4Fat32DirectoryEntry_eq` — the code gives the encoded entries of the live slots.
-/

namespace ZealBringup.Fat

/-! ## The code -/

/-- `struct pi4_fat32_entry`, with the characters of the name before its zero. -/
structure Entry where
  name : List ℕ
  attributes : ℕ
  cluster : ℕ
  bytes : ℕ
  deriving DecidableEq

/-- The results of `pi4_fat32_directory_entry`. -/
inductive DirectoryEntry where
  | last
  | live (entry : Entry)
  | skip
  | malformed
  deriving DecidableEq

/-- The end of a part of a name, without the blanks behind it. -/
def nameEnd (d : List UInt8) (start : ℕ) : ℕ → ℕ
  | 0 => 0
  | stop + 1 =>
      if stop + 1 > start ∧ byteAt d stop = 0x20 then nameEnd d start stop else stop + 1

/-- A character of a name: `'?'` where it is not printable, in lower case if the slot says so. -/
def nameChar (lower : Bool) (c : ℕ) : ℕ :=
  let c := if c < 0x20 ∨ c > 0x7e then 63 else c
  if lower ∧ 65 ≤ c ∧ c ≤ 90 then c + 32 else c

/-- The characters of a part of the name. -/
def namePart (d : List UInt8) (start stop flag : ℕ) : List ℕ :=
  (List.range' start (nameEnd d start stop - start)).map fun i =>
    nameChar (byteAt d 12 &&& flag ≠ 0) (byteAt d i)

/-- The loop over the two parts. -/
def pi4Fat32Name (d : List UInt8) : List ℕ :=
  namePart d 0 8 8 ++ ((if nameEnd d 8 11 > 8 then [46] else []) ++ namePart d 8 11 16)

def entryCluster (d : List UInt8) : ℕ :=
  (pi4Fat32Le16 (d.drop 20) <<< 16 ||| pi4Fat32Le16 (d.drop 26)) &&& 0x0fffffff

def entryBytes (d : List UInt8) : ℕ := pi4Fat32Le32 (d.drop 28)

/-- A deleted slot, a part of a long name, a label or a dot entry. -/
def IsSkipped (d : List UInt8) : Prop :=
  byteAt d 0 = 0xe5 ∨ byteAt d 11 = 0x0f ∨ byteAt d 11 &&& 8 ≠ 0 ∨
  (byteAt d 0 = 46 ∧ (byteAt d 1 = 0x20 ∨ (byteAt d 1 = 46 ∧ byteAt d 2 = 0x20)))

/-- A slot with attributes, a name or a cluster that no entry has. -/
def IsMalformed (d : List UInt8) (v : Volume) : Prop :=
  byteAt d 11 &&& 0xc0 ≠ 0 ∨ byteAt d 0 = 0x20 ∨
  ((entryBytes d ≠ 0 ∨ byteAt d 11 &&& 16 ≠ 0 ∨ entryCluster d ≠ 0) ∧
    (entryCluster d < 2 ∨ entryCluster d > v.clusters + 1))

instance (d : List UInt8) : Decidable (IsSkipped d) := inferInstanceAs (Decidable (_ ∨ _))
instance (d : List UInt8) (v : Volume) : Decidable (IsMalformed d v) :=
  inferInstanceAs (Decidable (_ ∨ _))

/-- `pi4_fat32_directory_entry`. -/
def pi4Fat32DirectoryEntry (d : List UInt8) (v : Volume) : DirectoryEntry :=
  if byteAt d 0 = 0 then .last
  else if IsSkipped d then .skip
  else if IsMalformed d v then .malformed
  else .live ⟨pi4Fat32Name d, byteAt d 11, entryCluster d, entryBytes d⟩

/-! ## What a slot encodes -/

/-- A short name: the two parts without the blanks behind them, and a dot before an extension. -/
def shortName (d : List UInt8) : List ℕ :=
  let base := (d.take 8).rdropWhile (· == 0x20)
  let extension := ((d.drop 8).take 3).rdropWhile (· == 0x20)
  let shown := fun flag (part : List UInt8) =>
    part.map fun c => nameChar (byteAt d 12 &&& flag ≠ 0) c.toNat
  shown 8 base ++ if extension = [] then [] else 46 :: shown 16 extension

/-- The entry that a slot encodes. -/
def encoded (d : List UInt8) : Entry := ⟨shortName d, byteAt d 11, entryCluster d, entryBytes d⟩

/-- The entries of the live slots, in their order. -/
def listing (slots : List (List UInt8)) : List Entry :=
  (slots.filter fun d => ¬IsSkipped d).map encoded

variable {d : List UInt8} {v : Volume} {start stop n : ℕ} {slots slots' : List (List UInt8)}

theorem byteAt_of_lt {i : ℕ} (hi : i < d.length) : byteAt d i = d[i].toNat := by
  rw [byteAt, List.getD_eq_getElem?_getD, List.getElem?_eq_getElem hi, Option.getD_some]

theorem byteAt_eq_iff {i c : ℕ} (hi : i < d.length) (hc : c < 256) :
    byteAt d i = c ↔ d[i] = UInt8.ofNat c := by
  rw [byteAt_of_lt hi, ← UInt8.toNat_inj, UInt8.toNat_ofNat', Nat.mod_eq_of_lt hc]

theorem nameEnd_le (d : List UInt8) (start stop : ℕ) : nameEnd d start stop ≤ stop := by
  induction stop with
  | zero => exact Nat.le_refl 0
  | succ stop ih =>
    rw [nameEnd]
    split
    · exact Nat.le_succ_of_le ih
    · exact Nat.le_refl _

/-- The end that is found drops the blanks. -/
theorem take_nameEnd (hle : start ≤ stop) (hlen : stop ≤ d.length) :
    (d.drop start).take (nameEnd d start stop - start) =
      ((d.drop start).take (stop - start)).rdropWhile (· == 0x20) := by
  induction stop with
  | zero =>
    rw [nameEnd, Nat.zero_sub, List.take_zero]
    rfl
  | succ stop ih =>
    rw [nameEnd]
    by_cases hstart : stop + 1 > start
    · have hlt : stop < d.length := hlen
      have hget : (d.drop start)[stop - start]? = some d[stop] := by
        rw [List.getElem?_drop, Nat.add_sub_cancel' (Nat.le_of_lt_succ hstart),
          List.getElem?_eq_getElem hlt]
      have hiff : byteAt d stop = 0x20 ↔ d[stop] = 0x20 := byteAt_eq_iff hlt (by decide)
      rw [Nat.succ_sub (Nat.le_of_lt_succ hstart), List.take_add_one, hget, Option.toList_some,
        List.rdropWhile_concat]
      by_cases hblank : byteAt d stop = 0x20
      · rw [if_pos ⟨hstart, hblank⟩, if_pos (beq_iff_eq.2 (hiff.1 hblank))]
        exact ih (Nat.le_of_lt_succ hstart) (Nat.le_of_lt hlen)
      · rw [if_neg (fun h => hblank h.2), if_neg (fun h => hblank (hiff.2 (beq_iff_eq.1 h))),
          Nat.succ_sub (Nat.le_of_lt_succ hstart), List.take_add_one, hget, Option.toList_some]
    · have heq : start = stop + 1 := by omega
      rw [if_neg (fun h => hstart h.1), heq, Nat.sub_self, List.take_zero]
      rfl

/-- A part of the name, from its bytes. -/
theorem namePart_eq (hle : start ≤ stop) (hlen : stop ≤ d.length) (flag : ℕ) :
    namePart d start stop flag =
      (((d.drop start).take (stop - start)).rdropWhile (· == 0x20)).map fun c =>
        nameChar (byteAt d 12 &&& flag ≠ 0) c.toNat := by
  have hend := nameEnd_le d start stop
  rw [← take_nameEnd hle hlen, namePart]
  refine List.ext_getElem ?_ fun i hi hi' => ?_
  · rw [List.length_map, List.length_range', List.length_map, List.length_take, List.length_drop]
    omega
  · rw [List.length_map, List.length_range'] at hi
    have hlt : start + i < d.length := by omega
    rw [List.getElem_map, List.getElem_range', List.getElem_map, List.getElem_take,
      List.getElem_drop, Nat.one_mul, byteAt_of_lt hlt]

/-- The name that the loop writes is the short name. -/
theorem pi4Fat32Name_eq (hlen : 32 ≤ d.length) : pi4Fat32Name d = shortName d := by
  have hext := take_nameEnd (d := d) (by decide : 8 ≤ 11) (by omega)
  have hbase := namePart_eq (d := d) (by decide : 0 ≤ 8) (by omega) 8
  rw [pi4Fat32Name, hbase, namePart_eq (by decide : 8 ≤ 11) (by omega), shortName, List.drop_zero]
  refine congrArg _ ?_
  have hiff : nameEnd d 8 11 > 8 ↔ ((d.drop 8).take (11 - 8)).rdropWhile (· == 0x20) ≠ [] := by
    have hle := nameEnd_le d 8 11
    rw [← hext, ne_eq, List.take_eq_nil_iff, List.drop_eq_nil_iff]
    omega
  by_cases hdot : nameEnd d 8 11 > 8
  · rw [if_pos hdot, if_neg (hiff.1 hdot)]
    rfl
  · have hnone := not_not.1 (mt hiff.2 hdot)
    rw [if_neg hdot, if_pos hnone, hnone]
    rfl

/-- **The code gives the encoded entries of the live slots.** -/
theorem pi4Fat32DirectoryEntry_eq (hlen : 32 ≤ d.length) (v : Volume) :
    pi4Fat32DirectoryEntry d v =
      if byteAt d 0 = 0 then .last
      else if IsSkipped d then .skip
      else if IsMalformed d v then .malformed else .live (encoded d) := by
  rw [pi4Fat32DirectoryEntry, pi4Fat32Name_eq hlen, encoded]

/-! ## Listings -/

theorem listing_append (slots slots' : List (List UInt8)) :
    listing (slots ++ slots') = listing slots ++ listing slots' := by
  rw [listing, List.filter_append, List.map_append]
  rfl

theorem listing_skip (hskip : IsSkipped d) : listing (slots ++ [d]) = listing slots := by
  have hnone : listing [d] = [] := by
    rw [listing, List.filter_singleton, decide_eq_false (not_not.2 hskip)]
    rfl
  rw [listing_append, hnone, List.append_nil]

theorem listing_live (hlive : ¬IsSkipped d) :
    listing (slots ++ [d]) = listing slots ++ [encoded d] := by
  have hone : listing [d] = [encoded d] := by
    rw [listing, List.filter_singleton, decide_eq_true hlive]
    rfl
  rw [listing_append, hone]

end ZealBringup.Fat
