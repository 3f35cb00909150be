import ZealBringup.Front.Body
import ZealBringup.Lib.Bitmap

/-!
# The table of classes

While every member begins in the first 64 KiB of its class, the table of the front end is the
reference: no size leaves the range of an `int`, since a class adds 64 KiB at most to the largest one
before it and there are eight classes.

* `hcfAlignUp_toNat` — the rounding on words.
* `Adds.step`, `adds_run` — one member, and all members of a class.
* `declares_tabled` — a run of declarations.
-/

namespace ZealBringup.Front

open Packing

variable {t : List RefClass} {r : RefClass} {cs : List HcClass} {c c' : HcClass} {k : MemberKind}
  {ds : List ClassDecl} {d : ClassDecl} {isUnion : Bool} {ms : List (MemberKind × Name)}
  {m : MemberKind × Name} {f g : HcFront} {b : ℕ}

/-! ## Words -/

theorem hcfAlignUp_toNat {v a : BitVec 32} {j : ℕ} (ha : a.toNat = 2 ^ j)
    (hv : v.toNat + 2 ^ j ≤ 2 ^ 32) : (hcfAlignUp v a).toNat = roundUp v.toNat (2 ^ j) := by
  have hpos : 0 < 2 ^ j := Nat.two_pow_pos j
  have hone : (1 : BitVec 32).toNat = 1 := rfl
  have hmask : (a - 1).toNat = 2 ^ j - 1 := by
    rw [BitVec.toNat_sub, hone, ha]
    omega
  have hsum : (v + a - 1).toNat = v.toNat + (2 ^ j - 1) := by
    rw [BitVec.toNat_sub, BitVec.toNat_add, hone, ha]
    omega
  rw [hcfAlignUp, Bitmap.toNat_and_not_mask _ hmask, hsum, roundUp]

theorem slt_iff {x y : BitVec 32} (hx : x.toNat < 2 ^ 31) (hy : y.toNat < 2 ^ 31) :
    x.slt y ↔ x.toNat < y.toNat := by
  rw [BitVec.slt_iff_toInt_lt, BitVec.toInt_eq_toNat_of_lt (by omega),
    BitVec.toInt_eq_toNat_of_lt (by omega)]
  exact Int.ofNat_lt

/-! ## Members -/

def RefMember.record (m : RefMember) : HcMember where
  name := m.name
  off := m.offset
  stride := m.kind.align
  type := m.kind.type
  isF64 := m.kind.isF64

/-- A class of the table is the reference. -/
structure Records (r : RefClass) (c : HcClass) : Prop where
  name : c.name = r.name
  mem : c.mem = r.members.map RefMember.record
  size : c.size.toNat = r.size

/-- The table before a declaration: sizes up to `b`. -/
structure Before (t : List RefClass) (cs : List HcClass) (b : ℕ) : Prop where
  records : List.Forall₂ Records t cs
  count : t.length ≤ HC_MAX_CLASSES
  sizes : ∀ r ∈ t, r.size ≤ b
  eight_le : 8 ≤ b
  small : b ≤ 2 ^ 20

theorem Before.length_eq (h : Before t cs b) : cs.length = t.length := h.records.length_eq.symm

theorem Before.stride (h : Before t cs b) (hk : k.Below t.length) :
    (k.stride cs).toNat = k.bytes t := by
  cases k with
  | class_ i =>
    have hi : i < t.length := hk
    have hi' : i < cs.length := h.length_eq ▸ hi
    rw [MemberKind.stride, MemberKind.bytes, List.getElem?_eq_getElem hi, List.getElem?_eq_getElem hi']
    exact (h.records.get hi hi').size
  | _ => rfl

theorem Before.bytes_le (h : Before t cs b) (k : MemberKind) : k.bytes t ≤ b := by
  have height := h.eight_le
  cases k with
  | class_ i =>
    rw [MemberKind.bytes]
    cases hi : t[i]? with
    | none => exact Nat.zero_le _
    | some r => exact h.sizes r (List.mem_of_getElem? hi)
  | u8 =>
    rw [MemberKind.bytes]
    omega
  | u32 =>
    rw [MemberKind.bytes]
    omega
  | _ => exact height

theorem type_class {n i : ℕ} (hk : (MemberKind.class_ i).Below n) (hn : n ≤ HC_MAX_CLASSES) :
    i ≠ HC_TYPE_NONE ∧ i % 2 ^ 8 = i := by
  have hi : i < n := hk
  unfold HC_MAX_CLASSES at hn
  unfold HC_TYPE_NONE
  omega

/-- The alignment as the code has it, which is also the recorded stride. -/
theorem Before.align (h : Before t cs b) (hk : k.Below t.length) :
    (if k.type ≠ HC_TYPE_NONE then (8 : BitVec 32) else k.stride cs).toNat = k.align := by
  cases k with
  | class_ i =>
    have hnone : (MemberKind.class_ i).type ≠ HC_TYPE_NONE := (type_class hk h.count).1
    rw [if_pos hnone]
    rfl
  | _ => rfl

theorem align_eq_pow (k : MemberKind) : ∃ j, k.align = 2 ^ j ∧ j ≤ 3 := by
  cases k with
  | u8 => exact ⟨0, rfl, by decide⟩
  | u32 => exact ⟨2, rfl, by decide⟩
  | _ => exact ⟨3, rfl, by decide⟩

/-- The class behind some of its members. -/
structure Adds (t : List RefClass) (isUnion : Bool) (ms : List (MemberKind × Name)) (c : HcClass) :
    Prop where
  mem : c.mem = (placed t isUnion ms).map RefMember.record
  size : c.size.toNat = extent isUnion 0 (fields t ms)

theorem fields_concat (t : List RefClass) (ms : List (MemberKind × Name)) (m : MemberKind × Name) :
    fields t (ms ++ [m]) = fields t ms ++ [m.1.field t] := List.map_append

/-- The end behind one member more. -/
theorem size_step {size stride off : BitVec 32} {e : ℕ} {u : Field} (he : size.toNat = e)
    (hu : stride.toNat = u.size) (ho : off.toNat = offset isUnion e u) (hsize : e < 2 ^ 31)
    (hstride : u.size < 2 ^ 31) (hoff : offset isUnion e u < 2 ^ 31) :
    (if isUnion then (if size.slt stride then stride else size) else off + stride).toNat =
      extend isUnion e u := by
  unfold offset at ho hoff
  unfold extend
  cases isUnion with
  | true =>
    rw [if_pos rfl, if_pos rfl]
    by_cases hlt : size.slt stride
    · rw [if_pos hlt, hu]
      rw [slt_iff (by omega) (by omega)] at hlt
      omega
    · rw [if_neg hlt, he]
      rw [slt_iff (by omega) (by omega)] at hlt
      omega
  | false =>
    rw [if_neg Bool.false_ne_true] at ho hoff
    rw [if_neg Bool.false_ne_true, if_neg Bool.false_ne_true, BitVec.toNat_add, ho, hu]
    exact Nat.mod_eq_of_lt (by omega)

/-- **One member more.** -/
theorem Adds.step (hc : Adds t isUnion ms c) (ht : Before t cs b) (hm : m.1.Below t.length)
    (hsize : extent isUnion 0 (fields t ms) ≤ 2 ^ 16 - 1 + b)
    (hoff : offset isUnion (extent isUnion 0 (fields t ms)) (m.1.field t) < 2 ^ 16)
    (h : hcfAddMember cs isUnion c m = .ok c') :
    Adds t isUnion (ms ++ [m]) c' ∧ c'.name = c.name := by
  have hsmall := ht.small
  have hbytes : (m.1.field t).size ≤ b := ht.bytes_le m.1
  have hstride := ht.stride hm
  have halign := ht.align hm
  obtain ⟨j, hj, hj3⟩ := align_eq_pow m.1
  have hpow : 2 ^ j ≤ 2 ^ 3 := Nat.pow_le_pow_right (by decide) hj3
  -- Where the member goes.
  have hplace : (if isUnion then (0 : BitVec 32) else hcfAlignUp c.size
      (if m.1.type ≠ HC_TYPE_NONE then 8 else m.1.stride cs)).toNat =
      offset isUnion (extent isUnion 0 (fields t ms)) (m.1.field t) := by
    unfold offset
    split
    · rfl
    · rw [hcfAlignUp_toNat (halign.trans hj) (by rw [hc.size]; omega), hc.size]
      exact congrArg _ hj.symm
  unfold hcfAddMember at h
  split at h
  · cases h
  split at h
  · cases h
  cases h
  refine ⟨⟨?_, ?_⟩, rfl⟩
  · rw [placed_concat, List.map_append, ← hc.mem]
    refine congrArg (c.mem ++ ·) (congrArg (fun x => [x]) ?_)
    rw [hplace, halign, Nat.mod_eq_of_lt hoff, RefMember.record, HcMember.mk.injEq]
    refine ⟨rfl, rfl, ?_, ?_, ?_⟩
    · exact Nat.mod_eq_of_lt (by rw [hj]; omega)
    · cases hkind : m.1 with
      | class_ i =>
        rw [hkind] at hm
        exact (type_class hm ht.count).2
      | _ => rfl
    · cases hkind : m.1 with
      | class_ i =>
        rw [hkind] at hm
        exact if_pos (type_class hm ht.count).1
      | _ => rfl
  · rw [fields_concat, extent_concat]
    exact size_step hc.size hstride hplace (by omega) (by omega) (by omega)

/-- **All members of a class.** -/
theorem adds_run {name : Name} (ht : Before t cs b) (hms : ∀ m ∈ ms, m.1.Below t.length)
    (hoff : ∀ o ∈ offsets isUnion 0 (fields t ms), o < 2 ^ 16)
    (h : ms.foldlM (hcfAddMember cs isUnion) ⟨name, [], 0⟩ = .ok c) :
    Adds t isUnion ms c ∧ c.name = name := by
  induction ms using List.reverseRecOn generalizing c with
  | nil =>
    cases h
    exact ⟨⟨rfl, rfl⟩, rfl⟩
  | append_singleton ms m ih =>
    rw [fields_concat, offsets_concat] at hoff
    rw [List.foldlM_append] at h
    obtain ⟨c₀, hprev, h⟩ := bind_ok h
    rw [List.foldlM_cons] at h
    obtain ⟨c₁, hadd, h⟩ := bind_ok h
    cases h
    have hoff' : ∀ o ∈ offsets isUnion 0 (fields t ms), o < 2 ^ 16 := fun o ho =>
      hoff o (List.mem_append_left _ ho)
    obtain ⟨hadds, hname⟩ := ih (fun m hm => hms m (List.mem_append_left _ hm)) hoff' hprev
    have hsize : extent isUnion 0 (fields t ms) ≤ 2 ^ 16 - 1 + b := by
      refine extent_le (fun o ho => ?_) (fun u hu => ?_) (Nat.zero_le _)
      · have hlt := hoff' o ho
        omega
      · obtain ⟨x, -, rfl⟩ := List.mem_map.mp hu
        exact ht.bytes_le x.1
    obtain ⟨hstep, hsame⟩ := hadds.step ht (hms m (List.mem_append_right _ List.mem_cons_self)) hsize
      (hoff _ (List.mem_append_right _ List.mem_cons_self)) hadd
    exact ⟨hstep, hsame.trans hname⟩

/-! ## Declarations -/

/-- The table is the reference. -/
structure Tabled (ds : List ClassDecl) (cs : List HcClass) : Prop where
  records : List.Forall₂ Records (refTable ds) cs
  placed : ∀ r ∈ refTable ds, Placed (refTable ds) r
  sizes : ∀ r ∈ refTable ds, r.size ≤ 2 ^ 16 * ds.length + 8 * (ds.length + 1)
  count : ds.length ≤ HC_MAX_CLASSES

theorem tabled_builtin : Tabled builtinDecls builtinClasses where
  records := by
    refine .cons ⟨rfl, rfl, rfl⟩ (.cons ⟨rfl, rfl, rfl⟩ .nil)
  placed := by
    have h : ∀ r ∈ refTable builtinDecls, (∀ m ∈ r.members, m.kind = .i64) ∧
        (r.members.Pairwise fun m n => m.offset + 8 ≤ n.offset) ∧
        (∀ m ∈ r.members, m.offset + 8 ≤ r.size) ∧ r.size % 8 = 0 := by decide
    intro r hr
    obtain ⟨hkind, hapart, hinside, hsize⟩ := h r hr
    refine ⟨fun m hm => ?_, fun _ => hapart.imp_of_mem fun {m n} hm _ hle => ?_, fun m hm => ?_,
      hsize⟩
    · rw [hkind m hm]
      trivial
    · rw [hkind m hm]
      exact hle
    · rw [hkind m hm]
      exact hinside m hm
  sizes := by decide
  count := by decide

theorem HcClass.close_size (hc : c.size.toNat ≤ 2 ^ 30) :
    c.close.size.toNat = max 8 (roundUp c.size.toNat 8) := by
  have hround : (hcfAlignUp c.size 8).toNat = roundUp c.size.toNat 8 :=
    @hcfAlignUp_toNat c.size 8 3 rfl (by omega)
  have hle := roundUp_le c.size.toNat 8
  have height : (8 : BitVec 32).toNat = 8 := rfl
  have hslt := @slt_iff (hcfAlignUp c.size 8) 8 (by omega) (by omega)
  unfold HcClass.close
  dsimp only
  by_cases hlt : (hcfAlignUp c.size 8).slt 8
  · rw [if_pos hlt]
    rw [hslt] at hlt
    omega
  · rw [if_neg hlt]
    rw [hslt] at hlt
    omega

/-- **One declaration more.** -/
theorem Tabled.step (h : Tabled ds f.classes) (hr : Reads f d c) (hreach : Reachable (ds ++ [d])) :
    Tabled (ds ++ [d]) (f.classes ++ [c.close]) := by
  have hlen : f.classes.length = ds.length := by
    rw [← h.records.length_eq, length_refTable]
  have hroom := hr.room
  rw [hlen] at hroom
  have hcount : ds.length < 8 := hroom
  have hbefore : Before (refTable ds) f.classes (2 ^ 16 * ds.length + 8 * (ds.length + 1)) := by
    refine ⟨h.records, ?_, h.sizes, by omega, by omega⟩
    rw [length_refTable]
    exact h.count
  have hbelow : ∀ m ∈ d.members, m.1.Below (refTable ds).length := by
    rw [length_refTable, ← hlen]
    exact hr.below
  have hoff : ∀ o ∈ offsets d.isUnion 0 (fields (refTable ds) d.members), o < 2 ^ 16 := by
    intro o ho
    rw [← placed_offset] at ho
    obtain ⟨m, hm, rfl⟩ := List.mem_map.mp ho
    refine hreach (refClass (refTable ds) d) ?_ m hm
    rw [refTable_concat]
    exact List.mem_append_right _ List.mem_cons_self
  obtain ⟨hadds, hname⟩ := adds_run hbefore hbelow hoff hr.adds
  have hextent : extent d.isUnion 0 (fields (refTable ds) d.members) ≤
      2 ^ 16 - 1 + (2 ^ 16 * ds.length + 8 * (ds.length + 1)) := by
    refine extent_le (fun o ho => ?_) (fun u hu => ?_) (Nat.zero_le _)
    · have hlt := hoff o ho
      omega
    · obtain ⟨x, -, rfl⟩ := List.mem_map.mp hu
      exact hbefore.bytes_le x.1
  have hclose := HcClass.close_size (c := c) (by rw [hadds.size]; omega)
  rw [hadds.size] at hclose
  refine ⟨?_, fun r hr => ?_, fun r hr => ?_, ?_⟩
  · rw [refTable_concat]
    exact List.rel_append h.records (.cons ⟨hname, hadds.mem, hclose⟩ .nil)
  · rw [refTable_concat] at hr ⊢
    rcases List.mem_append.mp hr with hr | hr
    · exact (h.placed r hr).concat
    · rw [List.mem_singleton.mp hr]
      exact (placed_refClass hbelow).concat
  · have hround := roundUp_le (extent d.isUnion 0 (fields (refTable ds) d.members)) 8
    rw [refTable_concat] at hr
    rw [List.length_append, List.length_singleton]
    rcases List.mem_append.mp hr with hr | hr
    · have hle := h.sizes r hr
      omega
    · have heq : (refClass (refTable ds) d).size =
          max 8 (roundUp (extent d.isUnion 0 (fields (refTable ds) d.members)) 8) := rfl
      rw [List.mem_singleton.mp hr, heq]
      omega
  · rw [List.length_append]
    exact hroom

/-- **The table after any declarations is the reference, while every member is within reach.** -/
theorem declares_tabled {ds₀ : List ClassDecl} (h : Declares f ds g) (hstart : Tabled ds₀ f.classes)
    (hreach : Reachable (ds₀ ++ ds)) : Tabled (ds₀ ++ ds) g.classes := by
  induction h with
  | nil =>
    rw [List.append_nil]
    exact hstart
  | class_ hrun hread hparse ih =>
    rw [← List.append_assoc] at hreach ⊢
    obtain ⟨d, c, hread', hreads, hclasses⟩ := hcfParseClass_read hparse
    rw [hread] at hread'
    cases hread'
    rw [hclasses]
    exact (ih hreach.before).step hreads hreach
  | other hrun hsame ih =>
    rw [hsame]
    exact ih hreach

end ZealBringup.Front
