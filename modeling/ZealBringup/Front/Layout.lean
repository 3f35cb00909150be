import ZealBringup.Front.Classes
import ZealBringup.Lib.Packing

/-!
# The layout of classes

What a declaration says, read from the text without laying anything out, and the layout that it asks
for: each member behind the one before it at a multiple of its alignment, the members of a union upon
each other, and a size that is a multiple of eight.

* `ClassDecl`, `readClass` — a declaration, and how it is read.
* `refTable` — the layout of the declarations.
* `Declares` — a run of declarations with anything between them that leaves the classes alone.
* `Placed`, `refTable_placed` — the members are inside their class and, but in a union, apart.
-/

namespace ZealBringup.Front

open Packing

/-! ## Declarations -/

/-- A class or a union with its members, in their order. -/
structure ClassDecl where
  isUnion : Bool
  name : Name
  members : List (MemberKind × Name)
  deriving DecidableEq

/-- The declaration that the text begins with. -/
def readClass (names : List Name) (p : List UInt8) : Except Halt ClassDecl := do
  let (isUnion, name, p) ← hcfClassHead names p
  let (_, members) ← hcfClassBody names (fun ms m => .ok (ms ++ [m])) (p.length + 1) p []
  .ok { isUnion, name, members }

/-- The built-in classes, as declarations. -/
def builtinDecls : List ClassDecl :=
  [⟨false, chars ['C', 'D', 'C'],
    [(.i64, chars ['c', 'o', 'l', 'o', 'r']),
      (.i64, chars ['d', 'e', 'p', 't', 'h', '_', 'b', 'u', 'f'])]⟩,
    ⟨false, chars ['C', 'M', 'e', 'n', 'u', 'E', 'n', 't', 'r', 'y'],
      [(.i64, chars ['c', 'h', 'e', 'c', 'k', 'e', 'd'])]⟩]

/-- The declarations between two states of the front end. -/
inductive Declares (f : HcFront) : List ClassDecl → HcFront → Prop
  | nil : Declares f [] f
  | class_ {g h : HcFront} {ds : List ClassDecl} {d : ClassDecl} (hrun : Declares f ds g)
    (hread : readClass (g.classes.map HcClass.name) g.p = .ok d) (hparse : hcfParseClass g = .ok h) :
    Declares f (ds ++ [d]) h
  | other {g h : HcFront} {ds : List ClassDecl} (hrun : Declares f ds g)
    (hsame : h.classes = g.classes) : Declares f ds h

/-! ## The reference -/

structure RefMember where
  name : Name
  kind : MemberKind
  offset : ℕ
  deriving DecidableEq

structure RefClass where
  name : Name
  isUnion : Bool
  members : List RefMember
  size : ℕ
  deriving DecidableEq

variable {t : List RefClass} {r x : RefClass} {k : MemberKind} {ds : List ClassDecl} {d : ClassDecl}
  {isUnion : Bool}

/-- The bytes of a member, by the classes before. -/
def MemberKind.bytes (t : List RefClass) : MemberKind → ℕ
  | .u8 => 1
  | .u32 => 4
  | .i64 => 8
  | .f64 => 8
  | .class_ i => (t[i]?.map RefClass.size).getD 0

def MemberKind.align : MemberKind → ℕ
  | .u8 => 1
  | .u32 => 4
  | _ => 8

def MemberKind.field (t : List RefClass) (k : MemberKind) : Field := ⟨k.bytes t, k.align⟩

def fields (t : List RefClass) (ms : List (MemberKind × Name)) : List Field :=
  ms.map fun m => m.1.field t

/-- The members where they belong. -/
def placed (t : List RefClass) (isUnion : Bool) (ms : List (MemberKind × Name)) : List RefMember :=
  List.zipWith (fun m o => ⟨m.2, m.1, o⟩) ms (offsets isUnion 0 (fields t ms))

/-- The layout of a declaration behind others. -/
def refClass (t : List RefClass) (d : ClassDecl) : RefClass where
  name := d.name
  isUnion := d.isUnion
  members := placed t d.isUnion d.members
  size := max 8 (roundUp (extent d.isUnion 0 (fields t d.members)) 8)

/-- The layout of the declarations. -/
def refTable (ds : List ClassDecl) : List RefClass := ds.foldl (fun t d => t ++ [refClass t d]) []

/-- No member begins behind the first 64 KiB of its class. -/
def Reachable (ds : List ClassDecl) : Prop :=
  ∀ r ∈ refTable ds, ∀ m ∈ r.members, m.offset < 2 ^ 16

instance : Decidable (Reachable ds) :=
  inferInstanceAs (Decidable (∀ r ∈ refTable ds, ∀ m ∈ r.members, m.offset < 2 ^ 16))

theorem refTable_concat (ds : List ClassDecl) (d : ClassDecl) :
    refTable (ds ++ [d]) = refTable ds ++ [refClass (refTable ds) d] := by
  simp [refTable]

@[simp] theorem length_refTable (ds : List ClassDecl) : (refTable ds).length = ds.length := by
  induction ds using List.reverseRecOn with
  | nil => rfl
  | append_singleton ds d ih => rw [refTable_concat]; simp [ih]

theorem Reachable.before (h : Reachable (ds ++ [d])) : Reachable ds := by
  intro r hr
  refine h r ?_
  rw [refTable_concat]
  exact List.mem_append_left _ hr

theorem placed_concat (t : List RefClass) (isUnion : Bool) (ms : List (MemberKind × Name))
    (m : MemberKind × Name) : placed t isUnion (ms ++ [m]) = placed t isUnion ms ++
      [⟨m.2, m.1, offset isUnion (extent isUnion 0 (fields t ms)) (m.1.field t)⟩] := by
  have hfields : fields t (ms ++ [m]) = fields t ms ++ [m.1.field t] := by simp [fields]
  rw [placed, hfields, offsets_concat, List.zipWith_append]
  · rfl
  · rw [length_offsets, fields, List.length_map]

theorem placed_offset (t : List RefClass) (isUnion : Bool) (ms : List (MemberKind × Name)) :
    (placed t isUnion ms).map RefMember.offset = offsets isUnion 0 (fields t ms) := by
  induction ms using List.reverseRecOn with
  | nil => rfl
  | append_singleton ms m ih =>
    have hfields : fields t (ms ++ [m]) = fields t ms ++ [m.1.field t] := by simp [fields]
    rw [placed_concat, hfields, offsets_concat, List.map_append, ih]
    rfl

/-! ## What the reference is good for -/

/-- A member of a class is one of an earlier class. -/
def MemberKind.Below (n : ℕ) : MemberKind → Prop
  | .class_ i => i < n
  | _ => True

/-- The members of a class are inside it and, but in a union, each ends before the next begins. -/
structure Placed (t : List RefClass) (r : RefClass) : Prop where
  nested : ∀ m ∈ r.members, m.kind.Below t.length
  apart : r.isUnion = false →
    r.members.Pairwise fun m n => m.offset + m.kind.bytes t ≤ n.offset
  inside : ∀ m ∈ r.members, m.offset + m.kind.bytes t ≤ r.size
  size : r.size % 8 = 0

theorem MemberKind.align_pos (k : MemberKind) : 0 < k.align := by
  cases k <;> simp [MemberKind.align]

theorem bytes_concat (h : k.Below t.length) : k.bytes (t ++ [x]) = k.bytes t := by
  cases k with
  | class_ i =>
    have hi : i < t.length := h
    rw [MemberKind.bytes, MemberKind.bytes, List.getElem?_append_left hi]
  | _ => rfl

theorem below_concat (h : k.Below t.length) : k.Below (t ++ [x]).length := by
  cases k with
  | class_ i =>
    rw [List.length_append]
    exact Nat.lt_add_right _ h
  | _ => trivial

/-- Later classes change nothing. -/
theorem Placed.concat (h : Placed t r) : Placed (t ++ [x]) r where
  nested m hm := below_concat (h.nested m hm)
  apart hu := by
    refine (h.apart hu).imp_of_mem fun {m n} hm _ hle => ?_
    rwa [bytes_concat (h.nested m hm)]
  inside m hm := by
    rw [bytes_concat (h.nested m hm)]
    exact h.inside m hm
  size := h.size

/-- A pair of an offset and a field for each member. -/
theorem placed_zip (t : List RefClass) (isUnion : Bool) (ms : List (MemberKind × Name)) :
    (placed t isUnion ms).map (fun m => (m.offset, m.kind.field t)) =
      (offsets isUnion 0 (fields t ms)).zip (fields t ms) := by
  induction ms using List.reverseRecOn with
  | nil => rfl
  | append_singleton ms m ih =>
    have hfields : fields t (ms ++ [m]) = fields t ms ++ [m.1.field t] := by simp [fields]
    rw [placed_concat, hfields, zip_concat, List.map_append, ih]
    rfl

theorem placed_kind {ms : List (MemberKind × Name)} {m : RefMember} (hm : m ∈ placed t isUnion ms) :
    ∃ x ∈ ms, m.kind = x.1 := by
  induction ms using List.reverseRecOn with
  | nil => cases hm
  | append_singleton ms x ih =>
    rw [placed_concat, List.mem_append, List.mem_singleton] at hm
    rcases hm with hm | rfl
    · obtain ⟨y, hy, hkind⟩ := ih hm
      exact ⟨y, List.mem_append_left _ hy, hkind⟩
    · exact ⟨x, List.mem_append_right _ List.mem_cons_self, rfl⟩

/-- **The layout of a declaration whose members are of earlier classes.** -/
theorem placed_refClass (hd : ∀ m ∈ d.members, m.1.Below t.length) : Placed t (refClass t d) := by
  have halign : ∀ u ∈ fields t d.members, 0 < u.align := by
    intro u hu
    obtain ⟨m, -, rfl⟩ := List.mem_map.mp hu
    exact m.1.align_pos
  have hsize : extent d.isUnion 0 (fields t d.members) ≤ (refClass t d).size :=
    (le_roundUp (by decide) _).trans (Nat.le_max_right _ _)
  refine ⟨fun m hm => ?_, fun hu => ?_, fun m hm => ?_, ?_⟩
  · obtain ⟨x, hx, hkind⟩ := placed_kind hm
    rw [hkind]
    exact hd x hx
  · have hpair := @pairwise_offsets 0 _ halign
    have hu' : d.isUnion = false := hu
    rw [← hu', ← placed_zip, List.pairwise_map] at hpair
    exact hpair
  · have hmem : (m.offset, m.kind.field t) ∈
        (offsets d.isUnion 0 (fields t d.members)).zip (fields t d.members) := by
      rw [← placed_zip]
      exact List.mem_map_of_mem (f := fun m => (m.offset, m.kind.field t)) hm
    exact (end_le_extent halign _ hmem).trans hsize
  · have hmod := roundUp_mod (extent d.isUnion 0 (fields t d.members)) 8
    have heq : (refClass t d).size = max 8 (roundUp (extent d.isUnion 0 (fields t d.members)) 8) := rfl
    omega

end ZealBringup.Front
