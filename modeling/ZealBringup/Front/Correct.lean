import ZealBringup.Front.Member

/-!
# When the layout is right

The offset of a member is kept in sixteen bits.  A class of sixteen members, each a class of sixteen
members and so on, is larger than that after three steps.

* `LayoutCorrect` — the table is the reference, and accesses go where the reference says.
* `layout_iff` — this is so exactly when every member begins in the first 64 KiB of its class.
* `far_member` — four classes where it is not.
-/

namespace ZealBringup.Front

open Calc Checked

variable {t : List RefClass} {r : RefClass} {cs : List HcClass} {c : HcClass} {k : MemberKind}
  {ds : List ClassDecl} {d : ClassDecl} {f g : HcFront} {n : ℕ} {arrow : Bool} {v : HcVar}

/-! ## What is right -/

/-- The bytes of a recorded member. -/
def memberBytes (cs : List HcClass) (m : HcMember) : ℤ :=
  if m.type = HC_TYPE_NONE then m.stride else ((cs[m.type]?.map HcClass.size).getD 0).toInt

/-- The code for a chain at a variable: the address of the member in an address or an assignment, the
member itself in an expression. -/
structure AccessCorrect (t : List RefClass) (arrow : Bool) (f : HcFront) (v : HcVar) : Prop where
  address : ∀ g a, hcfParseMember arrow f v = .ok (g, a) → ∃ name ns offset k code,
    Addressed t arrow f v g name ns offset k code ∧
      ∀ e s, irRun e code s = some ((e.base arrow v + BitVec.ofNat 64 offset) :: s)
  read : ∀ g, hcfPrimMember arrow f v = .ok g → ∃ name ns offset k code,
    ChainText f.p name ns g.p ∧ refChain t v.type name ns = some (offset, k) ∧ g.bc = f.bc ++ code ∧
      ∀ e s, irRun e code s = some ((if k.isScalar then
        e.load (k.bytes t) (e.base arrow v + BitVec.ofNat 64 offset)
        else e.base arrow v + BitVec.ofNat 64 offset) :: s)
  write : ∀ g ld sop, hcfStmtMember arrow f v = .ok (g, ld, sop) → ∃ name ns offset k code,
    Addressed t arrow f v g name ns offset k code ∧ k.isScalar ∧ opWidth ld = k.bytes t ∧
      opWidth sop = k.bytes t

/-- The classes are laid out as they are declared, and accesses follow the layout. -/
structure LayoutCorrect (ds : List ClassDecl) (f : HcFront) : Prop where
  offset : f.classes.map (fun c => c.mem.map HcMember.off) =
    (refTable ds).map fun r => r.members.map RefMember.offset
  apart : ∀ (i : ℕ) (c : HcClass) (d : ClassDecl), f.classes[i]? = some c → ds[i]? = some d →
    d.isUnion = false → c.mem.Pairwise fun m n => m.off + memberBytes f.classes m ≤ n.off
  inside : ∀ c ∈ f.classes, ∀ m ∈ c.mem, m.off + memberBytes f.classes m ≤ c.size.toInt
  size : ∀ c ∈ f.classes, c.size.toInt % 8 = 0
  access : ∀ g, g.classes = f.classes → ∀ arrow v, AccessCorrect (refTable ds) arrow g v

/-! ## While every member is within reach -/

theorem Tabled.tables (h : Tabled ds cs) : Tables (refTable ds) cs where
  records := h.records
  placed := h.placed
  count := by
    rw [length_refTable]
    exact h.count

theorem accessCorrect (ht : Tables t f.classes) (arrow : Bool) (v : HcVar) :
    AccessCorrect t arrow f v where
  address g a h := by
    obtain ⟨name, ns, offset, k, code, haddr, -, -⟩ := hcfParseMember_chain ht h
    refine ⟨name, ns, offset, k, code, haddr, fun e s => ?_⟩
    have hrun := haddr.run e [] s
    rw [List.append_nil] at hrun
    rw [hrun]
    rfl
  read g h := by
    unfold hcfPrimMember at h
    obtain ⟨⟨g₁, a⟩, hparse, h⟩ := bind_ok h
    obtain ⟨name, ns, offset, k, code, haddr, hbelow, rfl⟩ := hcfParseMember_chain ht hparse
    have hnone := type_eq_none hbelow ht.count
    dsimp only at h
    split at h
    · rename_i hclass
      cases h
      have hk : ¬k.isScalar := fun hk => hclass (hnone.mpr hk)
      refine ⟨name, ns, offset, k, code, haddr.text, haddr.chain, haddr.emitted, fun e s => ?_⟩
      have hrun := haddr.run e [] s
      rw [List.append_nil] at hrun
      rw [hrun, if_neg hk]
      rfl
    · rename_i hscalar
      have hk : k.isScalar := hnone.mp (not_not.mp hscalar)
      rw [hcfEmit_bc h]
      refine ⟨name, ns, offset, k, code ++ [loadOp k.align], haddr.text, haddr.chain, ?_,
        fun e s => ?_⟩
      · dsimp only
        rw [haddr.emitted, List.append_assoc]
      · rw [haddr.run, if_pos hk]
        exact irRun_load e hk _ s
  write g ld sop h := by
    unfold hcfStmtMember at h
    obtain ⟨⟨g₁, a⟩, hparse, h⟩ := bind_ok h
    obtain ⟨name, ns, offset, k, code, haddr, hbelow, rfl⟩ := hcfParseMember_chain ht hparse
    dsimp only at h
    split at h
    · cases h
    · rename_i hscalar
      cases h
      have hk := (type_eq_none hbelow ht.count).mp (not_not.mp hscalar)
      exact ⟨name, ns, offset, k, code, haddr, hk, opWidth_scalar hk⟩

/-- The recorded sizes are in the range of an `int`. -/
theorem Tabled.toInt (h : Tabled ds cs) (hr : Records r c) (hmem : r ∈ refTable ds) :
    c.size.toInt = r.size := by
  have hle := h.sizes r hmem
  have hcount : ds.length ≤ 8 := h.count
  rw [BitVec.toInt_eq_toNat_of_lt (by rw [hr.size]; omega), hr.size]

theorem Tabled.memberBytes (h : Tabled ds cs) {m : RefMember}
    (hm : m.kind.Below (refTable ds).length) :
    memberBytes cs m.record = m.kind.bytes (refTable ds) := by
  have hcount := h.tables.count
  cases hkind : m.kind with
  | class_ i =>
    rw [hkind] at hm
    have hi : i < (refTable ds).length := hm
    have hi' : i < cs.length := h.records.length_eq ▸ hi
    have htype : m.record.type = i := by
      rw [RefMember.record, hkind]
      rfl
    rw [Front.memberBytes, htype, if_neg (type_class hm hcount).1, MemberKind.bytes,
      List.getElem?_eq_getElem hi, List.getElem?_eq_getElem hi']
    exact h.toInt (h.records.get hi hi') (List.getElem_mem hi)
  | u8 | u32 | i64 | f64 =>
    have htype : m.record.type = HC_TYPE_NONE := by
      rw [RefMember.record, hkind]
      rfl
    rw [Front.memberBytes, if_pos htype, RefMember.record, hkind]
    rfl

/-- An entry of the table and the reference of it. -/
theorem Tabled.get (h : Tabled ds cs) {i : ℕ} (hc : cs[i]? = some c) :
    ∃ r, (refTable ds)[i]? = some r ∧ r ∈ refTable ds ∧ Records r c := by
  obtain ⟨hi, rfl⟩ := List.getElem?_eq_some_iff.mp hc
  have hi' : i < (refTable ds).length := h.records.length_eq ▸ hi
  exact ⟨_, List.getElem?_eq_getElem hi', List.getElem_mem hi', h.records.get hi' hi⟩

theorem Tabled.mem (h : Tabled ds cs) (hc : c ∈ cs) : ∃ r ∈ refTable ds, Records r c := by
  obtain ⟨i, hi⟩ := List.mem_iff_getElem?.mp hc
  obtain ⟨r, -, hr, hrec⟩ := h.get hi
  exact ⟨r, hr, hrec⟩

theorem refTable_isUnion {i : ℕ} (hr : (refTable ds)[i]? = some r) (hd : ds[i]? = some d) :
    r.isUnion = d.isUnion := by
  induction ds using List.reverseRecOn with
  | nil => cases hd
  | append_singleton ds x ih =>
    rw [refTable_concat] at hr
    rcases Nat.lt_or_ge i ds.length with hlt | hge
    · rw [List.getElem?_append_left (by rwa [length_refTable])] at hr
      rw [List.getElem?_append_left hlt] at hd
      exact ih hr hd
    · rw [List.getElem?_append_right (by rwa [length_refTable]), length_refTable] at hr
      rw [List.getElem?_append_right hge] at hd
      obtain ⟨hi, rfl⟩ := List.getElem?_eq_some_iff.mp hd
      obtain ⟨hi', rfl⟩ := List.getElem?_eq_some_iff.mp hr
      simp [refClass]

/-- **A table that is the reference is right in every way.** -/
theorem Tabled.correct (h : Tabled ds f.classes) : LayoutCorrect ds f where
  offset := by
    have hboth : List.Forall₂ (fun c r => c.mem.map HcMember.off = r.members.map RefMember.offset)
        f.classes (refTable ds) := by
      refine (List.Forall₂.flip h.records).imp fun c r hr => ?_
      rw [hr.mem, List.map_map]
      rfl
    rw [← List.forall₂_eq_eq_eq, List.forall₂_map_left_iff, List.forall₂_map_right_iff]
    exact hboth
  apart i c d hc hd hu := by
    obtain ⟨r, hr, hmem, hrec⟩ := h.get hc
    have hplaced := h.placed r hmem
    rw [hrec.mem, List.pairwise_map]
    refine (hplaced.apart ((refTable_isUnion hr hd).trans hu)).imp_of_mem fun {m n} hm _ hle => ?_
    rw [h.memberBytes (hplaced.nested m hm)]
    exact_mod_cast hle
  inside c hc m hm := by
    obtain ⟨r, hmem, hrec⟩ := h.mem hc
    rw [hrec.mem] at hm
    obtain ⟨m', hm', rfl⟩ := List.mem_map.mp hm
    rw [h.memberBytes ((h.placed r hmem).nested m' hm'), h.toInt hrec hmem]
    exact_mod_cast (h.placed r hmem).inside m' hm'
  size c hc := by
    obtain ⟨r, hmem, hrec⟩ := h.mem hc
    rw [h.toInt hrec hmem]
    exact_mod_cast (h.placed r hmem).size
  access g hg arrow v := accessCorrect (by rw [hg]; exact h.tables) arrow v

/-! ## Where a member is out of reach -/

theorem addMembers_off {isUnion : Bool} {ms : List (MemberKind × Name)} {c c' : HcClass}
    (hc : ∀ m ∈ c.mem, m.off < 2 ^ 16) (h : ms.foldlM (hcfAddMember cs isUnion) c = .ok c') :
    ∀ m ∈ c'.mem, m.off < 2 ^ 16 := by
  induction ms generalizing c with
  | nil =>
    cases h
    exact hc
  | cons m ms ih =>
    rw [List.foldlM_cons] at h
    obtain ⟨c₁, hadd, h⟩ := bind_ok h
    refine ih ?_ h
    unfold hcfAddMember at hadd
    split at hadd
    · cases hadd
    split at hadd
    · cases hadd
    cases hadd
    intro x hx
    rcases List.mem_append.mp hx with hx | hx
    · exact hc x hx
    · rw [List.mem_singleton.mp hx]
      exact Nat.mod_lt _ (by decide)

/-- An offset has sixteen bits. -/
theorem declares_off (h : Declares f ds g) (hf : ∀ c ∈ f.classes, ∀ m ∈ c.mem, m.off < 2 ^ 16) :
    ∀ c ∈ g.classes, ∀ m ∈ c.mem, m.off < 2 ^ 16 := by
  induction h with
  | nil => exact hf
  | class_ hrun hread hparse ih =>
    obtain ⟨d, c, -, hreads, hclasses⟩ := hcfParseClass_read hparse
    intro x hx
    rw [hclasses] at hx
    rcases List.mem_append.mp hx with hx | hx
    · exact ih x hx
    · rw [List.mem_singleton.mp hx]
      have hnil : ∀ m ∈ (⟨d.name, [], 0⟩ : HcClass).mem, m.off < 2 ^ 16 := fun m hm => by cases hm
      have hmem : ∀ m ∈ c.mem, m.off < 2 ^ 16 := addMembers_off hnil hreads.adds
      exact hmem
  | other hrun hsame ih =>
    rw [hsame]
    exact ih

/-- Offsets that are kept are within reach. -/
theorem LayoutCorrect.reachable (hcorrect : LayoutCorrect ds f)
    (hoff : ∀ c ∈ f.classes, ∀ m ∈ c.mem, m.off < 2 ^ 16) : Reachable ds := by
  intro r hr m hm
  have hmem : r.members.map RefMember.offset ∈ f.classes.map fun c => c.mem.map HcMember.off := by
    rw [hcorrect.offset]
    exact List.mem_map_of_mem hr
  obtain ⟨c, hc, heq⟩ := List.mem_map.mp hmem
  have hm' : m.offset ∈ c.mem.map HcMember.off := by
    rw [heq]
    exact List.mem_map_of_mem hm
  obtain ⟨x, hx, hxm⟩ := List.mem_map.mp hm'
  rw [← hxm]
  exact hoff c hc x hx

theorem builtin_off : ∀ c ∈ builtinClasses, ∀ m ∈ c.mem, m.off < 2 ^ 16 := by decide

/-- **The layout is right, in every way or in none, exactly when every member begins in the first
64 KiB of its class.** -/
theorem layout_iff {text : List UInt8} {cap : ℕ} (h : Declares (hcFrontStart text cap) ds f) :
    LayoutCorrect (builtinDecls ++ ds) f ↔ Reachable (builtinDecls ++ ds) :=
  ⟨fun hcorrect => hcorrect.reachable (declares_off h builtin_off),
    fun hreach => (declares_tabled h tabled_builtin hreach).correct⟩

/-! ## Declarations one after the other -/

/-- `n` declarations, with what is read of them. -/
def declared : ℕ → HcFront → Except Halt (List ClassDecl × HcFront)
  | 0, f => .ok ([], f)
  | n + 1, f => do
    let d ← readClass (f.classes.map HcClass.name) f.p
    let g ← hcfParseClass f
    let (ds, h) ← declared n g
    .ok (d :: ds, h)

theorem declares_declared {ds₀ : List ClassDecl} {h : HcFront} (hrun : Declares f ds₀ g)
    (hn : declared n g = .ok (ds, h)) : Declares f (ds₀ ++ ds) h := by
  induction n generalizing g ds₀ ds with
  | zero =>
    cases hn
    rwa [List.append_nil]
  | succ n ih =>
    rw [declared] at hn
    obtain ⟨d, hread, hn⟩ := bind_ok hn
    obtain ⟨g₁, hparse, hn⟩ := bind_ok hn
    obtain ⟨⟨ds₁, h₁⟩, hrest, hn⟩ := bind_ok hn
    cases hn
    rw [List.append_cons]
    exact ih (hrun.class_ hread hparse) hrest

/-- Accepted declarations with a property. -/
theorem declared_any {p : List ClassDecl → Bool}
    (h : (declared n f).toOption.any (fun x => p x.1) = true) :
    ∃ ds g, Declares f ds g ∧ p ds = true := by
  obtain ⟨⟨ds, g⟩, hx, hp⟩ := (Option.any_eq_true _ _).mp h
  have hn : declared n f = .ok (ds, g) := by
    cases hd : declared n f with
    | ok x =>
      rw [hd] at hx
      cases hx
      rfl
    | error e =>
      rw [hd] at hx
      cases hx
  exact ⟨ds, g, declares_declared .nil hn, hp⟩

/-- `class name{type m1,m2...;};` -/
def classText (name : Char) (type members : List Char) : List UInt8 :=
  chars (['c', 'l', 'a', 's', 's', ' ', name, '{'] ++ type ++ [' '] ++ members.intersperse ',' ++
    [';', '}', ';'])

/-- Two bytes, and twice that. -/
def nearText : List UInt8 := classText 'A' ['U', '8'] ['a', 'b'] ++ classText 'B' ['A'] ['c', 'd']

theorem near_members : ∃ ds f, Declares (hcFrontStart nearText 64) ds f ∧
    LayoutCorrect (builtinDecls ++ ds) f := by
  obtain ⟨ds, f, hdecl, hreach⟩ := @declared_any (hcFrontStart nearText 64) 2
    (fun ds => decide (Reachable (builtinDecls ++ ds))) (by decide +kernel)
  exact ⟨ds, f, hdecl, (layout_iff hdecl).mpr (of_decide_eq_true hreach)⟩

def letters : List Char :=
  ['a', 'b', 'c', 'd', 'e', 'f', 'g', 'h', 'i', 'j', 'k', 'l', 'm', 'n', 'o', 'p']

/-- Sixteen words, sixteen times that, sixteen times that, and three of these. -/
def farText : List UInt8 :=
  classText 'A' ['I', '6', '4'] letters ++ classText 'B' ['A'] letters ++
    classText 'C' ['B'] letters ++ classText 'D' ['C'] ['a', 'b', 'c']

/-- The last member of the last class begins at byte 65536, which is kept as 0. -/
theorem far_member : ¬∀ text cap ds f, Declares (hcFrontStart text cap) ds f →
    LayoutCorrect (builtinDecls ++ ds) f := by
  intro h
  obtain ⟨ds, f, hdecl, hfar⟩ := @declared_any (hcFrontStart farText 64) 4
    (fun ds => decide ¬Reachable (builtinDecls ++ ds)) (by decide +kernel)
  have hcorrect := h farText 64 ds f hdecl
  exact of_decide_eq_true hfar (hcorrect.reachable (declares_off hdecl builtin_off))

end ZealBringup.Front
