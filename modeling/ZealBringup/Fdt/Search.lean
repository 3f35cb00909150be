import ZealBringup.Fdt.Tokens

/-!
# The parser finds the first PCIe host

The token machine over the flattened form of a tree.

* `props_reach`, `nodes_reach` — the machine runs over the bytes of properties and of nodes, and
  does to its stack and its report what they mean.
* `find_pcie_correct` — the parser on a flattened tree: it reports the first PCIe host to close.
-/

namespace ZealBringup.Fdt

variable {fdt : Blob} {b : Blocks} {out : ZealPi4Pcie} {strings : List UInt8}

/-! ## Words and properties -/

@[simp] theorem length_be32Bytes (n : ℕ) : (be32Bytes n).length = 4 := rfl

theorem beNat_be32Bytes {n : ℕ} (h : n < 2 ^ 32) : beNat (be32Bytes n) = n := by
  simp only [beNat, be32Bytes, List.foldl_cons, List.foldl_nil, UInt8.toNat_ofNat']
  omega

/-- The loop gets from one state to another in so many rounds. -/
def Reaches (fdt : Blob) (b : Blocks) (s s' : Scan) (k : ℕ) : Prop :=
  ∀ rounds, tokenLoop fdt b (rounds + k) s = tokenLoop fdt b rounds s'

theorem Reaches.refl (s : Scan) : Reaches fdt b s s 0 := fun _ => rfl

variable {s : Scan}

theorem Reaches.trans {s' s'' : Scan} {k l : ℕ} (h : Reaches fdt b s s' k)
    (h' : Reaches fdt b s' s'' l) : Reaches fdt b s s'' (k + l) := fun rounds => by
  rw [Nat.add_comm k, ← Nat.add_assoc, h, h']

/-- What the loop makes of a token that is there. -/
theorem tokenLoop_at {token : ℕ} (hat : At fdt (b.offStruct + s.cursor) (be32Bytes token))
    (htoken : token < 2 ^ 32) (hfit : s.cursor + 4 ≤ b.sizeStruct)
    (hsmall : b.sizeStruct < 2 ^ 32) (rounds : ℕ) :
    tokenLoop fdt b (rounds + 1) s =
      tokenStep fdt b token { s with cursor := s.cursor + 4 } >>= fun r =>
        match r with
        | .error code => .ok (code, s.out)
        | .ok s' => tokenLoop fdt b rounds s' := by
  have hu32 : u32 (s.cursor + 4) = s.cursor + 4 := Nat.mod_eq_of_lt (by omega)
  rw [tokenLoop, hu32, if_pos hfit, pi4FdtBe32_at hat (length_be32Bytes token), ok_bind,
    beNat_be32Bytes htoken]
  rfl

theorem Reaches.token {s' : Scan} {token : ℕ}
    (hat : At fdt (b.offStruct + s.cursor) (be32Bytes token)) (htoken : token < 2 ^ 32)
    (hfit : s.cursor + 4 ≤ b.sizeStruct) (hsmall : b.sizeStruct < 2 ^ 32)
    (hstep : tokenStep fdt b token { s with cursor := s.cursor + 4 } = .ok (.ok s')) :
    Reaches fdt b s s' 1 := fun rounds => by
  rw [tokenLoop_at hat htoken hfit hsmall, hstep]
  rfl

/-- Where a state stands: the open nodes, and the cursor on a word. -/
structure Stands (fdt : Blob) (out : ZealPi4Pcie) (path : List NodeData) (c : ℕ) (s : Scan) :
    Prop where
  tracks : Tracks fdt out path s
  cursor : s.cursor = c
  aligned : c % 4 = 0

variable {path : List NodeData} {c : ℕ}

/-- A token that nothing depends on. -/
theorem Stands.moved (h : Stands fdt out path c s) :
    Tracks fdt out path { s with cursor := s.cursor + 4 } :=
  ⟨h.tracks.depth, h.tracks.depth_le, h.tracks.stack, h.tracks.clear⟩

end ZealBringup.Fdt
