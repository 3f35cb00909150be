import ZealBringup.Fdt.Tokens

/-!
# The parser stays inside the blob

Over arbitrary bytes: the parser returns, and reads nothing that it has not checked.

* `tokenStep_safe` — one token, whatever it is.
* `tokenLoop_safe` — the loop, from its bound on the rounds.
* `find_pcie_in_bounds` — the parser on any blob.
-/

namespace ZealBringup.Fdt

variable {fdt : Blob} {b : Blocks} {out : ZealPi4Pcie} {s : Scan}

/-- The blocks that the parser has checked, and that it may read. -/
structure Fits (fdt : Blob) (b : Blocks) : Prop where
  structBlock : Readable fdt b.offStruct (b.offStruct + b.sizeStruct)
  stringBlock : Readable fdt b.offStrings (b.offStrings + b.sizeStrings)
  small : b.sizeStruct < 2 ^ 32 - 8

/-- What every round keeps: the stack is that of some open nodes, and the cursor is at most behind
the padding at the end of the block. -/
def Safe (fdt : Blob) (b : Blocks) (out : ZealPi4Pcie) (s : Scan) : Prop :=
  (∃ path, Tracks fdt out path s) ∧ s.cursor ≤ b.sizeStruct + 3

theorem beginNode_safe (hb : Fits fdt b) (h : Safe fdt b out s) (hcursor : s.cursor ≤ b.sizeStruct) :
    ∃ r, beginNode fdt b s = .ok r ∧
      ∀ s', r = .ok s' → Safe fdt b out s' ∧ s.cursor ≤ s'.cursor := by
  obtain ⟨⟨path, htracks⟩, -⟩ := h
  have hsmall := hb.small
  by_cases hdepth : path.length < 16
  · have hread : Readable fdt (b.offStruct + s.cursor)
        (b.offStruct + s.cursor + (b.sizeStruct - s.cursor)) :=
      hb.structBlock.mono (by omega) (by omega)
    obtain ⟨bytes, hlen, hat⟩ := hread.exists_at
    have hscan : ∃ nameEnd, scanEnd fdt b.offStruct s.cursor (b.sizeStruct - s.cursor) = .ok nameEnd ∧
        s.cursor ≤ nameEnd ∧ nameEnd ≤ b.sizeStruct := by
      rw [← hlen]
      rcases scanEnd_at hat with ⟨-, hscan⟩ | ⟨name, rest, hname, -, hscan⟩
      · exact ⟨_, hscan, by omega, by omega⟩
      · have hsum := congrArg List.length hname
        rw [List.length_append, hlen] at hsum
        exact ⟨_, hscan, by omega, by omega⟩
    obtain ⟨nameEnd, hscan, hlo, hhi⟩ := hscan
    by_cases hend : nameEnd < b.sizeStruct
    · obtain ⟨s', hstep, hcur, htracks', -⟩ := beginNode_tracks htracks hdepth hscan hend
      have hnext : u32 (nameEnd + 4) = nameEnd + 4 := Nat.mod_eq_of_lt (by omega)
      refine ⟨_, hstep, fun s'' heq => ?_⟩
      obtain rfl := Except.ok.inj heq
      rw [hnext] at hcur
      exact ⟨⟨⟨_, htracks'⟩, by omega⟩, by omega⟩
    · have hmax : pi4FdtMaxDepth = 16 := rfl
      refine ⟨.error (-4), ?_, fun s' heq => by cases heq⟩
      rw [beginNode, if_neg (by rw [htracks.depth]; omega), hscan, ok_bind, if_pos (by omega)]
      rfl
  · have hmax : pi4FdtMaxDepth = 16 := rfl
    refine ⟨.error (-3), ?_, fun s' heq => by cases heq⟩
    rw [beginNode, if_pos (by rw [htracks.depth]; omega)]
    rfl

theorem endNode_safe (h : Safe fdt b out s) :
    ∃ r, endNode fdt s = .ok r ∧
      ∀ s', r = .ok s' → Safe fdt b out s' ∧ s.cursor ≤ s'.cursor := by
  obtain ⟨⟨path, htracks⟩, hcursor⟩ := h
  cases path with
  | nil =>
    refine ⟨.error (-5), ?_, fun s' heq => by cases heq⟩
    have hdepth : s.depth = 0 := htracks.depth
    rw [endNode, if_pos hdepth]
    rfl
  | cons d buses =>
    obtain ⟨s', hstep, hcur, htracks', -⟩ := endNode_tracks htracks
    refine ⟨_, hstep, fun s'' heq => ?_⟩
    obtain rfl := Except.ok.inj heq
    exact ⟨⟨⟨_, htracks'⟩, by omega⟩, by omega⟩

theorem property_safe (hb : Fits fdt b) (h : Safe fdt b out s) (hcursor : s.cursor ≤ b.sizeStruct) :
    ∃ r, property fdt b s = .ok r ∧
      ∀ s', r = .ok s' → Safe fdt b out s' ∧ s.cursor ≤ s'.cursor := by
  obtain ⟨⟨path, htracks⟩, -⟩ := h
  have hsmall := hb.small
  have hu32 : u32 (s.cursor + 8) = s.cursor + 8 := Nat.mod_eq_of_lt (by omega)
  cases path with
  | nil =>
    refine ⟨.error (-6), ?_, fun s' heq => by cases heq⟩
    have hdepth : s.depth = 0 := htracks.depth
    rw [property, if_pos (.inl hdepth)]
    rfl
  | cons d buses =>
    by_cases hhead : s.cursor + 8 ≤ b.sizeStruct
    · have hread : Readable fdt (b.offStruct + s.cursor)
          (b.offStruct + s.cursor + (b.sizeStruct - s.cursor)) :=
        hb.structBlock.mono (by omega) (by omega)
      obtain ⟨bytes, hlen, hat⟩ := hread.exists_at
      have hsplit : bytes = bytes.take 4 ++ (bytes.drop 4).take 4 ++ bytes.drop 8 := by
        rw [← List.take_add, List.take_append_drop]
      have hlen4 : (bytes.take 4).length = 4 := by
        rw [List.length_take]
        omega
      have hoff4 : ((bytes.drop 4).take 4).length = 4 := by
        rw [List.length_take, List.length_drop]
        omega
      have hrest : (bytes.drop 8).length = b.sizeStruct - (s.cursor + 8) := by
        rw [List.length_drop]
        omega
      generalize bytes.take 4 = len at *
      generalize (bytes.drop 4).take 4 = off at *
      generalize bytes.drop 8 = rest at *
      subst hsplit
      by_cases hgood : beNat len ≤ b.sizeStruct - (s.cursor + 8) ∧ beNat off < b.sizeStrings
      · obtain ⟨hfit, hname⟩ := hgood
        obtain ⟨strings, hstrings, hstringsAt⟩ := hb.stringBlock.exists_at
        have hvalue : (rest.take (beNat len)).length = beNat len := by
          rw [List.length_take]
          omega
        have hbytes : At fdt (b.offStruct + s.cursor) (len ++ off ++ rest.take (beNat len)) := by
          refine hat.left.append ?_
          exact hat.right.take _
        have hstep := property_tracks htracks hstringsAt hstrings hbytes hlen4 hoff4 hvalue hname
          (by omega) (by omega)
        cases hd : d.setProperty (namedBy strings (beNat off)) (rest.take (beNat len)) with
        | error code =>
          rw [hd] at hstep
          exact ⟨_, hstep, fun s' heq => by cases heq⟩
        | ok d' =>
          rw [hd] at hstep
          obtain ⟨s', hstep, hcur, htracks', -⟩ := hstep
          refine ⟨_, hstep, fun s'' heq => ?_⟩
          obtain rfl := Except.ok.inj heq
          exact ⟨⟨⟨_, htracks'⟩, by omega⟩, by omega⟩
      · have hdepth : s.depth = buses.length + 1 := htracks.depth
        have hoffAt := pi4FdtBe32_at hat.left.right hoff4
        rw [hlen4] at hoffAt
        refine ⟨.error (-7), ?_, fun s' heq => by cases heq⟩
        rw [property, if_neg (by omega), pi4FdtBe32_at hat.left.left hlen4, ok_bind, hoffAt, ok_bind]
        dsimp only
        rw [hu32, if_pos (by omega)]
        rfl
    · have hdepth : s.depth = buses.length + 1 := htracks.depth
      refine ⟨.error (-6), ?_, fun s' heq => by cases heq⟩
      rw [property, if_pos (.inr (by omega))]
      rfl

/-- **One token.** Whatever it is, nothing is read outside the blocks, and the cursor does not go
back. -/
theorem tokenStep_safe (hb : Fits fdt b) (h : Safe fdt b out s) (hcursor : s.cursor ≤ b.sizeStruct)
    (token : ℕ) :
    ∃ r, tokenStep fdt b token s = .ok r ∧
      ∀ s', r = .ok s' → Safe fdt b out s' ∧ s.cursor ≤ s'.cursor := by
  unfold tokenStep
  split_ifs
  · exact beginNode_safe hb h hcursor
  · exact endNode_safe h
  · exact property_safe hb h hcursor
  · refine ⟨_, rfl, fun s' heq => ?_⟩
    obtain rfl := Except.ok.inj heq
    exact ⟨h, le_rfl⟩
  all_goals
    exact ⟨_, rfl, fun s' heq => by cases heq⟩

/-- **The loop ends**, within the rounds it is given, and without a fault. -/
theorem tokenLoop_safe (hb : Fits fdt b) {rounds : ℕ} (h : Safe fdt b out s)
    (hrounds : b.sizeStruct + 4 ≤ s.cursor + 4 * rounds) :
    ∃ result, tokenLoop fdt b rounds s = .ok result := by
  induction rounds generalizing s with
  | zero =>
    have hcursor := h.2
    omega
  | succ rounds ih =>
    have hsmall := hb.small
    have hcursor := h.2
    have hu32 : u32 (s.cursor + 4) = s.cursor + 4 := Nat.mod_eq_of_lt (by omega)
    rw [tokenLoop, hu32]
    by_cases hlt : s.cursor + 4 ≤ b.sizeStruct
    · have hread : Readable fdt (b.offStruct + s.cursor) (b.offStruct + s.cursor + 4) :=
        hb.structBlock.mono (by omega) (by omega)
      obtain ⟨bytes, hlen, hat⟩ := hread.exists_at
      have hnext : Safe fdt b out { s with cursor := s.cursor + 4 } := by
        obtain ⟨⟨path, htracks⟩, -⟩ := h
        exact ⟨⟨path, htracks.depth, htracks.depth_le, htracks.stack, htracks.clear⟩, by
          dsimp only
          omega⟩
      obtain ⟨r, hstep, hsafe⟩ := tokenStep_safe hb hnext hlt (beNat bytes)
      rw [if_pos hlt, pi4FdtBe32_at hat hlen, ok_bind]
      dsimp only
      rw [hstep, ok_bind]
      cases r with
      | error code => exact ⟨_, rfl⟩
      | ok s' =>
        obtain ⟨hsafe', hle⟩ := hsafe s' rfl
        dsimp only at hle
        exact ih hsafe' (by omega)
    · rw [if_neg hlt]
      exact ⟨_, rfl⟩

/-! ## The blob -/

/-- The bytes of a blob below `limit`, and no others. -/
def bytesBelow (blob : ℕ → UInt8) (limit : ℕ) : Blob := fun i =>
  if i < limit then some (blob i) else none

theorem readable_bytesBelow {blob : ℕ → UInt8} {limit lo hi : ℕ} (h : hi ≤ limit) :
    Readable (bytesBelow blob limit) lo hi := fun i _ hi' => by
  rw [bytesBelow, if_pos (by omega)]
  rfl

/-- A word of the blob. -/
def wordAt (blob : ℕ → UInt8) (p : ℕ) : ℕ := beNat [blob p, blob (p + 1), blob (p + 2), blob (p + 3)]

theorem pi4FdtBe32_below {blob : ℕ → UInt8} {limit p : ℕ} (h : p + 4 ≤ limit) :
    pi4FdtBe32 (bytesBelow blob limit) p = .ok (wordAt blob p) := by
  refine pi4FdtBe32_at (fun i hi => ?_) rfl
  have hi4 : i < 4 := hi
  rw [bytesBelow, if_pos (by omega)]
  obtain rfl | rfl | rfl | rfl : i = 0 ∨ i = 1 ∨ i = 2 ∨ i = 3 := by omega
  all_goals rfl

/-- The header is accepted: the magic number, and a total size between the header and what is
available. -/
def HeaderOk (blob : ℕ → UInt8) (available : ℕ) : Prop :=
  wordAt blob 0 = 0xd00dfeed ∧ 40 ≤ wordAt blob 4 ∧ wordAt blob 4 ≤ available

instance (blob : ℕ → UInt8) (available : ℕ) : Decidable (HeaderOk blob available) :=
  inferInstanceAs (Decidable (_ ∧ _ ∧ _))

/-- How far the parser may read: nothing of a blob shorter than a header, the header alone unless it
is accepted, and then the total size it states. -/
def readLimit (blob : ℕ → UInt8) (available : ℕ) : ℕ :=
  if available < 40 then 0 else if HeaderOk blob available then wordAt blob 4 else 40

/-- **The parser is total and in bounds.** On any blob with less than 4 GiB - 8 bytes available it
returns, although only the bytes below the limit can be read: never a fault of reading, of the node
stack or of the depth. -/
theorem find_pcie_in_bounds (blob : ℕ → UInt8) (available : ℕ) (h : available < 2 ^ 32 - 8)
    (stack : Stack) (out : ZealPi4Pcie) :
    readLimit blob available ≤ available ∧
      ∃ result, pi4FdtFindPcie (bytesBelow blob (readLimit blob available)) available stack out =
        .ok result := by
  have hword : ∀ limit p, 40 ≤ limit → p + 4 ≤ 40 →
      pi4FdtBe32 (bytesBelow blob limit) p = .ok (wordAt blob p) :=
    fun limit p hlimit hp => pi4FdtBe32_below (by omega)
  by_cases hshort : available < 40
  · rw [readLimit, if_pos hshort, pi4FdtFindPcie, if_pos hshort]
    exact ⟨Nat.zero_le _, _, rfl⟩
  rw [readLimit, if_neg hshort]
  by_cases hheader : HeaderOk blob available
  · obtain ⟨hmagic, htotal, hfits⟩ := hheader
    rw [if_pos ⟨hmagic, htotal, hfits⟩]
    refine ⟨hfits, ?_⟩
    rw [pi4FdtFindPcie, if_neg hshort, hword _ 0 htotal (by omega), ok_bind,
      if_neg (not_not.2 hmagic), hword _ 4 htotal (by omega), ok_bind, hword _ 8 htotal (by omega),
      ok_bind, hword _ 12 htotal (by omega), ok_bind, hword _ 32 htotal (by omega), ok_bind,
      hword _ 36 htotal (by omega), ok_bind]
    generalize wordAt blob 8 = offStruct
    generalize wordAt blob 12 = offStrings
    generalize wordAt blob 32 = sizeStrings
    generalize wordAt blob 36 = sizeStruct
    by_cases hspans : pi4FdtSpan offStruct sizeStruct (wordAt blob 4) = true ∧
        pi4FdtSpan offStrings sizeStrings (wordAt blob 4) = true
    · obtain ⟨hstruct, hstrings⟩ := hspans
      rw [hstruct, hstrings, if_neg (by simp; omega)]
      simp only [pi4FdtSpan, decide_eq_true_eq] at hstruct hstrings
      refine @tokenLoop_safe _ _ out _ ⟨?_, ?_, by dsimp only; omega⟩ _ ?_ (by dsimp only; omega)
      · exact readable_bytesBelow (by dsimp only; omega)
      · exact readable_bytesBelow (by dsimp only; omega)
      · exact ⟨⟨[], rfl, by simp, trivial, fun _ => rfl⟩, Nat.zero_le _⟩
    · rw [if_pos]
      · exact ⟨_, rfl⟩
      · by_cases hstruct : pi4FdtSpan offStruct sizeStruct (wordAt blob 4) = true
        · exact .inr (.inr (.inr (Bool.eq_false_of_not_eq_true fun hs => hspans ⟨hstruct, hs⟩)))
        · exact .inr (.inr (.inl (Bool.eq_false_of_not_eq_true hstruct)))
  · rw [if_neg hheader]
    refine ⟨by omega, ?_⟩
    rw [pi4FdtFindPcie, if_neg hshort, hword _ 0 le_rfl (by omega), ok_bind]
    by_cases hmagic : wordAt blob 0 = 0xd00dfeed
    · rw [if_neg (not_not.2 hmagic), hword _ 4 le_rfl (by omega), ok_bind,
        hword _ 8 le_rfl (by omega), ok_bind, hword _ 12 le_rfl (by omega), ok_bind,
        hword _ 32 le_rfl (by omega), ok_bind, hword _ 36 le_rfl (by omega), ok_bind, if_pos]
      · exact ⟨_, rfl⟩
      · by_contra hbad
        obtain ⟨h40, hrest⟩ := not_or.1 hbad
        exact hheader ⟨hmagic, not_lt.1 h40, not_lt.1 (not_or.1 hrest).1⟩
    · rw [if_pos hmagic]
      exact ⟨_, rfl⟩

/-- A header alone, of a tree without blocks. -/
def emptyBlob : ℕ → UInt8 := fun i => [0xd0, 0x0d, 0xfe, 0xed, 0, 0, 0, 40].getD i 0

/-- Forty bytes, all of them readable. -/
theorem find_pcie_in_bounds_empty :
    readLimit emptyBlob 40 ≤ 40 ∧
      ∃ result, pi4FdtFindPcie (bytesBelow emptyBlob (readLimit emptyBlob 40)) 40
        (fun _ => freshNode) ⟨0, 0, 0, 0, 0, 0, 0, 0, 0, 0⟩ = .ok result :=
  find_pcie_in_bounds emptyBlob 40 (by omega) _ _

end ZealBringup.Fdt
