import Mathlib.Data.Int.Notation
import Mathlib.Data.List.Basic
import Mathlib.Tactic.Common

/-!
# The bytes of a document

`zc/doc_bytes.h`: a document is text, a NUL and a tail of binary records. The pinned documents
have their tail in UTF-8, the native ones have it in packed bytes.

`doc_bytes_normalize` undoes the encoding of a native tail in UTF-8 by way of code page 437.

* `docBinaryValid` — a tail of whole records.
* `docDecode` — the decoder of a tail.
* `docBytesNormalize` — the function, with its status and its buffer.
* `encodedTail` — the UTF-8 of the code page 437 reading of a tail.
* `docDecode_encodedTail` — the decoder takes the encoding back.
* `doc_bytes_normalize_correct` — native documents stay as they are, encoded ones are recovered
  unless their encoding is itself a native document.
-/

namespace ZealBringup.Doc

/-! ## Code page 437 -/

/-- The code points of the bytes from 128 on. -/
def docCp437High : List ℕ :=
  [0x00c7, 0x00fc, 0x00e9, 0x00e2, 0x00e4, 0x00e0, 0x00e5, 0x00e7,
   0x00ea, 0x00eb, 0x00e8, 0x00ef, 0x00ee, 0x00ec, 0x00c4, 0x00c5,
   0x00c9, 0x00e6, 0x00c6, 0x00f4, 0x00f6, 0x00f2, 0x00fb, 0x00f9,
   0x00ff, 0x00d6, 0x00dc, 0x00a2, 0x00a3, 0x00a5, 0x20a7, 0x0192,
   0x00e1, 0x00ed, 0x00f3, 0x00fa, 0x00f1, 0x00d1, 0x00aa, 0x00ba,
   0x00bf, 0x2310, 0x00ac, 0x00bd, 0x00bc, 0x00a1, 0x00ab, 0x00bb,
   0x2591, 0x2592, 0x2593, 0x2502, 0x2524, 0x2561, 0x2562, 0x2556,
   0x2555, 0x2563, 0x2551, 0x2557, 0x255d, 0x255c, 0x255b, 0x2510,
   0x2514, 0x2534, 0x252c, 0x251c, 0x2500, 0x253c, 0x255e, 0x255f,
   0x255a, 0x2554, 0x2569, 0x2566, 0x2560, 0x2550, 0x256c, 0x2567,
   0x2568, 0x2564, 0x2565, 0x2559, 0x2558, 0x2552, 0x2553, 0x256b,
   0x256a, 0x2518, 0x250c, 0x2588, 0x2584, 0x258c, 0x2590, 0x2580,
   0x03b1, 0x00df, 0x0393, 0x03c0, 0x03a3, 0x03c3, 0x00b5, 0x03c4,
   0x03a6, 0x0398, 0x03a9, 0x03b4, 0x221e, 0x03c6, 0x03b5, 0x2229,
   0x2261, 0x00b1, 0x2265, 0x2264, 0x2320, 0x2321, 0x00f7, 0x2248,
   0x00b0, 0x2219, 0x00b7, 0x221a, 0x207f, 0x00b2, 0x25a0, 0x00a0]

/-! ## Records -/

/-- Four bytes, the low one first. -/
def docU32 (p : List UInt8) : ℕ :=
  (p.getD 0 0).toNat ||| (p.getD 1 0).toNat <<< 8 ||| (p.getD 2 0).toNat <<< 16 |||
    (p.getD 3 0).toNat <<< 24

/-- Records of sixteen bytes and a payload, up to the end. -/
def docBinaryValid (data : List UInt8) : Bool :=
  if data.length = 0 then true
  else if h : data.length < 16 then false
  else
    let bytes := docU32 (data.drop 8)
    if bytes > data.length - 16 then false else docBinaryValid (data.drop (16 + bytes))
termination_by data.length
decreasing_by
  rw [List.length_drop]
  omega

/-! ## Decoder -/

/-- The bits of the first byte of a character and how many bytes follow it. -/
def docLead (cp : ℕ) : Option (ℕ × ℕ) :=
  if cp ≥ 0xc2 ∧ cp ≤ 0xdf then some (cp &&& 0x1f, 1)
  else if cp ≥ 0xe0 ∧ cp ≤ 0xef then some (cp &&& 15, 2)
  else none

/-- The bytes that follow. -/
def docContinue : ℕ → ℕ → List UInt8 → Option (ℕ × List UInt8)
  | 0, cp, data => some (cp, data)
  | _ + 1, _, [] => none
  | count + 1, cp, b :: data =>
      if b &&& 0xc0 ≠ 0x80 then none
      else docContinue count (cp <<< 6 ||| (b.toNat &&& 63)) data

/-- The byte of a code point, of a character of `width + 1` bytes. -/
def docByte (width cp : ℕ) : Option UInt8 :=
  if (width = 2 ∧ cp < 0x800) ∨ (cp ≥ 0xd800 ∧ cp ≤ 0xdfff) then none
  else
    let byte := docCp437High.idxOf cp
    if byte = 128 then none else some (UInt8.ofNat (byte + 128))

/-- One round of the decoder: a byte of the copy and the data behind the character. -/
def docSymbol (b : UInt8) (data : List UInt8) : Option (UInt8 × List UInt8) :=
  if b < 128 then some (b, data)
  else do
    let (cp, count) ← docLead b.toNat
    let (cp, data) ← docContinue count cp data
    let byte ← docByte count cp
    return (byte, data)

theorem docContinue_length {count cp cp' : ℕ} {data data' : List UInt8}
    (h : docContinue count cp data = some (cp', data')) : data'.length ≤ data.length := by
  induction count generalizing cp data with
  | zero =>
    obtain ⟨-, rfl⟩ := Prod.mk.inj (Option.some.inj h)
    exact Nat.le_refl _
  | succ count ih =>
    cases data with
    | nil => cases h
    | cons b data =>
      rw [docContinue] at h
      split at h
      · cases h
      · exact Nat.le_succ_of_le (ih h)

theorem docSymbol_length {b byte : UInt8} {data rest : List UInt8}
    (h : docSymbol b data = some (byte, rest)) : rest.length ≤ data.length := by
  rw [docSymbol] at h
  split at h
  · obtain ⟨-, rfl⟩ := Prod.mk.inj (Option.some.inj h)
    exact Nat.le_refl _
  · simp only [Option.bind_eq_bind, Option.bind_eq_some_iff, Option.pure_def, Option.some.injEq,
      Prod.mk.injEq, Prod.exists] at h
    obtain ⟨cp, count, -, cp', data', hcontinue, byte', -, -, rfl⟩ := h
    exact docContinue_length hcontinue

/-- The copy of a tail. -/
def docDecode : List UInt8 → Option (List UInt8)
  | [] => some []
  | b :: data =>
      match _h : docSymbol b data with
      | none => none
      | some (byte, rest) => (docDecode rest).map (byte :: ·)
termination_by data => data.length
decreasing_by exact Nat.lt_succ_of_le (docSymbol_length _h)

/-! ## The function -/

/-- The status, the owned buffer without its closing NUL, and `*result_size`. -/
structure Normalized where
  status : ℤ
  owned : Option (List UInt8)
  resultSize : ℕ
  deriving DecidableEq

/-- `doc_bytes_normalize`; `room` is whether `malloc` has a buffer for the copy. -/
def docBytesNormalize (room : Bool) (data : List UInt8) : Normalized :=
  let native : Normalized := ⟨0, none, data.length⟩
  let invalid : Normalized := ⟨-1, none, data.length⟩
  if data.length = 0 then native
  else
    let nul := data.idxOf 0
    if nul = data.length then native
    else if docBinaryValid (data.drop (nul + 1)) = true then native
    else if room = false then invalid
    else
      match docDecode (data.drop (nul + 1)) with
      | none => invalid
      | some tail =>
          if docBinaryValid tail = false then invalid
          else ⟨1, some (data.take (nul + 1) ++ tail), nul + 1 + tail.length⟩

/-- The bytes that a caller goes on with: the owned buffer, or its own data. -/
def Normalized.output (r : Normalized) (data : List UInt8) : List UInt8 := r.owned.getD data

/-! ## The encoding -/

/-- The code page 437 reading of a byte. -/
def cp437 (b : UInt8) : Char :=
  if b < 128 then Char.ofNat b.toNat else Char.ofNat (docCp437High.getD (b.toNat - 128) 0)

/-- The UTF-8 of the code page 437 reading of a tail. -/
def encodedTail (tail : List UInt8) : List UInt8 :=
  tail.flatMap fun b => String.utf8EncodeChar (cp437 b)

/-- A document of a text and a tail. -/
def document (text tail : List UInt8) : List UInt8 := text ++ 0 :: tail

variable {text tail data rest u : List UInt8} {b byte : UInt8}

/-! ## The decoder takes the encoding back -/

theorem docContinue_append {count cp cp' : ℕ} (h : docContinue count cp data = some (cp', rest))
    (u : List UInt8) : docContinue count cp (data ++ u) = some (cp', rest ++ u) := by
  induction count generalizing cp data with
  | zero =>
    obtain ⟨rfl, rfl⟩ := Prod.mk.inj (Option.some.inj h)
    rfl
  | succ count ih =>
    cases data with
    | nil => cases h
    | cons b data =>
      rw [docContinue] at h
      rw [List.cons_append, docContinue]
      split at h
      · cases h
      · next hb =>
        rw [if_neg hb]
        exact ih h

theorem docSymbol_append (h : docSymbol b data = some (byte, rest)) (u : List UInt8) :
    docSymbol b (data ++ u) = some (byte, rest ++ u) := by
  rw [docSymbol] at h ⊢
  split at h
  · next hb =>
    obtain ⟨rfl, rfl⟩ := Prod.mk.inj (Option.some.inj h)
    rw [if_pos hb]
  · next hb =>
    simp only [Option.bind_eq_bind, Option.bind_eq_some_iff, Option.pure_def, Option.some.injEq,
      Prod.mk.injEq, Prod.exists] at h
    obtain ⟨cp, count, hlead, cp', data', hcontinue, byte', hbyte, rfl, rfl⟩ := h
    simp [hb, hlead, docContinue_append hcontinue u, hbyte]

theorem docSymbol_ofNat : ∀ n < 256,
    ((String.utf8EncodeChar (cp437 (UInt8.ofNat n))).head?.bind fun b =>
      docSymbol b (String.utf8EncodeChar (cp437 (UInt8.ofNat n))).tail) =
        some (UInt8.ofNat n, []) := by
  decide +kernel

/-- One character of the encoding. -/
theorem docSymbol_encoded (byte : UInt8) :
    ∃ b data, String.utf8EncodeChar (cp437 byte) = b :: data ∧
      docSymbol b data = some (byte, []) := by
  have h := docSymbol_ofNat byte.toNat byte.toNat_lt
  rw [UInt8.ofNat_toNat] at h
  cases hencoded : String.utf8EncodeChar (cp437 byte) with
  | nil =>
    rw [hencoded] at h
    cases h
  | cons b data =>
    rw [hencoded] at h
    exact ⟨b, data, rfl, h⟩

theorem docDecode_encodedTail (tail : List UInt8) : docDecode (encodedTail tail) = some tail := by
  induction tail with
  | nil => rw [encodedTail, List.flatMap_nil, docDecode]
  | cons byte tail ih =>
    obtain ⟨b, data, hencoded, hsymbol⟩ := docSymbol_encoded byte
    have happend := docSymbol_append hsymbol (encodedTail tail)
    rw [encodedTail, List.flatMap_cons, hencoded, List.cons_append, docDecode]
    rw [encodedTail] at happend ih
    split
    · next hnone =>
      rw [happend] at hnone
      cases hnone
    · next byte' rest hsome =>
      rw [happend] at hsome
      obtain ⟨rfl, rfl⟩ := Prod.mk.inj (Option.some.inj hsome)
      rw [List.nil_append, ih, Option.map_some]

/-! ## The function on a document -/

theorem idxOf_document (htext : 0 ∉ text) (tail : List UInt8) :
    (document text tail).idxOf 0 = text.length := by
  rw [document, List.idxOf_append_of_notMem htext, List.idxOf_cons_self, Nat.add_zero]

theorem drop_document (text tail : List UInt8) :
    (document text tail).drop (text.length + 1) = tail := by
  rw [document, List.append_cons, List.drop_left' (by simp)]

theorem take_document (text tail : List UInt8) :
    (document text tail).take (text.length + 1) = text ++ [0] := by
  rw [document, List.append_cons, List.take_left' (by simp)]

theorem document_length (text tail : List UInt8) :
    (document text tail).length = text.length + 1 + tail.length := by
  rw [document, List.length_append, List.length_cons]
  omega

/-- Data without a NUL, or a document. -/
theorem no_nul_or_document (data : List UInt8) :
    0 ∉ data ∨ ∃ text tail, 0 ∉ text ∧ data = document text tail := by
  by_cases h : 0 ∈ data
  · obtain ⟨text, tail, hdata, htext⟩ := List.eq_append_cons_of_mem h
    exact .inr ⟨text, tail, htext, hdata⟩
  · exact .inl h

theorem docBytesNormalize_of_no_nul (room : Bool) (h : 0 ∉ data) :
    docBytesNormalize room data = ⟨0, none, data.length⟩ := by
  rw [docBytesNormalize, List.idxOf_eq_length h, if_pos rfl, ite_self]

/-- On a document only the tail decides. -/
theorem docBytesNormalize_document (room : Bool) (htext : 0 ∉ text) (tail : List UInt8) :
    docBytesNormalize room (document text tail) =
      if docBinaryValid tail = true then ⟨0, none, (document text tail).length⟩
      else if room = false then ⟨-1, none, (document text tail).length⟩
      else
        match docDecode tail with
        | none => ⟨-1, none, (document text tail).length⟩
        | some copy =>
            if docBinaryValid copy = false then ⟨-1, none, (document text tail).length⟩
            else ⟨1, some (document text copy), (document text copy).length⟩ := by
  have hlength := document_length text tail
  have hempty : ¬(document text tail).length = 0 := by omega
  have hnul : ¬text.length = (document text tail).length := by omega
  rw [docBytesNormalize]
  dsimp only
  rw [if_neg hempty, idxOf_document htext, if_neg hnul, drop_document, take_document]
  cases docDecode tail with
  | none => rfl
  | some copy =>
    dsimp only
    rw [document_length text copy, document, document, ← List.append_cons]

/-- A native document stays as it is. -/
theorem docBytesNormalize_native (room : Bool) (htext : 0 ∉ text)
    (hvalid : docBinaryValid tail = true) :
    docBytesNormalize room (document text tail) = ⟨0, none, (document text tail).length⟩ := by
  rw [docBytesNormalize_document room htext, if_pos hvalid]

/-- An encoded document whose tail does not look native is decoded. -/
theorem docBytesNormalize_encoded (htext : 0 ∉ text) (hvalid : docBinaryValid tail = true)
    (hencoded : docBinaryValid (encodedTail tail) = false) :
    docBytesNormalize true (document text (encodedTail tail)) =
      ⟨1, some (document text tail), (document text tail).length⟩ := by
  rw [docBytesNormalize_document true htext, hencoded, if_neg Bool.false_ne_true,
    if_neg (by decide), docDecode_encodedTail]
  dsimp only
  rw [hvalid, if_neg (by decide)]

/-- A decoded document has the text of its source and whole records. -/
theorem docBytesNormalize_decoded {room : Bool} (h : (docBytesNormalize room data).status = 1) :
    ∃ text tail copy, 0 ∉ text ∧ data = document text tail ∧ docBinaryValid copy = true ∧
      docBytesNormalize room data = ⟨1, some (document text copy), (document text copy).length⟩ := by
  rcases no_nul_or_document data with hnul | ⟨text, tail, htext, rfl⟩
  · rw [docBytesNormalize_of_no_nul room hnul] at h
    cases h
  have hdocument := docBytesNormalize_document room htext tail
  rw [hdocument] at h ⊢
  split at h
  · cases h
  · next hvalid =>
    rw [if_neg hvalid]
    split at h
    · cases h
    · next hroom =>
      rw [if_neg hroom]
      cases hdecode : docDecode tail with
      | none =>
        rw [hdecode] at h
        cases h
      | some copy =>
        rw [hdecode] at h
        dsimp only at h ⊢
        split at h
        · cases h
        · next hcopy =>
          rw [if_neg hcopy]
          exact ⟨text, tail, copy, htext, rfl, by simpa using hcopy, rfl⟩

/-- **Recovery**: a native document stays as it is; its encoding gives it back, unless the encoded
tail is whole records itself and so stays as it is; and what is decoded has an unchanged text and
whole records. -/
theorem doc_bytes_normalize_correct :
    (∀ room text tail, 0 ∉ text → docBinaryValid tail = true →
      docBytesNormalize room (document text tail) = ⟨0, none, (document text tail).length⟩) ∧
    (∀ text tail, 0 ∉ text → docBinaryValid tail = true →
      docBytesNormalize true (document text (encodedTail tail)) =
        if docBinaryValid (encodedTail tail) = true then
          ⟨0, none, (document text (encodedTail tail)).length⟩
        else ⟨1, some (document text tail), (document text tail).length⟩) ∧
    ∀ room data, (docBytesNormalize room data).status = 1 →
      ∃ text tail copy, 0 ∉ text ∧ data = document text tail ∧ docBinaryValid copy = true ∧
        docBytesNormalize room data =
          ⟨1, some (document text copy), (document text copy).length⟩ := by
  refine ⟨fun room text tail htext hvalid => docBytesNormalize_native room htext hvalid, ?_,
    fun room data h => docBytesNormalize_decoded h⟩
  intro text tail htext hvalid
  by_cases hencoded : docBinaryValid (encodedTail tail) = true
  · rw [if_pos hencoded]
    exact docBytesNormalize_native true htext hencoded
  · rw [if_neg hencoded]
    exact docBytesNormalize_encoded htext hvalid (by simpa using hencoded)

/-- A record with one byte behind the text `a`. -/
theorem doc_bytes_normalize_correct_record :
    docBytesNormalize true (document [97] (encodedTail
        [1, 0, 0, 0, 0, 0, 0, 0, 1, 0, 0, 0, 2, 0, 0, 0, 255])) =
      ⟨1, some (document [97] [1, 0, 0, 0, 0, 0, 0, 0, 1, 0, 0, 0, 2, 0, 0, 0, 255]), 19⟩ := by
  have hencoded : encodedTail [1, 0, 0, 0, 0, 0, 0, 0, 1, 0, 0, 0, 2, 0, 0, 0, 255] =
      [1, 0, 0, 0, 0, 0, 0, 0, 1, 0, 0, 0, 2, 0, 0, 0, 194, 160] := by decide +kernel
  have hvalid : docBinaryValid [1, 0, 0, 0, 0, 0, 0, 0, 1, 0, 0, 0, 2, 0, 0, 0, 255] = true := by
    simp [docBinaryValid, docU32]
  have hinvalid : docBinaryValid (encodedTail
      [1, 0, 0, 0, 0, 0, 0, 0, 1, 0, 0, 0, 2, 0, 0, 0, 255]) = false := by
    simp [hencoded, docBinaryValid, docU32]
  have hcorrect := doc_bytes_normalize_correct.2.1 [97] _ (by decide) hvalid
  rw [hinvalid, if_neg Bool.false_ne_true] at hcorrect
  exact hcorrect

/-- The record 128 of type 16777216 and size 0. Its encoding is a record of size 1. -/
def ambiguousTail : List UInt8 := [128, 0, 0, 0, 0, 0, 0, 1, 0, 0, 0, 0, 0, 0, 0, 0]

/-- **An encoded tail that looks native** is not decoded. -/
theorem doc_bytes_normalize_ambiguous :
    ¬∀ text tail, 0 ∉ text → docBinaryValid tail = true →
      (docBytesNormalize true (document text (encodedTail tail))).output
        (document text (encodedTail tail)) = document text tail := by
  intro hall
  have hencoded : encodedTail ambiguousTail =
      [195, 135, 0, 0, 0, 0, 0, 0, 1, 0, 0, 0, 0, 0, 0, 0, 0] := by decide +kernel
  have hvalid : docBinaryValid ambiguousTail = true := by
    simp [ambiguousTail, docBinaryValid, docU32]
  have hnative : docBinaryValid (encodedTail ambiguousTail) = true := by
    simp [hencoded, docBinaryValid, docU32]
  have hsame := hall [] ambiguousTail List.not_mem_nil hvalid
  rw [docBytesNormalize_native true List.not_mem_nil hnative, hencoded] at hsame
  exact absurd hsame (by decide)

end ZealBringup.Doc
