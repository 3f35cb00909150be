import ZealBringup.Store.Stream

/-!
# The serial upload

`send-zc.py` prints a command and one line of hex digits for every 128 bytes of a file;
`zrecv_serial` takes the command and the lines and stores the file.

A read of the serial line is the next element of a list: a byte, or `none` when the deadline
passed first.  Behind the list nothing arrives.
-/

set_option maxRecDepth 10000

namespace ZealBringup.Serial

open Store

/-! ## The sender -/

/-- `valid_name` of `send-zc.py`; `none` is its `ValueError` or a name that is not ASCII. -/
def validName (name : PyStr) : Option (List UInt8) :=
  match encodeAscii name with
  | none => none
  | some raw =>
      let parts := name.splitOn 47
      if raw = [] ∨ raw.length > 95 ∨ (∃ part ∈ parts, part = [] ∨ part = [46] ∨ part = [46, 46]) ∨
          (∃ c ∈ raw, c < 33 ∨ c > 126 ∨ c = 58 ∨ c = 92) then none
      else some raw

/-- `CHUNK`, and `ZRECV_CHUNK`. -/
def zrecvChunkSize : ℕ := 128

/-- The digit of `bytes.hex` and of the format `x`. -/
def hexDigit (d : ℕ) : UInt8 := if d < 10 then UInt8.ofNat (48 + d) else UInt8.ofNat (87 + d)

/-- `bytes.hex`. -/
def hex (bytes : List UInt8) : List UInt8 :=
  bytes.flatMap fun b => [hexDigit (b.toNat / 16), hexDigit (b.toNat % 16)]

/-- The format `08x` of a number below `2 ^ 32`. -/
def hex08 (v : ℕ) : List UInt8 :=
  [v / 16 ^ 7, v / 16 ^ 6, v / 16 ^ 5, v / 16 ^ 4, v / 16 ^ 3, v / 16 ^ 2, v / 16, v].map
    fun q => hexDigit (q % 16)

/-- `str` of a positive number. -/
def decimal (n : ℕ) : List UInt8 := (Nat.digits 10 n).reverse.map fun d => UInt8.ofNat (48 + d)

/-- `zrecv` and a space. -/
def zrecvWord : List UInt8 := [122, 114, 101, 99, 118, 32]

/-- `main` with `--emit`: the command, and the lines with the counts they are acknowledged by. -/
def sendMain (name : PyStr) (data : List UInt8) : Option (List UInt8 × List (ℕ × List UInt8)) :=
  match validName name with
  | none => none
  | some raw =>
      if data = [] ∨ data.length > 4 * 1024 * 1024 ∨ 0 ∈ data then none
      else
        some (zrecvWord ++ raw ++ [32] ++ decimal data.length ++ [32] ++
            hex08 (zlibCrc32 data).toNat,
          (List.range' 0 ((data.length + 127) / 128) 128).map fun i =>
            (min (i + 128) data.length, hex ((data.drop i).take 128)))

/-! ## The arguments -/

/-- `zrecv_hex`. -/
def zrecvHex (c : UInt8) : Option ℕ :=
  if 48 ≤ c ∧ c ≤ 57 then some (c.toNat - 48)
  else if 97 ≤ c ∧ c ≤ 102 then some (c.toNat - 97 + 10)
  else if 65 ≤ c ∧ c ≤ 70 then some (c.toNat - 65 + 10)
  else none

/-- A space or a tab. -/
def isBlank (c : UInt8) : Bool := c = 32 || c = 9

/-- The loop over the decimal digits. -/
def zrecvSize : List UInt8 → ℕ → Option (ℕ × List UInt8)
  | [], size => some (size, [])
  | c :: p, size =>
      if 48 ≤ c ∧ c ≤ 57 then
        let digit := c.toNat - 48
        if size > (zssMaxFile - digit) / 10 then none else zrecvSize p (size * 10 + digit)
      else some (size, c :: p)

/-- The loop over the digits of the checksum: `left` of them are to come. -/
def zrecvCrc : ℕ → List UInt8 → ℕ → Option (ℕ × List UInt8)
  | 0, p, checksum => some (checksum, p)
  | _ + 1, [], _ => none
  | left + 1, c :: p, checksum =>
      match zrecvHex c with
      | none => none
      | some digit => zrecvCrc left p (checksum * 16 + digit)

/-- `zrecv_args` on the bytes of a C string: the name, the length and the checksum. -/
def zrecvArgs (p : List UInt8) : Option (List UInt8 × ℕ × ℕ) :=
  let p := (p.takeWhile (· ≠ 0)).dropWhile (· = 32)
  let name := p.takeWhile fun c => !isBlank c
  let p := p.dropWhile fun c => !isBlank c
  if name.length > zssMaxName ∨ (zssNameOk name).isNone then none
  else
    let p := p.dropWhile isBlank
    if p.head?.all fun c => c < 48 || c > 57 then none
    else
      match zrecvSize p 0 with
      | none => none
      | some (size, p) =>
          if size = 0 then none
          else
            match zrecvCrc 8 (p.dropWhile isBlank) 0 with
            | none => none
            | some (checksum, p) =>
                if p.dropWhile isBlank ≠ [] then none else some (name, size, checksum)

/-! ## A line -/

/-- What the reads of the serial line return. -/
abbrev Arrivals := List (Option UInt8)

/-- `zrecv_getc`. -/
def zrecvGetc : Arrivals → Option UInt8 × Arrivals
  | [] => (none, [])
  | c :: rest => (c, rest)

/-- `\r` or `\n`. -/
def isNewline (c : UInt8) : Bool := c = 13 || c = 10

/-- The first loop of `zrecv_chunk`. -/
def skipNewlines : Arrivals → Option UInt8 × Arrivals
  | [] => (none, [])
  | none :: rest => (none, rest)
  | some c :: rest => if isNewline c then skipNewlines rest else (some c, rest)

/-- The loop over the bytes of a chunk: `left` of them are to come, and `c` was read ahead. -/
def zrecvPairs : ℕ → UInt8 → Arrivals → Except ℤ (List UInt8 × Arrivals)
  | 0, c, rest => if isNewline c then .ok ([], rest) else .error (-1)
  | left + 1, c, rest =>
      match zrecvHex c, (zrecvGetc rest).1.bind zrecvHex with
      | some hi, some lo =>
          match zrecvGetc (zrecvGetc rest).2 with
          | (none, _) => .error (-2)
          | (some c, rest) =>
              if 0 < left ∧ zrecvHex c = none then .error (-1)
              else
                match zrecvPairs left c rest with
                | .error e => .error e
                | .ok (dst, rest) => .ok (UInt8.ofNat (hi * 16 + lo) :: dst, rest)
      | _, _ => .error (-1)

/-- `zrecv_chunk`. -/
def zrecvChunk (length : ℕ) (serial : Arrivals) : Except ℤ (List UInt8 × Arrivals) :=
  match skipNewlines serial with
  | (none, _) => .error (-2)
  | (some c, rest) => zrecvPairs length c rest

/-! ## The upload -/

/-- A line that `zrecv_serial` prints. -/
inductive Message where
  /-- "use zrecv Name.ZC <bytes> <crc32-8hex>". -/
  | usage
  /-- "serial unavailable". -/
  | serialUnavailable
  /-- "native source partition unavailable". -/
  | partitionUnavailable
  /-- "source partition full". -/
  | partitionFull
  /-- "invalid name or source volume". -/
  | invalid
  /-- "ready bytes=... chunk=128". -/
  | ready (length : ℕ)
  /-- "timeout; old file intact". -/
  | timeout
  /-- "malformed chunk; old file intact". -/
  | malformed
  /-- "disk write failed". -/
  | diskWriteFailed
  /-- "ack ...". -/
  | ack (written : ℕ)
  /-- "checksum mismatch; old file intact". -/
  | checksumMismatch
  /-- "saved ... bytes=...". -/
  | saved (name : List UInt8) (length : ℕ)
  deriving DecidableEq, Repr

theorem zrecvPairs_rest {left : ℕ} {c : UInt8} {rest rest' : Arrivals} {dst : List UInt8}
    (h : zrecvPairs left c rest = .ok (dst, rest')) : rest'.length ≤ rest.length := by
  have hgetc : ∀ s : Arrivals, (zrecvGetc s).2.length ≤ s.length := by
    rintro (_ | ⟨c, s⟩)
    · exact le_rfl
    · exact Nat.le_succ _
  induction left generalizing c rest dst with
  | zero =>
    rw [zrecvPairs] at h
    split_ifs at h
    cases h
    exact le_rfl
  | succ left ih =>
    rw [zrecvPairs] at h
    split at h
    · rcases hnext : zrecvGetc (zrecvGetc rest).2 with ⟨_ | c', s⟩
      · rw [hnext] at h
        cases h
      · have hs := hgetc (zrecvGetc rest).2
        rw [hnext] at h hs
        dsimp only at h hs
        split_ifs at h
        cases hpairs : zrecvPairs left c' s with
        | error e => rw [hpairs] at h; cases h
        | ok result =>
          rw [hpairs] at h
          cases h
          exact (ih hpairs).trans (hs.trans (hgetc rest))
    · cases h

theorem skipNewlines_rest {serial rest : Arrivals} {c : UInt8}
    (h : skipNewlines serial = (some c, rest)) : rest.length < serial.length := by
  induction serial with
  | nil => cases h
  | cons a serial ih =>
    cases a with
    | none => cases h
    | some a =>
      rw [skipNewlines] at h
      split_ifs at h
      · exact (ih h).trans (Nat.lt_succ_self _)
      · cases h
        exact Nat.lt_succ_self _

/-- A chunk takes something off the line. -/
theorem zrecvChunk_rest {length : ℕ} {serial rest : Arrivals} {dst : List UInt8}
    (h : zrecvChunk length serial = .ok (dst, rest)) : rest.length < serial.length := by
  rw [zrecvChunk] at h
  rcases hskip : skipNewlines serial with ⟨_ | c, s⟩
  · rw [hskip] at h
    cases h
  · rw [hskip] at h
    exact (zrecvPairs_rest h).trans_lt (skipNewlines_rest hskip)

/-- The loop of `zrecv_serial` and what follows it. -/
def zrecvLoop (stream : ZssStream) (serial : Arrivals) (m : Machine) : List Message × Machine :=
  if stream.written < stream.length then
    match _hread : zrecvChunk (min (stream.length - stream.written) zrecvChunkSize) serial with
    | .error read => ([if read = -2 then .timeout else .malformed], m)
    | .ok (bytes, rest) =>
        match zssStreamWrite stream bytes m with
        | (code, stream, m) =>
            if code ≠ 0 then ([.diskWriteFailed], m)
            else
              (.ack stream.written :: (zrecvLoop stream rest m).1, (zrecvLoop stream rest m).2)
  else
    match zssStreamFinish stream m with
    | (status, m) =>
        if status = 0 then ([.saved stream.name stream.length], m)
        else if status = -4 then ([.checksumMismatch], m)
        else ([.diskWriteFailed], m)
termination_by serial.length
decreasing_by all_goals exact zrecvChunk_rest _hread

/-- `zrecv_serial`: what it prints, and the machine after it. -/
def zrecvSerial (uart : Bool) (args : List UInt8) (serial : Arrivals) (m : Machine) :
    List Message × Machine :=
  match zrecvArgs args with
  | none => ([.usage], m)
  | some (name, length, checksum) =>
      if uart = false then ([.serialUnavailable], m)
      else
        match zssStreamBegin m name length checksum with
        | (_, some stream, m) =>
            (.ready length :: (zrecvLoop stream serial m).1, (zrecvLoop stream serial m).2)
        | (status, none, m) =>
            ([if status = -2 then .partitionUnavailable
              else if status = -3 then .partitionFull else .invalid], m)

end ZealBringup.Serial
