import ZealBringup.Store.Log

/-!
# The native source partition: the host's operations

The Python tool `source-volume.py` reads and writes the same partition from
outside, with the machine stopped.  A `str` is its list of code points, a `dict`
an association list without duplicate keys and a `set` a finite set; a raised
`ValueError` is a `PyError`.  The image file is a disk whose two banks are there
in full.

The tool shares nothing with the guest but the layout of a sector; where the two
turn out to be the same function, `Store.Agreement` proves it.
-/

set_option maxRecDepth 10000

namespace ZealBringup.Store

open CrashDisk

/-! ## The checksum of `zlib` -/

/-- One entry of the table of `zlib`, bit by bit. -/
def zlibTableStep (c : UInt32) : UInt32 :=
  if c &&& 1 = 1 then (0xedb88320 : UInt32) ^^^ (c >>> 1) else c >>> 1

/-- The table of `zlib`. -/
def zlibTable (i : UInt32) : UInt32 := zlibTableStep^[8] i

/-- `zlib.crc32`. -/
def zlibCrc32 (data : List UInt8) : UInt32 :=
  data.foldl (fun crc byte => zlibTable ((crc ^^^ byte.toUInt32) &&& 0xff) ^^^ (crc >>> 8))
    0xffffffff ^^^ 0xffffffff

/-! ## Names -/

/-- A Python string: its code points. -/
abbrev PyStr := List ℕ

instance : LawfulBEq PyStr := inferInstance

/-- What the tool raises. -/
inductive PyError where
  /-- `source path must be printable ASCII: {name!r}` -/
  | notAscii (name : PyStr)
  /-- `invalid source path: {name!r}` -/
  | invalidPath (name : PyStr)
  /-- `source partition has no supported superblock` -/
  | noSuperblock
  /-- `damaged record header at source sector {pos}` -/
  | damagedHeader (pos : ℕ)
  /-- `invalid record size at source sector {pos}` -/
  | invalidSize (pos : ℕ)
  /-- The `UnicodeDecodeError` of a name that is not ASCII. -/
  | undecodable (pos : ℕ)
  /-- `source must contain 1 byte to 4 MiB` -/
  | badSize
  /-- `source partition is full` -/
  | full
  /-- `bad source checksum: {name}` -/
  | badChecksum (name : PyStr)
  /-- `missing native source: {name}` -/
  | missing (name : PyStr)
  deriving DecidableEq, Repr

/-- `name.encode('ascii')`. -/
def encodeAscii (name : PyStr) : Option (List UInt8) :=
  if ∀ c ∈ name, c < 128 then some (name.map UInt8.ofNat) else none

/-- `bytes.decode('ascii')`. -/
def decodeAscii (bytes : List UInt8) : Option PyStr :=
  if ∀ b ∈ bytes, b < 128 then some (bytes.map UInt8.toNat) else none

/-- `valid_name`. -/
def validName (name : PyStr) : Except PyError (List UInt8) :=
  match encodeAscii name with
  | none => .error (.notAscii name)
  | some encoded =>
      let parts := name.splitOn 47
      if encoded = [] ∨ encoded.length > zssMaxName ∨
          (∃ part ∈ parts, part = [] ∨ part = [46] ∨ part = [46, 46]) ∨
          (∃ byte ∈ encoded, byte < 33 ∨ byte > 126 ∨ byte = 58 ∨ byte = 92) then
        .error (.invalidPath name)
      else .ok encoded

/-! ## Scanning -/

/-- `probe`. -/
def probe (d : Disk Sector) (start sectors : ℕ) : Option ℕ :=
  let header := d start
  if zssU32 header 12 ≠ sectors then none
  else if header.slice 0 8 = superMagic1 ∧ zssU32 header 8 = 1 then some 0
  else if header.slice 0 8 = superMagic2 ∧ zssU32 header 8 = 2 ∧
      zssU32 header 20 = (zlibCrc32 (header.slice 0 20)).toNat then
    if zssU32 header 16 = 0 then none else some (zssU32 header 16)
  else none

/-- The choice of `select_bank` between the two probes. -/
def selectProbe (a b : Option ℕ) : Except PyError Bank :=
  match a, b with
  | none, none => .error .noSuperblock
  | none, some b => .ok (bankB b)
  | some a, some b => if b > a then .ok (bankB b) else .ok (bankA a)
  | some a, none => .ok (bankA a)

/-- `select_bank`: the bank behind `START` and `SECTORS`. -/
@[irreducible] def selectBank (d : Disk Sector) : Except PyError Bank :=
  selectProbe (probe d zealSrcLbaBase zealSrcSects) (probe d zealSrcShadowLba zealSrcShadowSects)

/-- What `files` says about a name: its sector, length and checksum. -/
abbrev FileInfo := ℕ × ℕ × ℕ

/-- The result of `scan(f, with_deleted=True)`. -/
structure HostScan where
  pos : ℕ
  files : AList fun _ : PyStr => FileInfo
  deletedNames : Finset PyStr

/-- `b'ZCFILE1\0'`. -/
def hostFileMagic : List UInt8 := [90, 67, 70, 73, 76, 69, 49, 0]

/-- `b'ZCDEL1\0\0'`. -/
def hostDeleteMagic : List UInt8 := [90, 67, 68, 69, 76, 49, 0, 0]

/-- `valid_body` of `scan`. -/
def validBody (deleted : Bool) (length checksum blocks : ℕ) : Bool :=
  if deleted then length == 0 && checksum == 0 && blocks == 0
  else decide (0 < length ∧ length ≤ zssMaxFile ∧ blocks = (length + 511) / 512)

/-- The fields of one record. -/
structure HostRecord where
  name : PyStr
  deleted : Bool
  length : ℕ
  checksum : ℕ
  blocks : ℕ

/-- The name of the header at `pos`, decoded and checked. -/
def scanName (pos : ℕ) (field : List UInt8) : Except PyError PyStr :=
  match decodeAscii field with
  | none => .error (.undecodable pos)
  | some name =>
      match validName name with
      | .error e => .error e
      | .ok _ => .ok name

/-- The checks of `scan` on a header that is not empty. -/
def scanHeader (sectors pos : ℕ) (header : Sector) : Except PyError HostRecord :=
  if header.slice 0 8 ≠ hostFileMagic ∧ header.slice 0 8 ≠ hostDeleteMagic then
    .error (.damagedHeader pos)
  else
    let length := zssU32 header 8
    let checksum := zssU32 header 12
    let blocks := zssU32 header 16
    let nameLen := zssU32 header 20
    let deleted := decide (header.slice 0 8 = hostDeleteMagic)
    if ¬(validBody deleted length checksum blocks = true ∧ 0 < nameLen ∧
        nameLen ≤ zssMaxName ∧ pos + 1 + blocks ≤ sectors) then
      .error (.invalidSize pos)
    else
      match scanName pos (header.slice 32 nameLen) with
      | .error e => .error e
      | .ok name => .ok ⟨name, deleted, length, checksum, blocks⟩

/-- The bookkeeping of `scan` for one record. -/
def HostScan.record (s : HostScan) (r : HostRecord) : HostScan :=
  if r.deleted then
    ⟨s.pos + 1 + r.blocks, s.files.erase r.name, insert r.name s.deletedNames⟩
  else
    ⟨s.pos + 1 + r.blocks, s.files.insert r.name (s.pos, r.length, r.checksum),
      s.deletedNames.erase r.name⟩

/-- The loop of `scan`.  `fuel` bounds the number of headers. -/
def scanLoop (d : Disk Sector) (b : Bank) : ℕ → HostScan → Except PyError HostScan
  | 0, s => .ok s
  | fuel + 1, s =>
      if s.pos < b.sectors then
        if isEmptySector (d (b.base + s.pos)) then .ok s
        else
          match scanHeader b.sectors s.pos (d (b.base + s.pos)) with
          | .error e => .error e
          | .ok r => scanLoop d b fuel (s.record r)
      else .ok s

/-- `scan(f, with_deleted=True)`, and the bank it selected. -/
def scan (d : Disk Sector) : Except PyError (Bank × HostScan) := do
  let b ← selectBank d
  let s ← scanLoop d b b.sectors ⟨1, ∅, ∅⟩
  return (b, s)

/-! ## Writing -/

/-- `f.write(bytes)` at sector `lba`, for whole sectors. -/
def hostWrite (d : Disk Sector) (lba : ℕ) (bytes : List UInt8) : Disk Sector := fun a =>
  if lba ≤ a ∧ a < lba + bytes.length / 512 then
    padSector ((bytes.drop ((a - lba) * 512)).take 512)
  else d a

/-- `f.read(n)` at sector `lba`. -/
def hostRead (d : Disk Sector) (lba n : ℕ) : List UInt8 :=
  (List.range n).map fun i => (d (lba + i / 512)).get (i % 512)

/-- `struct.pack_into('<I...', s, off, ...)`. -/
def packInto (s : Sector) (off : ℕ) : List ℕ → Sector
  | [] => s
  | v :: vs => packInto (zssW32 s off v) (off + 4) vs

/-- The header `append` writes. -/
def hostFileHeader (data encoded : List UInt8) : Sector :=
  copyBytes (packInto (copyBytes zeroSector 0 hostFileMagic) 8
    [data.length, (zlibCrc32 data).toNat, (data.length + 511) / 512, encoded.length]) 32 encoded

/-- The header `append_tombstone` writes. -/
def hostDeleteHeader (encoded : List UInt8) : Sector :=
  copyBytes (packInto (copyBytes zeroSector 0 hostDeleteMagic) 20 [encoded.length]) 32 encoded

/-- `if next < SECTORS: at(f, next); f.write(bytes(SECTOR))`. -/
def hostTerminate (d : Disk Sector) (b : Bank) (next : ℕ) : Disk Sector :=
  if next < b.sectors then Function.update d (b.base + next) zeroSector else d

/-- `append`: the image and the new tail. -/
def append (d : Disk Sector) (b : Bank) (pos : ℕ) (name : PyStr) (data : List UInt8) :
    Except PyError (Disk Sector × ℕ) := do
  let encoded ← validName name
  if data = [] ∨ data.length > zssMaxFile then throw .badSize
  let blocks := (data.length + 511) / 512
  if pos + 1 + blocks > b.sectors then throw .full
  let written := hostWrite d (b.base + (pos + 1))
    (data ++ List.replicate (blocks * 512 - data.length) 0)
  let ended := hostTerminate written b (pos + 1 + blocks)
  return (Function.update ended (b.base + pos) (hostFileHeader data encoded), pos + 1 + blocks)

/-- `append_tombstone`. -/
def appendTombstone (d : Disk Sector) (b : Bank) (pos : ℕ) (name : PyStr) :
    Except PyError (Disk Sector × ℕ) := do
  let encoded ← validName name
  if pos ≥ b.sectors then throw .full
  return (Function.update (hostTerminate d b (pos + 1)) (b.base + pos) (hostDeleteHeader encoded),
    pos + 1)

/-! ## Commands -/

/-- The `put` command. -/
def hostPut (d : Disk Sector) (name : PyStr) (data : List UInt8) : Except PyError (Disk Sector) := do
  let (b, s) ← scan d
  let (d, _) ← append d b s.pos name data
  return d

/-- The `delete` command. -/
def hostDelete (d : Disk Sector) (name : PyStr) : Except PyError (Disk Sector) := do
  let (b, s) ← scan d
  if name ∉ s.files then throw (.missing name)
  let (d, _) ← appendTombstone d b s.pos name
  return d

/-- The first half of `compact`: the live files in order of their names, or the name whose
checksum is bad. -/
def readLive (d : Disk Sector) (b : Bank) :
    List (Sigma fun _ : PyStr => FileInfo) → Except PyError (List (PyStr × List UInt8))
  | [] => return []
  | ⟨name, sector, length, checksum⟩ :: items => do
      let data := hostRead d (b.base + (sector + 1)) length
      if data.length ≠ length ∨ (zlibCrc32 data).toNat ≠ checksum then throw (.badChecksum name)
      let live ← readLive d b items
      return (name, data) :: live

/-- `for name, data in live: pos = append(target, pos, name, data)`. -/
def appendAll (b : Bank) :
    List (PyStr × List UInt8) → Disk Sector → ℕ → Except PyError (Disk Sector × ℕ)
  | [], d, pos => return (d, pos)
  | (name, data) :: live, d, pos => do
      let (d, pos) ← append d b pos name data
      appendAll b live d pos

/-- `for name in sorted(deleted_names): pos = append_tombstone(target, pos, name)`. -/
def appendTombstones (b : Bank) :
    List PyStr → Disk Sector → ℕ → Except PyError (Disk Sector × ℕ)
  | [], d, pos => return (d, pos)
  | name :: names, d, pos => do
      let (d, pos) ← appendTombstone d b pos name
      appendTombstones b names d pos

/-- `sorted(files.items())`. -/
def sortedItems (files : AList fun _ : PyStr => FileInfo) : List (Sigma fun _ : PyStr => FileInfo) :=
  files.entries.mergeSort fun x y => decide (x.1 ≤ y.1)

/-- The `compact` command.  The new image replaces the old one only when it is complete. -/
def hostCompact (d : Disk Sector) : Except PyError (Disk Sector) := do
  let (b, s) ← scan d
  let live ← readLive d b (sortedItems s.files)
  let wiped := hostWrite d (b.base + 1) (List.replicate ((b.sectors - 1) * 512) 0)
  let (d, pos) ← appendAll b live wiped 1
  let (d, _) ← appendTombstones b (s.deletedNames.sort (· ≤ ·)) d pos
  return d

/-- A member of the bundle. -/
structure TarMember where
  name : PyStr
  isFile : Bool
  data : List UInt8

/-- `m.isfile() and m.name.endswith(('.ZC', '.HH'))`. -/
def TarMember.isSource (m : TarMember) : Bool :=
  m.isFile && ([46, 90, 67].isSuffixOf m.name || [46, 72, 72].isSuffixOf m.name)

/-- `members`, sorted by name. -/
def sortedMembers (bundle : List TarMember) : List TarMember :=
  (bundle.filter TarMember.isSource).mergeSort fun x y => decide (x.name ≤ y.name)

/-- The loop of `merge`: the image as the loop leaves it, and what it raised if it did. -/
def mergeLoop (b : Bank) (replaceNames : List PyStr) :
    List TarMember → Disk Sector → HostScan → Option PyError × Disk Sector
  | [], d, _ => (none, d)
  | member :: members, d, s =>
      match validName member.name with
      | .error e => (some e, d)
      | .ok _ =>
          let refresh := decide (member.name ∈ replaceNames)
          if (member.name ∈ s.files ∨ member.name ∈ s.deletedNames) ∧ refresh = false then
            mergeLoop b replaceNames members d s
          else
            let checksum := (zlibCrc32 member.data).toNat
            if refresh = true ∧ (s.files.lookup member.name).any
                (fun f => f.2.1 == member.data.length && f.2.2 == checksum) then
              mergeLoop b replaceNames members d s
            else
              match append d b s.pos member.name member.data with
              | .error e => (some e, d)
              | .ok (d, pos) =>
                  mergeLoop b replaceNames members d
                    ⟨pos, s.files.insert member.name (s.pos, member.data.length, checksum),
                      s.deletedNames.erase member.name⟩

/-- The `merge` command. -/
def hostMerge (d : Disk Sector) (bundle : List TarMember) (replaceNames : List PyStr) :
    Option PyError × Disk Sector :=
  match scan d with
  | .error e => (some e, d)
  | .ok (b, s) => mergeLoop b replaceNames (sortedMembers bundle) d s

end ZealBringup.Store
