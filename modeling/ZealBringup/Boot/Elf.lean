import ZealBringup.Boot.MemoryMap
import ZealBringup.Lib.Checked
import ZealBringup.Lib.Overlay

/-!
# The ELF loader of the booter

`load_kernel_elf` of `zealbooter.c`, with every access to the module and to the image checked
against their bounds.

* `BootModule` — the bytes of a module in memory.
* `imageEndLoop`, `copyLoop` — the two passes over the segments.
* `dynLoop`, `shtRelaLoop`, `relocLoop` — the dynamic table, its fallback and the relocations.
* `loadKernelElf` — the loader.
-/

namespace ZealBringup.Boot

open Overlay

/-! ## Memory -/

/-- An access outside of what it belongs to. -/
inductive Fault where
  | module (off width : ℕ)
  | image (off width : ℕ)
  | room (size : ℕ)
  deriving DecidableEq, Repr

/-- A little-endian number. -/
def leNat (bytes : List UInt8) : ℕ := Nat.ofDigits 256 (bytes.map UInt8.toNat)

/-- The `n` low bytes of a number, little endian. -/
def leBytes (n v : ℕ) : List UInt8 := (List.range n).map fun i => UInt8.ofNat (v / 256 ^ i)

/-- A module that Limine has put into memory: above the first page, and inside the address space. -/
structure BootModule where
  address : ℕ
  bytes : List UInt8
  above : 4096 ≤ address
  inside : address + bytes.length ≤ 2 ^ 64

/-- `file_size`. -/
def BootModule.size (m : BootModule) : ℕ := m.bytes.length

/-- The number in `width` bytes at `off`. -/
def BootModule.field (m : BootModule) (off width : ℕ) : ℕ := leNat ((m.bytes.drop off).take width)

/-- Reading a number through a pointer into the module. -/
def BootModule.read (m : BootModule) (off width : ℕ) : Except Fault ℕ :=
  if u64 off + width ≤ m.size then .ok (m.field (u64 off) width) else .error (.module (u64 off) width)

/-- Reading the source of a `memcpy`. -/
def BootModule.readBytes (m : BootModule) (off n : ℕ) : Except Fault (List UInt8) :=
  if n = 0 ∨ off + n ≤ m.size then .ok ((m.bytes.drop off).take n) else .error (.module off n)

/-- Reading a number from the image. -/
def imageRead (size : ℕ) (image : ℕ → UInt8) (off width : ℕ) : Except Fault ℕ :=
  if u64 off + width ≤ size then .ok (leNat (window image (u64 off) width))
  else .error (.image (u64 off) width)

/-- Writing bytes to the image. -/
def imageWrite (size : ℕ) (image : ℕ → UInt8) (off : ℕ) (data : List UInt8) :
    Except Fault (ℕ → UInt8) :=
  if data.length = 0 ∨ off + data.length ≤ size then .ok (paste image ⟨off, data⟩)
  else .error (.image off data.length)

/-! ## The tables of the file -/

/-- `Elf64_Ehdr`, as far as the loader looks at it. -/
structure Elf64Ehdr where
  ident : List UInt8
  type : ℕ
  machine : ℕ
  entry : ℕ
  phoff : ℕ
  shoff : ℕ
  phnum : ℕ
  shnum : ℕ

/-- The header of a module that has its 64 bytes. -/
def BootModule.ehdr (m : BootModule) : Elf64Ehdr where
  ident := m.bytes.take 4
  type := m.field 16 2
  machine := m.field 18 2
  entry := m.field 24 8
  phoff := m.field 32 8
  shoff := m.field 40 8
  phnum := m.field 56 2
  shnum := m.field 60 2

/-- `&ph[i]`, from the start of the module. -/
def phdr (eh : Elf64Ehdr) (i : ℕ) : ℕ := eh.phoff + 56 * i

/-- `&sh[i]`. -/
def shdr (eh : Elf64Ehdr) (i : ℕ) : ℕ := eh.shoff + 64 * i

/-- `sizeof(Elf64_Ehdr)`. -/
def sizeofElf64Ehdr : ℕ := 64

/-- `ELFMAG0` to `ELFMAG3`. -/
def elfMag : List UInt8 := [0x7f, 69, 76, 70]

/-- `EM_AARCH64`. -/
def emAArch64 : ℕ := 183

/-- `ET_EXEC`. -/
def etExec : ℕ := 2

/-- `ET_DYN`. -/
def etDyn : ℕ := 3

/-- `PT_LOAD`. -/
def ptLoad : ℕ := 1

/-- `PT_DYNAMIC`. -/
def ptDynamic : ℕ := 2

/-- `SHT_RELA`. -/
def shtRela : ℕ := 4

/-- `SHT_DYNAMIC`. -/
def shtDynamic : ℕ := 6

/-- `DT_NULL`. -/
def dtNull : ℕ := 0

/-- `DT_RELA`. -/
def dtRela : ℕ := 7

/-- `DT_RELASZ`. -/
def dtRelasz : ℕ := 8

/-- `DT_RELAENT`. -/
def dtRelaent : ℕ := 9

/-- `R_AARCH64_NONE`. -/
def rAArch64None : ℕ := 0

/-- `R_AARCH64_RELATIVE`. -/
def rAArch64Relative : ℕ := 1027

/-! ## The segments -/

/-- The loop for `image_end`, over so many program headers from `i` on. -/
def imageEndLoop (m : BootModule) (eh : Elf64Ehdr) : ℕ → ℕ → ℕ → Except Fault ℕ
  | 0, _, imageEnd => .ok imageEnd
  | left + 1, i, imageEnd => do
      let type ← m.read (phdr eh i) 4
      if type ≠ ptLoad then imageEndLoop m eh left (i + 1) imageEnd
      else do
        let vaddr ← m.read (phdr eh i + 16) 8
        let memsz ← m.read (phdr eh i + 40) 8
        imageEndLoop m eh left (i + 1)
          (if u64 (vaddr + memsz) > imageEnd then u64 (vaddr + memsz) else imageEnd)

/-- The loop that copies the segments; `none` where it returns `NULL`. -/
def copyLoop (m : BootModule) (eh : Elf64Ehdr) (size : ℕ) :
    ℕ → ℕ → (ℕ → UInt8) → Except Fault (Option (ℕ → UInt8))
  | 0, _, image => .ok (some image)
  | left + 1, i, image => do
      let type ← m.read (phdr eh i) 4
      if type ≠ ptLoad then copyLoop m eh size left (i + 1) image
      else do
        let offset ← m.read (phdr eh i + 8) 8
        let filesz ← m.read (phdr eh i + 32) 8
        if u64 (offset + filesz) > m.size then .ok none
        else do
          let vaddr ← m.read (phdr eh i + 16) 8
          let data ← m.readBytes offset filesz
          let image ← imageWrite size image vaddr data
          copyLoop m eh size left (i + 1) image

/-! ## The dynamic table -/

/-- A loop over a table of headers, the `i`-th of which is at `entry i`, up to the first one of a
type: the offset that this one holds. -/
def firstOffset (m : BootModule) (entry : ℕ → ℕ) (typeAt code offsetAt : ℕ) :
    ℕ → ℕ → Except Fault (Option ℕ)
  | 0, _ => .ok none
  | left + 1, i => do
      let type ← m.read (entry i + typeAt) 4
      if type = code then do
        let offset ← m.read (entry i + offsetAt) 8
        .ok (some offset)
      else firstOffset m entry typeAt code offsetAt left (i + 1)

/-- The `p_offset` of the first `PT_DYNAMIC`. -/
def dynamicSegment (m : BootModule) (eh : Elf64Ehdr) : Except Fault (Option ℕ) :=
  firstOffset m (phdr eh) 0 ptDynamic 8 eh.phnum 0

/-- The `sh_offset` of the first `SHT_DYNAMIC`. -/
def dynamicSection (m : BootModule) (eh : Elf64Ehdr) : Except Fault (Option ℕ) :=
  firstOffset m (shdr eh) 4 shtDynamic 24 eh.shnum 0

/-- The pointer `bytes + off`, unless it is `NULL`. -/
def BootModule.pointer (m : BootModule) (off : ℕ) : Option ℕ :=
  if u64 (m.address + off) = 0 then none else some off

/-- `dyn`. -/
def findDynamic (m : BootModule) (eh : Elf64Ehdr) : Except Fault (Option ℕ) := do
  let segment ← dynamicSegment m eh
  match segment.bind m.pointer with
  | some dyn => .ok (some dyn)
  | none =>
      if eh.shoff ≠ 0 ∧ eh.shnum ≠ 0 then do
        let sect ← dynamicSection m eh
        .ok (sect.bind m.pointer)
      else .ok none

/-- `rela`, `relasz` and `relaent`. -/
structure RelaTable where
  rela : ℕ
  relasz : ℕ
  relaent : ℕ
  deriving DecidableEq

/-- The loop over the dynamic table.  It leaves the module after one entry for every 16 bytes. -/
def dynLoop (m : BootModule) : ℕ → ℕ → RelaTable → Except Fault RelaTable
  | 0, dyn, _ => .error (.module (u64 dyn) 8)
  | fuel + 1, dyn, table => do
      let tag ← m.read dyn 8
      if tag = dtNull then .ok table
      else if tag = dtRela then do
        let value ← m.read (dyn + 8) 8
        dynLoop m fuel (dyn + 16) { table with rela := value }
      else if tag = dtRelasz then do
        let value ← m.read (dyn + 8) 8
        dynLoop m fuel (dyn + 16) { table with relasz := value }
      else if tag = dtRelaent then do
        let value ← m.read (dyn + 8) 8
        dynLoop m fuel (dyn + 16) { table with relaent := value }
      else dynLoop m fuel (dyn + 16) table

/-- `rela = sh[i].sh_addr ? sh[i].sh_addr : sh[i].sh_offset`, which is overwritten right away. -/
def firstRela (m : BootModule) (eh : Elf64Ehdr) (i addr : ℕ) : Except Fault ℕ :=
  if addr = 0 then m.read (shdr eh i + 24) 8 else .ok addr

/-- The loop over the sections for an `SHT_RELA` that is not empty. -/
def shtRelaLoop (m : BootModule) (eh : Elf64Ehdr) :
    ℕ → ℕ → RelaTable → Except Fault RelaTable
  | 0, _, table => .ok table
  | left + 1, i, table => do
      let type ← m.read (shdr eh i + 4) 4
      if type = shtRela then do
        let size ← m.read (shdr eh i + 32) 8
        if size ≠ 0 then do
          let addr ← m.read (shdr eh i + 16) 8
          let _ ← firstRela m eh i addr
          let entsize ← m.read (shdr eh i + 56) 8
          .ok ⟨addr, size, if entsize ≠ 0 then entsize else table.relaent⟩
        else shtRelaLoop m eh left (i + 1) table
      else shtRelaLoop m eh left (i + 1) table

/-- What the dynamic table says, where there is one. -/
def readDynamic (m : BootModule) : Option ℕ → Except Fault RelaTable
  | some dyn => dynLoop m (m.size / 16 + 1) dyn ⟨0, 0, 24⟩
  | none => .ok ⟨0, 0, 24⟩

/-- The relocation table: from the dynamic table, or else from the sections. -/
def findRela (m : BootModule) (eh : Elf64Ehdr) : Except Fault RelaTable := do
  let dyn ← findDynamic m eh
  let table ← readDynamic m dyn
  if (table.rela = 0 ∨ table.relasz = 0) ∧ eh.shoff ≠ 0 ∧ eh.shnum ≠ 0 then
    shtRelaLoop m eh eh.shnum 0 table
  else .ok table

/-! ## The relocations -/

/-- The loop over so many relocations from `i` on; `none` where it returns `NULL`. -/
def relocLoop (dest size rela : ℕ) :
    ℕ → ℕ → (ℕ → UInt8) → Except Fault (Option (ℕ → UInt8))
  | 0, _, image => .ok (some image)
  | left + 1, i, image => do
      let info ← imageRead size image (rela + 24 * i + 8) 8
      if info % 2 ^ 32 = rAArch64None then relocLoop dest size rela left (i + 1) image
      else if info % 2 ^ 32 ≠ rAArch64Relative then .ok none
      else do
        let slot ← imageRead size image (rela + 24 * i) 8
        let addend ← imageRead size image (rela + 24 * i + 16) 8
        let image ← imageWrite size image slot (leBytes 8 (dest + addend))
        relocLoop dest size rela left (i + 1) image

/-- The relocations, if there is a table of them. -/
def applyRela (dest size : ℕ) (table : RelaTable) (image : ℕ → UInt8) :
    Except Fault (Option (ℕ → UInt8)) :=
  if table.rela ≠ 0 ∧ table.relasz ≠ 0 ∧ table.relaent ≠ 0 then
    relocLoop dest size table.rela (table.relasz / table.relaent) 0 image
  else .ok (some image)

/-! ## The loader -/

/-- A kernel in memory. -/
structure LoadedKernel where
  dest : ℕ
  /-- `image_end`. -/
  size : ℕ
  /-- The bytes from `dest` on. -/
  image : ℕ → UInt8
  entry : ℕ

/-- The allocation: `dest` and the bytes that were found, if `dest` is not `NULL`. -/
def allocDest (hhdm : ℕ) (entries : List LimineMemmapEntry) (imageEnd : ℕ) : Option (ℕ × ℕ) :=
  match allocPhysHhdm entries imageEnd 0x10000 with
  | none => none
  | some (phys, size) => if u64 (hhdm + phys) = 0 then none else some (u64 (hhdm + phys), size)

/-- `memset(dest, 0, image_end)` on an allocation of `size` bytes. -/
def zeroFill (imageEnd size : ℕ) : Except Fault (ℕ → UInt8) :=
  if imageEnd ≤ size then .ok fun _ => 0 else .error (.room imageEnd)

/-- `load_kernel_elf`; `none` is `NULL`. -/
def loadKernelElf (hhdm : ℕ) (entries : List LimineMemmapEntry) (m : BootModule) :
    Except Fault (Option LoadedKernel) :=
  if m.size < sizeofElf64Ehdr then .ok none
  else
    let eh := m.ehdr
    if eh.ident ≠ elfMag then .ok none
    else if eh.machine ≠ emAArch64 ∨ (eh.type ≠ etDyn ∧ eh.type ≠ etExec) then .ok none
    else do
      let imageEnd ← imageEndLoop m eh eh.phnum 0 0
      if imageEnd = 0 then .ok none
      else
        match allocDest hhdm entries imageEnd with
        | none => .ok none
        | some (dest, size) => do
            let zeros ← zeroFill imageEnd size
            let copied ← copyLoop m eh imageEnd eh.phnum 0 zeros
            match copied with
            | none => .ok none
            | some image => do
                let table ← findRela m eh
                let relocated ← applyRela dest imageEnd table image
                match relocated with
                | none => .ok none
                | some image => .ok (some ⟨dest, imageEnd, image, u64 (dest + eh.entry)⟩)

end ZealBringup.Boot
