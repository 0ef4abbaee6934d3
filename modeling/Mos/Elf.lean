import Mos.Mmu
/-!
# Elf — the segment loader

`lib/elfloader.c` and the header fields it reads, over the bytes of a binary.  `elfLoadSeg` is generic in the state
its mapper works on, as the callback is in the source; `none` is a panic of the mapper.
-/
namespace Mos

/-- `const void *binary` and `size`. -/
structure Binary where
  size : Nat
  byte : Nat → BitVec 8

namespace Binary

def u16 (b : Binary) (o : Nat) : Nat := (b.byte o).toNat + (b.byte (o + 1)).toNat * 256

def u32 (b : Binary) (o : Nat) : Word := BitVec.ofNat 32 (b.u16 o + b.u16 (o + 2) * 65536)

end Binary

def sizeofElf32Ehdr : Nat := 52
def ptLoad : Word := 1
def pfW : Word := 2

structure Elf32Ehdr where
  eEntry : Word
  ePhoff : Word
  ePhentsize : Nat
  ePhnum : Nat

structure Elf32Phdr where
  pType : Word
  pOffset : Word
  pVaddr : Word
  pFilesz : Word
  pMemsz : Word
  pFlags : Word

/-- `elf_from`; `none` is the null pointer. -/
def elfFrom (b : Binary) : Option Elf32Ehdr :=
  if sizeofElf32Ehdr ≤ b.size ∧ b.byte 0 = 0x7F ∧ b.byte 1 = 0x45 ∧ b.byte 2 = 0x4C ∧ b.byte 3 = 0x46 ∧ b.u16 16 = 2
  then some { eEntry := b.u32 24, ePhoff := b.u32 28, ePhentsize := b.u16 42, ePhnum := b.u16 44 }
  else none

/-- The program header at offset `o`. -/
def Binary.phdr (b : Binary) (o : Nat) : Elf32Phdr :=
  { pType := b.u32 o, pOffset := b.u32 (o + 4), pVaddr := b.u32 (o + 8), pFilesz := b.u32 (o + 16)
    pMemsz := b.u32 (o + 20), pFlags := b.u32 (o + 24) }

/-- The arguments of one `map_page` call: `va`, `offset`, `perm`, `src` (`none` is `NULL`) and `len`. -/
structure MapPage where
  va : Word
  offset : Nat
  perm : Word
  src : Option (Nat → BitVec 8)
  len : Nat

/-- Calls until one returns non-zero. -/
def mapPages {σ : Type} (mapPage : MapPage → σ → Option (Int × σ)) : List MapPage → σ → Option (Int × σ)
  | [], s => some (0, s)
  | m :: ms, s => (mapPage m s).bind (fun r => if r.1 ≠ 0 then some r else mapPages mapPage ms r.2)

/-- The offsets `i, i + PAGE_SIZE, ..` below `n`. -/
def pageOffsets (i n : Nat) : List Nat :=
  (List.range ((n - i + pageSize - 1) / pageSize)).map (fun k => i + k * pageSize)

/-- The calls `elf_load_seg` makes, in order: the unaligned first page, the pages with file content, the zero pages. -/
def segPages (ph : Elf32Phdr) (bin : Nat → BitVec 8) : List MapPage :=
  let va := ph.pVaddr
  let binSize := ph.pFilesz.toNat
  let sgsize := ph.pMemsz.toNat
  let perm := if ph.pFlags &&& pfW ≠ 0 then pteV ||| pteD else pteV
  let offset := (va - pteAddr va).toNat
  let i₀ := if offset ≠ 0 then min binSize (pageSize - offset) else 0
  let content := pageOffsets i₀ binSize
  let i₁ := i₀ + content.length * pageSize
  (if offset ≠ 0 then [⟨va, offset, perm, some bin, i₀⟩] else []) ++
    content.map (fun i => ⟨va + BitVec.ofNat 32 i, 0, perm, some (fun k => bin (i + k)), min (binSize - i) pageSize⟩) ++
    (pageOffsets i₁ sgsize).map (fun i => ⟨va + BitVec.ofNat 32 i, 0, perm, none, min (sgsize - i) pageSize⟩)

def elfLoadSeg {σ : Type} (ph : Elf32Phdr) (bin : Nat → BitVec 8) (mapPage : MapPage → σ → Option (Int × σ)) (s : σ) :
    Option (Int × σ) :=
  mapPages mapPage (segPages ph bin) s

/-- `ELF_FOREACH_PHDR_OFF`: the program headers of a binary. -/
def Binary.phdrs (b : Binary) (ehdr : Elf32Ehdr) : List Elf32Phdr :=
  (List.range ehdr.ePhnum).map (fun k => b.phdr (ehdr.ePhoff.toNat + k * ehdr.ePhentsize))

end Mos
