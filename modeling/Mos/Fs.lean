import Mos.Lib.Bytes
import Mos.Lib.Fallible
import Mos.Mmu
/-!
# Fs — the file system of the server

`fs/fs.c` on the memory it works on.  The blocks of the disk have their pages in the server from `DISKMAP` on, so a
pointer into the cache is the number of a word counted from there: block `b` has the words from `b * 1024` on, and a
`struct File *` is the number of its first word.  A function yields `none` where the server panics.
-/
namespace Mos

def blockSize : Nat := pageSize

def blockSizeBit : Nat := blockSize * 8

/-- The words of a block. -/
def blockWords : Nat := 1024

def maxNameLen : Nat := 128
def maxPathLen : Nat := 1024
def nDirect : Nat := 10
def nIndirect : Nat := blockSize / 4
def maxFileSize : Nat := nIndirect * blockSize

/-- `FILE_STRUCT_SIZE`, in words -/
def fileWords : Nat := 64

def file2blk : Nat := 16

def ftypeReg : Word := 0
def ftypeDir : Word := 1
def fsMagic : Word := 0x68286097

/-- `DISKMAX / BLOCK_SIZE` -/
def diskmaxBlocks : Nat := 0x40000

/-- `DISKMAP` -/
def diskMap : Word := 0x10000000

structure Fs where
  /-- The words from `DISKMAP` on. -/
  mem : Nat → Word
  /-- The page of the block is mapped. -/
  mapped : Nat → Bool
  /-- It has `PTE_DIRTY`. -/
  dirty : Nat → Bool
  /-- The words of the disk. -/
  disk : Nat → Word
  /-- `super` is set, to block 1. -/
  super : Bool
  /-- `bitmap` is set, to block 2. -/
  bitmap : Bool
  /-- Whether the next calls of `syscall_mem_alloc` find a page; at the end of the list they do. -/
  pages : List Bool

abbrev FsM := Fallible Fs

open Fallible

/-! ## The fields of a `struct File` -/

namespace FilePtr

def fSize (f : Nat) : Nat := f + 32
def fType (f : Nat) : Nat := f + 33
def fDirect (f i : Nat) : Nat := f + 34 + i
def fIndirect (f : Nat) : Nat := f + 44
def fDir (f : Nat) : Nat := f + 45

end FilePtr

open FilePtr

/-- `f->f_name[i]` -/
def fName (m : Nat → Word) (f i : Nat) : BitVec 8 := byteAt m (4 * f + i)

/-- `strcmp(name, f->f_name) == 0` -/
def nameIs (m : Nat → Word) (f : Nat) (name : List (BitVec 8)) : Bool :=
  (List.range (name.length + 1)).all fun i => fName m f i == (name ++ [0]).getD i 0

/-- `strcpy(f->f_name, name)` -/
def putName (m : Nat → Word) (f : Nat) (name : List (BitVec 8)) : Nat → Word :=
  (List.range (name.length + 1)).foldl (fun m i => putByte m (4 * f + i) ((name ++ [0]).getD i 0)) m

/-- The address of a word of the cache. -/
def addrOf (a : Nat) : Word := diskMap + BitVec.ofNat 32 (4 * a)

/-- The word of the cache at an address. -/
def wordOf (w : Word) : Nat := (w - diskMap).toNat / 4

/-- `&super->s_root` -/
def sRoot : Nat := blockWords + 2

namespace Fs

/-- `super->s_nblocks` -/
def sNblocks (s : Fs) : Nat := (s.mem (blockWords + 1)).toNat

/-- The word of the bitmap with the bit of the block. -/
def bitmapWord (blockno : Nat) : Nat := 2 * blockWords + blockno / 32

def blockIsFree (s : Fs) (blockno : Nat) : Bool :=
  s.super && decide (blockno < s.sNblocks) && (s.mem (bitmapWord blockno)).getLsbD (blockno % 32)

end Fs

def loadWord (a : Nat) : FsM Word := Fallible.read fun s => s.mem a

def storeWord (a : Nat) (w : Word) : FsM Unit := modify fun s => { s with mem := Function.update s.mem a w }

/-! ## Blocks -/

def diskAddr (blockno : Nat) : Nat := blockno * blockWords

/-- `syscall_mem_alloc(0, disk_addr(blockno), PTE_D)`: a page of zeroes. -/
def memAllocBlock (blockno : Nat) : FsM Unit := fun s =>
  if s.pages.headD true then
    some (.ok (),
      { s with
        mem := fun a => if a / blockWords = blockno then 0 else s.mem a
        mapped := Function.update s.mapped blockno true
        dirty := Function.update s.dirty blockno false
        pages := s.pages.tail })
  else some (.error (-eNoMem), { s with pages := s.pages.tail })

/-- `ide_read` of one block into its page. -/
def ideReadBlock (blockno : Nat) : FsM Unit := modify fun s =>
  { s with mem := fun a => if a / blockWords = blockno then s.disk a else s.mem a }

def dirtyBlock (blockno : Nat) : FsM Unit := do
  let s ← Fallible.read id
  if !s.mapped blockno then Fallible.fail (-eNotFound)
  else modify fun s => { s with dirty := Function.update s.dirty blockno true }

def writeBlock (blockno : Nat) : FsM Unit := do
  let s ← Fallible.read id
  if !s.mapped blockno then panic
  else modify fun s => { s with disk := fun a => if a / blockWords = blockno then s.mem a else s.disk a }

/-- `read_block`: `*isnew`; the block is at `disk_addr(blockno)`. -/
def readBlock (blockno : Nat) : FsM Bool := do
  let s ← Fallible.read id
  if s.super && decide (s.sNblocks ≤ blockno) then panic
  else if s.bitmap && s.blockIsFree blockno then panic
  else if s.mapped blockno then pure false
  else
    memAllocBlock blockno
    ideReadBlock blockno
    pure true

def mapBlock (blockno : Nat) : FsM Unit := do
  let s ← Fallible.read id
  if s.mapped blockno then pure () else memAllocBlock blockno

def freeBlock (blockno : Nat) : FsM Unit := modify fun s =>
  if blockno = 0 ∨ s.sNblocks ≤ blockno then s
  else
    let a := Fs.bitmapWord blockno
    { s with mem := Function.update s.mem a (s.mem a ||| BitVec.twoPow 32 (blockno % 32)) }

def allocBlockNum : FsM Nat := do
  let s ← Fallible.read id
  match (List.range' 3 (s.sNblocks - 3)).find? fun b => (s.mem (Fs.bitmapWord b)).getLsbD (b % 32) with
  | none => Fallible.fail (-eNoDisk)
  | some blockno =>
    let a := Fs.bitmapWord blockno
    storeWord a (s.mem a &&& ~~~BitVec.twoPow 32 (blockno % 32))
    writeBlock (blockno / blockSizeBit + 2)
    pure blockno

def allocBlock : FsM Nat := do
  let bno ← allocBlockNum
  match ← attempt (mapBlock bno) with
  | .error r =>
    freeBlock bno
    Fallible.fail r
  | .ok _ => pure bno

/-! ## Starting -/

def readSuper : FsM Unit := do
  let _ ← orPanic (readBlock 1)
  modify fun s => { s with super := true }
  let s ← Fallible.read id
  assert (s.mem blockWords == fsMagic)
  assert (decide (s.sNblocks ≤ diskmaxBlocks))

/-- `memcpy(disk_addr(dst), disk_addr(src), BLOCK_SIZE)` -/
def copyBlock (dst src : Nat) : FsM Unit := modify fun s =>
  { s with mem := fun a => if a / blockWords = dst then s.mem (diskAddr src + a % blockWords) else s.mem a }

def checkWriteBlock : FsM Unit := do
  modify fun s => { s with super := false }
  let _ ← orPanic (readBlock 0)
  copyBlock 0 1
  -- "OOPS!\n" and its end
  modify fun s => { s with mem := (List.range 7).foldl (fun m i =>
    putByte m (4 * diskAddr 1 + i) (([0x4F, 0x4F, 0x50, 0x53, 0x21, 0x0A, 0] : List (BitVec 8)).getD i 0)) s.mem }
  writeBlock 1
  modify fun s => { s with mapped := Function.update s.mapped 1 false }
  let _ ← orPanic (readBlock 1)
  let s ← Fallible.read id
  assert ((List.range 7).all fun i =>
    byteAt s.mem (4 * diskAddr 1 + i) == ([0x4F, 0x4F, 0x50, 0x53, 0x21, 0x0A, 0] : List (BitVec 8)).getD i 0)
  copyBlock 1 0
  writeBlock 1
  modify fun s => { s with super := true }

def readBlocks : List Nat → FsM Unit
  | [] => pure ()
  | b :: bs => do
    let _ ← attempt (readBlock b)
    readBlocks bs

def readBitmap : FsM Unit := do
  let s ← Fallible.read id
  let nbitmap := s.sNblocks / blockSizeBit + 1
  readBlocks (List.range' 2 nbitmap)
  modify fun s => { s with bitmap := true }
  let s ← Fallible.read id
  assert ((List.range (nbitmap + 2)).all fun b => !s.blockIsFree b)

def fsInit : FsM Unit := do
  readSuper
  checkWriteBlock
  readBitmap

/-! ## The blocks of a file -/

/-- `file_block_walk`: the pointer to the slot of the block. -/
def fileBlockWalk (f filebno : Nat) (alloc : Bool) : FsM Nat := do
  if filebno < nDirect then pure (fDirect f filebno)
  else if filebno < nIndirect then do
    let r ← loadWord (fIndirect f)
    if r = 0 then
      if alloc then
        let r ← allocBlock
        storeWord (fIndirect f) (BitVec.ofNat 32 r)
      else Fallible.fail (-eNotFound)
    let r ← loadWord (fIndirect f)
    let _ ← readBlock r.toNat
    pure (diskAddr r.toNat + filebno)
  else Fallible.fail (-eInval)

/-- `file_map_block`: the number of the block. -/
def fileMapBlock (f filebno : Nat) (alloc : Bool) : FsM Nat := do
  let ptr ← fileBlockWalk f filebno alloc
  let r ← loadWord ptr
  if r = 0 then
    if alloc then
      let r ← allocBlock
      storeWord ptr (BitVec.ofNat 32 r)
    else Fallible.fail (-eNotFound)
  let r ← loadWord ptr
  pure r.toNat

def fileClearBlock (f filebno : Nat) : FsM Unit := do
  let ptr ← fileBlockWalk f filebno false
  let r ← loadWord ptr
  if r = 0 then pure ()
  else
    freeBlock r.toNat
    storeWord ptr 0

/-- `file_get_block`: the block in the cache. -/
def fileGetBlock (f filebno : Nat) : FsM Nat := do
  let diskbno ← fileMapBlock f filebno true
  let _ ← readBlock diskbno
  pure (diskAddr diskbno)

def fileDirty (f : Nat) (offset : Word) : FsM Unit := do
  let diskbno ← fileMapBlock f (offset.toNat / blockSize) false
  dirtyBlock diskbno

/-- `ROUND(size, BLOCK_SIZE) / BLOCK_SIZE` -/
def nblocksOf (size : Word) : Nat := ((size + 4095) &&& ~~~4095).toNat / blockSize

/-- One block of `file_flush`. -/
def fileFlushBlock (f bno : Nat) : FsM Unit := do
  match ← attempt (fileMapBlock f bno false) with
  | .error _ => pure ()
  | .ok diskno =>
    let s ← Fallible.read id
    if s.mapped diskno && s.dirty diskno then writeBlock diskno else pure ()

def fileFlushBlocks (f : Nat) : List Nat → FsM Unit
  | [] => pure ()
  | bno :: bnos => do
    fileFlushBlock f bno
    fileFlushBlocks f bnos

def fileFlush (f : Nat) : FsM Unit := do
  let size ← loadWord (fSize f)
  fileFlushBlocks f (List.range (nblocksOf size))

/-- `if (f->f_dir) { file_flush(f->f_dir); }` -/
def flushDir (f : Nat) : FsM Unit := do
  let dir ← loadWord (fDir f)
  if dir = 0 then pure () else fileFlush (wordOf dir)

def fileClearBlocks (f : Nat) : List Nat → FsM Unit
  | [] => pure ()
  | bno :: bnos => do
    orPanic (fileClearBlock f bno)
    fileClearBlocks f bnos

def fileTruncate (f : Nat) (newsize : Word) : FsM Unit := do
  let size ← loadWord (fSize f)
  let oldNblocks := nblocksOf size
  let newNblocks := if newsize = 0 then 0 else nblocksOf newsize
  fileClearBlocks f (List.range' newNblocks (oldNblocks - newNblocks))
  if newNblocks ≤ nDirect then
    let r ← loadWord (fIndirect f)
    if r ≠ 0 then
      freeBlock r.toNat
      storeWord (fIndirect f) 0
  storeWord (fSize f) newsize

def fileSetSize (f : Nat) (newsize : Word) : FsM Unit := do
  let size ← loadWord (fSize f)
  if newsize < size then fileTruncate f newsize
  storeWord (fSize f) newsize
  flushDir f

def fileClose (f : Nat) : FsM Unit := do
  fileFlush f
  flushDir f

/-- The blocks that `fs_sync` goes over. -/
def syncBlocks : List Nat → FsM Unit
  | [] => pure ()
  | b :: bs => do
    let s ← Fallible.read id
    if s.mapped b && s.dirty b then writeBlock b
    syncBlocks bs

def fsSync : FsM Unit := do
  let s ← Fallible.read id
  syncBlocks (List.range s.sNblocks)

/-! ## Directories -/

/-- The entries of a block of a directory. -/
def entries (blk : Nat) : List Nat := (List.range file2blk).map fun j => blk + fileWords * j

/-- `dir_lookup`, from one of the blocks on. -/
def dirLookupFrom (dir : Nat) (name : List (BitVec 8)) : List Nat → FsM Nat
  | [] => Fallible.fail (-eNotFound)
  | i :: is => do
    let blk ← fileGetBlock dir i
    let s ← Fallible.read id
    match (entries blk).find? fun f => nameIs s.mem f name with
    | some f =>
      storeWord (fDir f) (addrOf dir)
      pure f
    | none => dirLookupFrom dir name is

def dirLookup (dir : Nat) (name : List (BitVec 8)) : FsM Nat := do
  let size ← loadWord (fSize dir)
  dirLookupFrom dir name (List.range (size.toNat / blockSize))

/-- The free entry that `dir_alloc_file` looks for, from one of the blocks on. -/
def freeEntryFrom (dir : Nat) : List Nat → FsM (Option Nat)
  | [] => pure none
  | i :: is => do
    let blk ← fileGetBlock dir i
    let s ← Fallible.read id
    match (entries blk).find? fun f => fName s.mem f 0 == 0 with
    | some f => pure (some f)
    | none => freeEntryFrom dir is

def dirAllocFile (dir : Nat) : FsM Nat := do
  let size ← loadWord (fSize dir)
  let nblock := size.toNat / blockSize
  match ← freeEntryFrom dir (List.range nblock) with
  | some f => pure f
  | none =>
    let size ← loadWord (fSize dir)
    storeWord (fSize dir) (size + 4096)
    fileGetBlock dir nblock

/-! ## Paths -/

def slash : BitVec 8 := 0x2F

def skipSlash (path : List (BitVec 8)) : List (BitVec 8) := path.dropWhile (· == slash)

/-- What `walk_path` leaves in `*pdir`, `*pfile` and `lastelem`, and its return code. -/
structure Walked where
  r : Int
  pdir : Option Nat
  pfile : Option Nat
  lastelem : List (BitVec 8)
deriving DecidableEq

/-- The loop of `walk_path`, where `file` was reached through the directory `dir`; it goes round at most once for each
character. -/
def walkFrom : Nat → Option Nat → Nat → List (BitVec 8) → FsM Walked
  | 0, dir, file, _ => pure ⟨0, dir, some file, []⟩
  | n + 1, dir, file, path =>
    if path = [] then pure ⟨0, dir, some file, []⟩
    else
      let name := path.takeWhile (· != slash)
      let rest := skipSlash (path.dropWhile (· != slash))
      if maxNameLen ≤ name.length then pure ⟨-eBadPath, none, none, []⟩
      else do
        let type ← loadWord (fType file)
        if type ≠ ftypeDir then pure ⟨-eNotFound, none, none, []⟩
        else
          match ← attempt (dirLookup file name) with
          | .error r =>
            if r = -eNotFound ∧ rest = [] then pure ⟨r, some file, none, name⟩
            else pure ⟨r, none, none, []⟩
          | .ok f => walkFrom n (some file) f rest

def walkPath (path : List (BitVec 8)) : FsM Walked := walkFrom path.length none sRoot (skipSlash path)

def fileOpen (path : List (BitVec 8)) : FsM Nat := do
  let w ← walkPath path
  match w.pfile with
  | some f => pure f
  | none => Fallible.fail w.r

def fileCreate (path : List (BitVec 8)) : FsM Nat := do
  let w ← walkPath path
  if w.r = 0 then Fallible.fail (-eFileExists)
  else
    match w.pdir with
    | none => Fallible.fail w.r
    | some dir =>
      if w.r ≠ -eNotFound then Fallible.fail w.r
      else
        match ← attempt (dirAllocFile dir) with
        | .error _ => Fallible.fail w.r
        | .ok f =>
          modify fun s => { s with mem := putName s.mem f w.lastelem }
          pure f

def fileRemove (path : List (BitVec 8)) : FsM Unit := do
  let w ← walkPath path
  match w.pfile with
  | none => Fallible.fail w.r
  | some f =>
    fileTruncate f 0
    modify fun s => { s with mem := putByte s.mem (4 * f) 0 }
    fileFlush f
    flushDir f

end Mos
