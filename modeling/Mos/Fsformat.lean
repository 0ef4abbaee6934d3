import Mathlib.Data.List.DropRight
import Mos.Fs
/-!
# Fsformat — the image of the disk (`tools/fsformat.c`)

The tool puts files and directories of the host into `disk`, from block 3 on, and writes `disk` to the image.  `disk`
and the variable `super` are one memory of words: block `b` has the words from `b * 1024` on, `super` stands behind
the last block, and a `struct File *` is the number of its first word.  A function yields `none` where an assertion
fails, and where the tool writes behind the end of `disk`.
-/
namespace Mos

/-! ## The host -/

mutual

/-- A file or a directory of the host. -/
inductive HostNode where
  | file (data : List (BitVec 8))
  | dir (entries : HostDir)

/-- The entries of a directory, in the order in which `readdir` comes to them. -/
inductive HostDir where
  | nil
  | snoc (before : HostDir) (name : List (BitVec 8)) (node : HostNode)

end

namespace Fsformat

open Fallible FilePtr

def nblock : Nat := 1024

/-- Where `super` stands. -/
def superBase : Nat := nblock * blockWords

/-- `&super.s_root` -/
def superRoot : Nat := superBase + 2

structure Image where
  /-- The blocks of `disk`, and `super`. -/
  mem : Nat → Word
  nextbno : Nat

abbrev FormatM := Fallible Image

def loadWord (a : Nat) : FormatM Word := Fallible.read fun d => d.mem a

def storeWord (a : Nat) (w : Word) : FormatM Unit := modify fun d => { d with mem := Function.update d.mem a w }

/-- `memset`, from byte `c` on -/
def memset (m : Nat → Word) (c : Nat) (b : BitVec 8) (n : Nat) : Nat → Word :=
  (List.range n).foldl (fun m i => putByte m (c + i) b) m

/-! ## Blocks -/

def nbitblock : Nat := (nblock + blockSizeBit - 1) / blockSizeBit

def initDisk : FormatM Unit := modify fun d =>
  let m := (List.range nbitblock).foldl (fun m i => memset m (4 * diskAddr (2 + i)) 0xFF blockSize) d.mem
  let diff := nblock % blockSizeBit / 8
  let m := if nblock ≠ nbitblock * blockSizeBit then
      memset m (4 * diskAddr (2 + (nbitblock - 1)) + diff) 0 (blockSize - diff)
    else m
  let m := Function.update m superBase fsMagic
  let m := Function.update m (superBase + 1) (BitVec.ofNat 32 nblock)
  let m := Function.update m (fType superRoot) ftypeDir
  ⟨putName m superRoot [slash], 2 + nbitblock⟩

def nextBlock : FormatM Nat := do
  let d ← Fallible.read id
  assert (decide (d.nextbno < nblock))
  modify fun d => { d with nextbno := d.nextbno + 1 }
  pure d.nextbno

/-- The bit of block `i` in the bitmap is cleared. -/
def markUsed (m : Nat → Word) (i : Nat) : Nat → Word :=
  let a := diskAddr (2 + i / blockSizeBit) + i % blockSizeBit / 32
  Function.update m a (m a &&& ~~~BitVec.twoPow 32 (i % 32))

def flushBitmap : FormatM Unit := modify fun d => { d with mem := (List.range d.nextbno).foldl markUsed d.mem }

/-- `finish_fs`: the image, the blocks of `disk` with the super block in its place -/
def finishFs : FormatM (Nat → Word) := Fallible.read fun d a =>
  if diskAddr 1 ≤ a ∧ a < diskAddr 1 + (2 + fileWords) then d.mem (superBase + (a - diskAddr 1)) else d.mem a

/-! ## Directories -/

def saveBlockLink (f nblk bno : Nat) : FormatM Unit := do
  assert (decide (nblk < nIndirect))
  if nblk < nDirect then storeWord (fDirect f nblk) (BitVec.ofNat 32 bno)
  else do
    let r ← loadWord (fIndirect f)
    if r = 0 then
      let b ← nextBlock
      storeWord (fIndirect f) (BitVec.ofNat 32 b)
    let r ← loadWord (fIndirect f)
    storeWord (diskAddr r.toNat + nblk) (BitVec.ofNat 32 bno)

def makeLinkBlock (dirf nblk : Nat) : FormatM Nat := do
  let bno ← nextBlock
  saveBlockLink dirf nblk bno
  let size ← loadWord (fSize dirf)
  storeWord (fSize dirf) (size + 4096)
  pure bno

/-- The word with the number of a block of the directory. -/
def blockLink (dirf i : Nat) : FormatM Nat :=
  if i < nDirect then pure (fDirect dirf i)
  else do
    let r ← loadWord (fIndirect dirf)
    pure (diskAddr r.toNat + i)

/-- The unused entry that `create_file` looks for, from one of the blocks on. -/
def unusedFrom (dirf : Nat) : List Nat → FormatM (Option Nat)
  | [] => pure none
  | i :: is => do
    let a ← blockLink dirf i
    let bno ← loadWord a
    let d ← Fallible.read id
    match (entries (diskAddr bno.toNat)).find? fun f => fName d.mem f 0 == 0 with
    | some f => pure (some f)
    | none => unusedFrom dirf is

def createFile (dirf : Nat) : FormatM Nat := do
  let size ← loadWord (fSize dirf)
  let nblk := size.toNat / blockSize
  match ← unusedFrom dirf (List.range nblk) with
  | some f => pure f
  | none => do
    let bno ← makeLinkBlock dirf nblk
    pure (diskAddr bno)

/-! ## Files -/

/-- The name behind the last slash, which `strrchr` finds. -/
def fileName (path : List (BitVec 8)) : List (BitVec 8) := path.rtakeWhile (· != slash)

/-- `basename` -/
def baseName (path : List (BitVec 8)) : List (BitVec 8) :=
  if path = [] then [0x2E]
  else if path.rdropWhile (· == slash) = [] then [slash]
  else fileName (path.rdropWhile (· == slash))

/-- `strncpy(f->f_name, name, n)` -/
def putNameUpto (m : Nat → Word) (f : Nat) (name : List (BitVec 8)) (n : Nat) : Nat → Word :=
  (List.range n).foldl (fun m i => putByte m (4 * f + i) (name.getD i 0)) m

/-- What `read` puts to byte `c`. -/
def putData (m : Nat → Word) (c : Nat) (data : List (BitVec 8)) : Nat → Word :=
  (List.range data.length).foldl (fun m i => putByte m (c + i) (data.getD i 0)) m

/-- The `BLOCK_SIZE` bytes, or fewer at the end, that one `read` comes to. -/
def chunk (data : List (BitVec 8)) (iblk : Nat) : List (BitVec 8) := (data.drop (blockSize * iblk)).take blockSize

/-- How often `read` comes to any bytes. -/
def chunks (data : List (BitVec 8)) : Nat := (data.length + (blockSize - 1)) / blockSize

/-- The loop of `write_file`; the block is taken after its bytes are there. -/
def writeBlocks (target : Nat) (data : List (BitVec 8)) : List Nat → FormatM Unit
  | [] => pure ()
  | iblk :: iblks => do
    modify fun d => { d with mem := putData d.mem (4 * diskAddr d.nextbno) (chunk data iblk) }
    let bno ← nextBlock
    saveBlockLink target iblk bno
    writeBlocks target data iblks

def writeFile (dirf : Nat) (path data : List (BitVec 8)) : FormatM Unit := do
  let target ← createFile dirf
  modify fun d => { d with mem := putName d.mem target (fileName path) }
  storeWord (fSize target) (BitVec.ofNat 32 data.length)
  storeWord (fType target) ftypeReg
  writeBlocks target data (List.range (chunks data))

/-- `write_directory`, before it goes over the entries -/
def makeDirectory (dirf : Nat) (path : List (BitVec 8)) : FormatM Nat := do
  let pdir ← createFile dirf
  modify fun d => { d with mem := putNameUpto d.mem pdir (baseName path) (maxNameLen - 1) }
  let d ← Fallible.read id
  -- "file name is too long"
  assert (fName d.mem pdir (maxNameLen - 1) == 0)
  storeWord (fType pdir) ftypeDir
  pure pdir

/-- `strcmp(e->d_name, ".") == 0` or `strcmp(e->d_name, "..") == 0` -/
def isDot (name : List (BitVec 8)) : Bool := name == [0x2E] || name == [0x2E, 0x2E]

mutual

/-- `write_directory` or `write_file` -/
def writeNode (dirf : Nat) (path : List (BitVec 8)) : HostNode → FormatM Unit
  | .file data => writeFile dirf path data
  | .dir entries => do
    let pdir ← makeDirectory dirf path
    writeEntries pdir path entries

def writeEntries (pdir : Nat) (path : List (BitVec 8)) : HostDir → FormatM Unit
  | .nil => pure ()
  | .snoc before name node => do
    writeEntries pdir path before
    if isDot name then pure () else writeNode pdir (path ++ slash :: name) node

end

/-- The arguments of `main`, each with what the host has under the path. -/
abbrev Args := List (List (BitVec 8) × HostNode)

def writeArgs : Args → FormatM Unit
  | [] => pure ()
  | (path, node) :: args => do
    writeNode superRoot path node
    writeArgs args

def format (args : Args) : FormatM (Nat → Word) := do
  initDisk
  assert (!args.isEmpty)
  writeArgs args
  flushBitmap
  finishFs

/-- `main`: the image that it writes -/
def main (args : Args) : Option (Nat → Word) := (format args ⟨fun _ => 0, 0⟩).bind fun r => r.1.toOption

end Fsformat

end Mos
