import Mos.Dup
import Mos.Transfers
/-!
# ReadWrite — `read`, `write` and `seek` through a descriptor

What `user/lib/fd.c` does before and after the functions of the device.  Those of the console and of a pipe are given;
those of a file copy between the buffer of the caller and the pages of its data, a byte at a time.
-/
namespace Mos

open Fallible FilePtr

/-- `O_WRONLY`, `O_RDONLY`, `O_ACCMODE` -/
def oWronly : Word := 1
def oRdonly : Word := 0
def oAccmode : Word := 3

namespace Client

/-- The byte at an address. -/
def loadByte (va : Word) : ClientM (BitVec 8) := fun c =>
  (c.page va).map fun p => (.ok (getByte (c.words p.frame (va.toNat % pageSize / 4)) (va.toNat % 4)), c)

def storeByte (va : Word) (b : BitVec 8) : ClientM Unit := fun c =>
  (c.page va).map fun p =>
    let w := va.toNat % pageSize / 4
    (.ok (), c.setWord w (setByte (c.words p.frame w) (va.toNat % 4) b) p.frame)

/-- What `memcpy` copies to the buffer. -/
def load (va : Word) : Nat → ClientM (List (BitVec 8))
  | 0 => pure []
  | n + 1 => do
    let b ← loadByte va
    let bs ← load (va + 1) n
    pure (b :: bs)

/-- What `memcpy` copies from the buffer. -/
def store (va : Word) : List (BitVec 8) → ClientM Unit
  | [] => pure ()
  | b :: bs => do
    storeByte va b
    store (va + 1) bs

/-- `dev_read` and `dev_write` of the devices that are no files: what they return, and what is put into the buffer at
the address; what is written is at the address. -/
structure Drivers where
  devRead : Dev → Word → Word → Word → Word → ClientM (Word × List (BitVec 8))
  devWrite : Dev → Word → Word → List (BitVec 8) → Word → ClientM Word

variable (drivers : Drivers)

/-- `dev_read`: what it returns, and the bytes that come to `buf`. -/
def devRead : Dev → Word → Word → Word → Word → ClientM (Word × List (BitVec 8))
  | .file, fd, buf, n, offset => do
    let x ← fileRead fd buf n offset
    let bytes ← load x.va x.len
    pure (x.ret, bytes)
  | dev, fd, buf, n, offset => drivers.devRead dev fd buf n offset

/-- `dev_write`, when `bytes` are at `buf`. -/
def devWrite : Dev → Word → Word → List (BitVec 8) → Word → ClientM Word
  | .file, fd, buf, bytes, offset => do
    let x ← fileWrite fd buf (BitVec.ofNat 32 bytes.length) offset
    store x.va (bytes.take x.len)
    pure x.ret
  | dev, fd, buf, bytes, offset => drivers.devWrite dev fd buf bytes offset

/-- `fd->fd_offset += r`, where `r` is positive. -/
def advance (fd r : Word) : ClientM Unit :=
  if 0 < r.toInt then do
    let offset ← field fd fdOffset
    setField fd fdOffset (offset + r)
  else pure ()

/-- The descriptor and its device. -/
def lookups (fdnum : Word) : ClientM (Word × Dev) := do
  let fd ← fdLookup fdnum
  let devId ← field fd fdDevId
  match devLookup devId with
  | none => Fallible.fail (-eInval)
  | some dev => pure (fd, dev)

/-- `read`: what it returns, and the bytes that come to `buf`. -/
def read (fdnum buf n : Word) : ClientM (Word × List (BitVec 8)) := do
  let (fd, dev) ← lookups fdnum
  let omode ← field fd fdOmode
  if omode &&& oAccmode = oWronly then Fallible.fail (-eInval)
  else
    let offset ← field fd fdOffset
    let r ← devRead drivers dev fd buf n offset
    advance fd r.1
    pure r

/-- `write`, when `bytes` are at `buf`. -/
def write (fdnum buf : Word) (bytes : List (BitVec 8)) : ClientM Word := do
  let (fd, dev) ← lookups fdnum
  let omode ← field fd fdOmode
  if omode &&& oAccmode = oRdonly then Fallible.fail (-eInval)
  else
    let offset ← field fd fdOffset
    let r ← devWrite drivers dev fd buf bytes offset
    advance fd r
    pure r

def seek (fdnum offset : Word) : ClientM Unit := do
  let fd ← fdLookup fdnum
  setField fd fdOffset offset

end Client
end Mos
