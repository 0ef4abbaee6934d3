import Mos.PipeShare
import Mos.Serv
import Mos.Syscall
/-!
# Client — descriptors and open files in a client of the file server

`user/lib/fd.c`, `user/lib/file.c` and `user/lib/fsipc.c` in one environment: its page tables, the frames that are
mapped there, and the file server, which answers a request before the client goes on; no other client comes between. 
The pages of open files and the blocks of the disk are frames of the server, so a client that has them sees what the
server has.  A function yields `none` where the client or the server panics, or where the client reads what is not
mapped.
-/
namespace Mos

open Fallible FilePtr

/-- `FILEBASE` -/
def fileBase : Word := 0x60000000

/-- `FDTABLE` -/
def fdTable : Word := fileBase - pdmap

def index2fd (i : Word) : Word := fdTable + i * ptmap
def index2data (i : Word) : Word := fileBase + i * pdmap

def fd2num (fd : Word) : Word := (fd - fdTable) / ptmap

def fd2data (fd : Word) : Word := index2data (fd2num fd)

/-- `f_file.f_size` of a `struct Filefd`, in words. -/
def fFileSize : Nat := 36

/-- `devtab` -/
inductive Dev where
  | file
  | cons
  | pipe
deriving DecidableEq

def Dev.devId : Dev → Word
  | .file => devfileId
  | .cons => 0x63
  | .pipe => 0x70

def devLookup (devId : Word) : Option Dev := [Dev.file, .cons, .pipe].find? fun d => d.devId == devId

namespace Client

/-- A physical page, by what it is for. -/
inductive Frame where
  /-- `opentab[i].o_ff` -/
  | openFile (i : Nat)
  /-- The page of block `b` in the server. -/
  | block (b : Nat)
  | own (n : Nat)
deriving DecidableEq

/-- A valid entry of a page table. -/
structure Page where
  frame : Frame
  perm : Word
deriving DecidableEq

end Client

open Client

structure Client where
  srv : Server
  /-- `pageref` of the pages of the open files. -/
  refs : Nat → Nat
  /-- The page tables, by `PDX`, and their entries, by `PTX`. -/
  tables : Nat → Option (Nat → Option Page)
  /-- The words of the other frames. -/
  mem : Nat → Nat → Word
  /-- Whether the next page tables are granted; at the end of the list they are. -/
  supply : List Bool

abbrev ClientM := Fallible Client

namespace Client

/-- The entry for an address. -/
def page (c : Client) (va : Word) : Option Page := (c.tables (pdx va)).bind fun t => t (ptx va)

def Mapped (c : Client) (va : Word) : Prop := (c.page va).isSome

instance (c : Client) (va : Word) : Decidable (c.Mapped va) := inferInstanceAs (Decidable ((c.page va).isSome = true))

/-- The references to the page of an open file, when an entry is written. -/
def retake (refs : Nat → Nat) (old new : Option Page) : Nat → Nat := fun i =>
  let one (p : Option Page) := if p.map (·.frame) = some (.openFile i) then 1 else 0
  refs i - one old + one new

/-- An entry of a page table is written. -/
def setPage (c : Client) (va : Word) (t : Nat → Option Page) (new : Option Page) : Client :=
  { c with
    refs := retake c.refs (t (ptx va)) new
    tables := Function.update c.tables (pdx va) (some (Function.update t (ptx va) new)) }

/-- The words of a frame. -/
def words (c : Client) : Frame → Nat → Word
  | .openFile i => c.srv.oFf i
  | .block b => fun w => c.srv.fs.mem (diskAddr b + w)
  | .own n => c.mem n

def setWord (c : Client) (w : Nat) (x : Word) : Frame → Client
  | .openFile i =>
    { c with srv := { c.srv with oFf := Function.update c.srv.oFf i (Function.update (c.srv.oFf i) w x) } }
  | .block b =>
    { c with srv := { c.srv with fs := { c.srv.fs with mem := Function.update c.srv.fs.mem (diskAddr b + w) x } } }
  | .own n => { c with mem := Function.update c.mem n (Function.update (c.mem n) w x) }

/-! ## System calls -/

def pageInsert (va : Word) (fr : Frame) (perm : Word) : ClientM Unit := fun c =>
  let new : Page := ⟨fr, perm ||| pteCCacheable ||| pteV⟩
  match c.tables (pdx va) with
  | some t => some (.ok (), c.setPage va t (some new))
  | none =>
    if c.supply.headD true then some (.ok (), { c with supply := c.supply.tail }.setPage va (fun _ => none) (some new))
    else some (.error (-eNoMem), { c with supply := c.supply.tail })

/-- `syscall_mem_map(0, srcva, 0, dstva, perm)` -/
def memMap (srcva dstva perm : Word) : ClientM Unit := do
  if isIllegalVa srcva || isIllegalVa dstva then Fallible.fail (-eInval)
  else
    let c ← Fallible.read id
    match c.page srcva with
    | none => Fallible.fail (-eInval)
    | some p => Client.pageInsert dstva p.frame perm

/-- `syscall_mem_unmap(0, va)` -/
def memUnmap (va : Word) : ClientM Unit := fun c =>
  if isIllegalVa va then some (.error (-eInval), c)
  else
    match c.tables (pdx va) with
    | none => some (.ok (), c)
    | some t => some (.ok (), c.setPage va t none)

/-- `vpt[VPN(va)]`; without the page table the kernel enters an empty one, a page like any other (`passive_alloc`). -/
def vpt (va : Word) : ClientM (Option Page) := fun c =>
  match c.tables (pdx va) with
  | some t => some (.ok (t (ptx va)), c)
  | none =>
    if c.supply.headD true then
      some (.ok none, { c with
        tables := Function.update c.tables (pdx va) (some fun _ => none)
        supply := c.supply.tail })
    else none

/-! ## Requests -/

/-- `open_alloc` has taken a page for the entry. -/
def afterAlloc (refs : Nat → Nat) (s : Server) : Nat → Nat :=
  match (List.range maxOpen).find? fun i => decide (refs i ≤ 1) with
  | none => refs
  | some i => if refs i = 0 ∧ s.fs.pages.headD true then Function.update refs i 1 else refs

def isOpen : Fsreq → Bool
  | .openFile _ _ => true
  | _ => false

def replyFrame : ReplyPage → Option Frame
  | .none => none
  | .openFile i => some (.openFile i)
  | .block b => some (.block b)

/-- `fsipc`: the handler answers every request, and the page goes to `dstva`.  When there is no page table for it, the
`ipc_send` of the server fails, and the server panics; an illegal `dstva` is a panic of `ipc_recv`. -/
def fsipc (req : Fsreq) (dstva : Word) : ClientM Unit := fun c =>
  if dstva ≠ 0 ∧ isIllegalVa dstva then none
  else
    (serveTable c.refs req c.srv).bind fun r =>
      let c₁ := { c with srv := r.2, refs := if isOpen req then afterAlloc c.refs c.srv else c.refs }
      match r.1 with
      | .error _ => none
      | .ok reply =>
        if reply.value < 0 then some (.error reply.value, c₁)
        else if dstva = 0 then some (.ok (), c₁)
        else
          match replyFrame reply.page with
          | none => some (.ok (), c₁)
          | some fr => orPanic (Client.pageInsert dstva fr (pteD ||| pteLibrary)) c₁

def fsipcOpen (path : List (BitVec 8)) (omode fd : Word) : ClientM Unit := do
  if maxPathLen ≤ path.length then Fallible.fail (-eBadPath) else fsipc (.openFile path omode) fd

/-- `fsipc_map`; the server sends its pages with `PTE_D | PTE_LIBRARY`. -/
def fsipcMap (fileid offset dstva : Word) : ClientM Unit := fsipc (.map fileid offset) dstva

def fsipcSetSize (fileid size : Word) : ClientM Unit := fsipc (.setSize fileid size) 0

def fsipcClose (fileid : Word) : ClientM Unit := fsipc (.close fileid) 0

def fsipcDirty (fileid offset : Word) : ClientM Unit := fsipc (.dirty fileid offset) 0

/-! ## Descriptors -/

/-- A word of the page of a descriptor. -/
def field (fd : Word) (w : Nat) : ClientM Word := fun c => (c.page fd).map fun p => (.ok (c.words p.frame w), c)

def setField (fd : Word) (w : Nat) (x : Word) : ClientM Unit := fun c =>
  (c.page fd).map fun p => (.ok (), c.setWord w x p.frame)

def fdAlloc (c : Client) : Option Word :=
  ((List.range (maxFd - 1)).map fun i => index2fd (BitVec.ofNat 32 i)).find? fun va => !decide (c.Mapped va)

/-- `fd_lookup`; `fdnum` is signed. -/
def fdLookup (fdnum : Word) : ClientM Word := do
  if (maxFd : Int) ≤ fdnum.toInt then Fallible.fail (-eInval)
  else
    match ← vpt (index2fd fdnum) with
    | none => Fallible.fail (-eInval)
    | some _ => pure (index2fd fdnum)

/-! ## Files -/

/-- The offsets of the pages of the data, from `i` up to `size`, a page apart. -/
def pagesOf (i size : Nat) : List Word :=
  (List.range ((size - i + pageSize - 1) / pageSize)).map fun k => BitVec.ofNat 32 (i + k * pageSize)

def mapAll (fileid va : Word) : List Word → ClientM Unit
  | [] => pure ()
  | i :: is => do
    fsipcMap fileid i (va + i)
    mapAll fileid va is

def dirtyAll (fileid : Word) : List Word → ClientM Unit
  | [] => pure ()
  | i :: is => do
    fsipcDirty fileid i
    dirtyAll fileid is

def unmapAll (va : Word) : List Word → ClientM Unit
  | [] => pure ()
  | i :: is => do
    memUnmap (va + i)
    unmapAll va is

/-- `open`, up to the reply of the server. -/
def openFd (path : List (BitVec 8)) (mode : Word) : ClientM Word := do
  let c ← Fallible.read id
  match c.fdAlloc with
  | none => Fallible.fail (-eMaxOpen)
  | some fd =>
    fsipcOpen path mode fd
    pure fd

/-- `open` -/
def openFile (path : List (BitVec 8)) (mode : Word) : ClientM Word := do
  let fd ← openFd path mode
  let size ← field fd fFileSize
  let fileid ← field fd fFileid
  mapAll fileid (fd2data fd) (pagesOf 0 size.toNat)
  pure (fd2num fd)

def fileClose (fd : Word) : ClientM Unit := do
  let fileid ← field fd fFileid
  let size ← field fd fFileSize
  dirtyAll fileid (pagesOf 0 size.toNat)
  fsipcClose fileid
  unmapAll (fd2data fd) (pagesOf 0 size.toNat)

def pipeClose (fd : Word) : ClientM Unit := do
  let _ ← attempt (memUnmap fd)
  let _ ← attempt (memUnmap (fd2data fd))
  pure ()

def devClose : Dev → Word → ClientM Unit
  | .file, fd => Client.fileClose fd
  | .cons, _ => pure ()
  | .pipe, fd => pipeClose fd

def close (fdnum : Word) : ClientM Unit := do
  let fd ← fdLookup fdnum
  let devId ← field fd fdDevId
  match devLookup devId with
  | none => Fallible.fail (-eInval)
  | some dev =>
    let r ← attempt (devClose dev fd)
    orPanic (memUnmap fd)
    match r with
    | .ok _ => pure ()
    | .error e => Fallible.fail e

/-- What a transfer comes to: the address in the data of the descriptor, the number of bytes that are copied, and the
value that is returned. -/
structure Copy where
  va : Word
  len : Nat
  ret : Word
deriving DecidableEq

/-- The bytes are at addresses of the user, below `top`. -/
def InUser (top va : Word) (n : Nat) : Prop := utemp.toNat ≤ va.toNat ∧ va.toNat + n ≤ top.toNat

instance (top va : Word) (n : Nat) : Decidable (InUser top va n) := inferInstanceAs (Decidable (_ ∧ _))

/-- `memcpy`, as the number of bytes that it copies.  No byte is copied when `max = dst + n` is not behind `dst`, as
when the sum wraps; the loop over words is still entered when `dst + 4` wraps too, and stores where the user may not. 
The pages of the user are there, or are given when they are touched. -/
def memcpy (dst src n : Word) : ClientM Nat :=
  let max := dst + n
  if dst < max then
    if InUser utop dst n.toNat ∧ InUser ulim src n.toNat then pure n.toNat else panic
  else if dst &&& 3 = src &&& 3 ∧ dst + 4 ≤ max then panic
  else pure 0

def fileRead (fd buf n offset : Word) : ClientM Copy := do
  let size ← field fd fFileSize
  let va := fd2data fd + offset
  if size < offset then pure ⟨va, 0, 0⟩
  else
    let n := if size < offset + n then size - offset else n
    let len ← memcpy buf va n
    pure ⟨va, len, n⟩

/-- `MAXFILESIZE` as a word. -/
def maxFileSizeW : Word := BitVec.ofNat 32 maxFileSize

/-- `ROUND(size, PTMAP)` -/
def roundUp (size : Word) : Word := (size + 4095) &&& ~~~4095

/-- The loop of `ftruncate` over the new pages. -/
def mapNew (fileid va oldsize : Word) : List Word → ClientM Unit
  | [] => pure ()
  | i :: is => do
    match ← attempt (fsipcMap fileid i (va + i)) with
    | .ok _ => mapNew fileid va oldsize is
    | .error r =>
      fsipcSetSize fileid oldsize
      Fallible.fail r

def ftruncate (fdnum size : Word) : ClientM Unit := do
  if maxFileSizeW < size then Fallible.fail (-eNoDisk)
  else
    let fd ← fdLookup fdnum
    let devId ← field fd fdDevId
    if devId ≠ devfileId then Fallible.fail (-eInval)
    else
      let fileid ← field fd fFileid
      let oldsize ← field fd fFileSize
      setField fd fFileSize size
      fsipcSetSize fileid size
      mapNew fileid (fd2data fd) oldsize (pagesOf (roundUp oldsize).toNat (roundUp size).toNat)
      orPanic (unmapAll (fd2data fd) (pagesOf (roundUp size).toNat (roundUp oldsize).toNat))

def fileWrite (fd buf n offset : Word) : ClientM Copy := do
  let tot := offset + n
  let va := fd2data fd + offset
  if maxFileSizeW < tot then Fallible.fail (-eNoDisk)
  else
    let size ← field fd fFileSize
    if size < tot then ftruncate (fd2num fd) tot
    let len ← memcpy va buf n
    pure ⟨va, len, n⟩

/-! ## `dup` -/

/-- The loop of `dup` over the pages of the data. -/
def mapData (ova nva : Word) : List Word → ClientM Unit
  | [] => pure ()
  | i :: is => do
    match ← vpt (ova + i) with
    | none => mapData ova nva is
    | some p =>
      memMap (ova + i) (nva + i) (p.perm &&& (pteD ||| pteLibrary))
      mapData ova nva is

/-- The offsets of the pages of a data region. -/
def dataPages : List Word := pagesOf 0 pdmap.toNat

/-- The last `syscall_mem_map` of `dup`. -/
def mapFd (oldfd newfd : Word) : ClientM Unit := do
  match ← vpt oldfd with
  | none => memMap oldfd newfd 0
  | some p => memMap oldfd newfd (p.perm &&& (pteD ||| pteLibrary))

/-- The pages of the data, if there is a page table for them, and the descriptor. -/
def share (oldfd newfd : Word) : ClientM Unit := do
  let c ← Fallible.read id
  if (c.tables (pdx (fd2data oldfd))).isSome then
    mapData (fd2data oldfd) (fd2data newfd) dataPages
    mapFd oldfd newfd
  else mapFd oldfd newfd

def dup (oldfdnum newfdnum : Word) : ClientM Word := do
  let oldfd ← fdLookup oldfdnum
  let _ ← attempt (close newfdnum)
  let newfd := index2fd newfdnum
  match ← attempt (share oldfd newfd) with
  | .ok _ => pure newfdnum
  | .error r =>
    orPanic (memUnmap newfd)
    orPanic (unmapAll (fd2data newfd) dataPages)
    Fallible.fail r

end Client
end Mos
