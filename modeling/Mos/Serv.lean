import Mos.Fs
/-!
# Serv — the requests to the file server

The handlers of `fs/serv.c` on the table of the open files.  Which environments have the page of an open file is the
kernel's to say, so `pageref(opentab[i].o_ff)` is an argument of every handler.  What a handler gives to `ipc_send` is
its reply.
-/
namespace Mos

open Fallible FilePtr

def maxOpen : Nat := 1024

def oCreat : Word := 0x0100
def oTrunc : Word := 0x0200
def oAppend : Word := 0x0004
def oMkdir : Word := 0x0800

/-- `devfile.dev_id` -/
def devfileId : Word := 0x66

/-- `struct Filefd`, in words. -/
def fdDevId : Nat := 0
def fdOffset : Nat := 1
def fdOmode : Nat := 2
def fFileid : Nat := 3
def fFile : Nat := 4

/-- The file system and `opentab`; the page of entry `i` is `o_ff` of that entry. -/
structure Server where
  fs : Fs
  oFile : Nat → Nat
  oMode : Nat → Word
  oFf : Nat → Nat → Word

abbrev ServM := Fallible Server

/-- The page that goes with a reply. -/
inductive ReplyPage where
  | none
  /-- `opentab[i].o_ff` -/
  | openFile (i : Nat)
  /-- `disk_addr(b)` -/
  | block (b : Nat)
deriving DecidableEq

/-- The value and the page of an `ipc_send`. -/
structure Reply where
  value : Int
  page : ReplyPage
deriving DecidableEq

namespace Serv

/-- A function of `fs/fs.c`. -/
def onFs {α : Type} (x : FsM α) : ServM α := fun s => (x s.fs).map fun r => (r.1, { s with fs := r.2 })

/-- An error code is answered without a page. -/
def answer (x : ServM Reply) : ServM Reply := do
  match ← attempt x with
  | .ok r => pure r
  | .error e => pure ⟨e, .none⟩

/-- `open_alloc`: the first entry whose page no client has; its page is zeroed. -/
def openAlloc (refs : Nat → Nat) : ServM Nat := do
  match (List.range maxOpen).find? fun i => decide (refs i ≤ 1) with
  | none => Fallible.fail (-eMaxOpen)
  | some i =>
    if refs i = 0 then
      onFs fun s => if s.pages.headD true then some (.ok (), { s with pages := s.pages.tail })
        else some (.error (-eNoMem), { s with pages := s.pages.tail })
    modify fun s => { s with oFf := Function.update s.oFf i fun _ => 0 }
    pure i

/-- `open_lookup`: it does not look at the `envid` it is given. -/
def openLookup (refs : Nat → Nat) (fileid : Word) : ServM Nat := do
  if maxOpen ≤ fileid.toNat then Fallible.fail (-eInval)
  else if refs fileid.toNat ≤ 1 then Fallible.fail (-eInval)
  else pure fileid.toNat

/-- `file_create` for one of the mode bits of an open. -/
def createIf (b : Bool) (path : List (BitVec 8)) : ServM Unit := do
  if b then
    match ← attempt (onFs (fileCreate path)) with
    | .ok _ => pure ()
    | .error r => if r = -eFileExists then pure () else Fallible.fail r
  else pure ()

/-- The `struct Filefd` of entry `i`. -/
def fillFilefd (i f : Nat) (omode : Word) : ServM Unit := modify fun s =>
  let page := s.oFf i
  let size := s.fs.mem (fSize f)
  { s with
    oMode := Function.update s.oMode i omode
    oFf := Function.update s.oFf i fun w =>
      if w = fdDevId then devfileId
      else if w = fdOffset then (if omode &&& oAppend ≠ 0 then size else page w)
      else if w = fdOmode then omode
      else if w = fFileid then BitVec.ofNat 32 i
      else if fFile ≤ w ∧ w < fFile + fileWords then s.fs.mem (f + (w - fFile))
      else page w }

/-- `serve_open`; `file_set_size` has no error code to return. -/
def serveOpen (refs : Nat → Nat) (path : List (BitVec 8)) (omode : Word) : ServM Reply := answer do
  let i ← openAlloc refs
  createIf (omode &&& oMkdir != 0) path
  createIf (omode &&& oCreat != 0) path
  let f ← onFs (fileOpen path)
  if omode &&& oMkdir ≠ 0 then onFs (storeWord (fType f) ftypeDir)
  modify fun s => { s with oFile := Function.update s.oFile i f }
  if omode &&& oTrunc ≠ 0 then onFs (fileSetSize f 0)
  fillFilefd i f omode
  pure ⟨0, .openFile i⟩

/-- A handler that works on an open file. -/
def onOpen (refs : Nat → Nat) (fileid : Word) (op : Nat → FsM ReplyPage) : ServM Reply := answer do
  let i ← openLookup refs fileid
  let s ← Fallible.read id
  let page ← onFs (op (s.oFile i))
  pure ⟨0, page⟩

def serveMap (refs : Nat → Nat) (fileid offset : Word) : ServM Reply :=
  onOpen refs fileid fun f => do
    let blk ← fileGetBlock f (offset.toNat / blockSize)
    pure (.block (blk / blockWords))

def serveSetSize (refs : Nat → Nat) (fileid size : Word) : ServM Reply :=
  onOpen refs fileid fun f => do
    fileSetSize f size
    pure .none

def serveClose (refs : Nat → Nat) (fileid : Word) : ServM Reply :=
  onOpen refs fileid fun f => do
    fileClose f
    pure .none

def serveDirty (refs : Nat → Nat) (fileid offset : Word) : ServM Reply :=
  onOpen refs fileid fun f => do
    fileDirty f offset
    pure .none

def serveRemove (path : List (BitVec 8)) : ServM Reply := answer do
  onFs (fileRemove path)
  pure ⟨0, .none⟩

def serveSync : ServM Reply := do
  onFs fsSync
  pure ⟨0, .none⟩

end Serv

/-- A request, with its argument page. -/
inductive Fsreq where
  | openFile (path : List (BitVec 8)) (omode : Word)
  | map (fileid offset : Word)
  | setSize (fileid size : Word)
  | close (fileid : Word)
  | dirty (fileid offset : Word)
  | remove (path : List (BitVec 8))
  | sync

def serveTable (refs : Nat → Nat) : Fsreq → ServM Reply
  | .openFile path omode => Serv.serveOpen refs path omode
  | .map fileid offset => Serv.serveMap refs fileid offset
  | .setSize fileid size => Serv.serveSetSize refs fileid size
  | .close fileid => Serv.serveClose refs fileid
  | .dirty fileid offset => Serv.serveDirty refs fileid offset
  | .remove path => Serv.serveRemove path
  | .sync => Serv.serveSync

/-- The open file that a request names. -/
def Fsreq.fileid : Fsreq → Option Word
  | .map fileid _ | .setSize fileid _ | .close fileid | .dirty fileid _ => some fileid
  | _ => none

end Mos
