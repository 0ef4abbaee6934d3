import Mos.Lib.Ring
import Mos.Mmu
/-!
# Pipe — the pipe of `user/lib/pipe.c`

One reading and one writing process, which share the page of a `struct Pipe` and the pages of its two descriptors.  A
process is between two calls, or at one of the places of `pipe_read`, `pipe_write` and `close` where it loads or
stores a field of the pipe, calls the kernel, or asks `_pipe_is_closed`; each of these is a step.  `close` gets to
`pipe_close` through `close` of `user/lib/fd.c`.
-/
namespace Mos

abbrev Byte := BitVec 8

def pipeSize : Nat := 32

structure Pipe where
  rpos : Word
  wpos : Word
  buf : Nat → Byte

/-- The two processes. -/
inductive Who where
  | reader
  | writer
deriving DecidableEq

/-- The two descriptors that `pipe` makes. -/
inductive End where
  | rd
  | wr
deriving DecidableEq

def End.other : End → End
  | .rd => .wr
  | .wr => .rd

/-! ## Who has what mapped -/

/-- The descriptor pages and the pages of the pipe behind them, as the two processes have them mapped. -/
structure PipeMaps where
  fd : Who → End → Bool
  data : Who → End → Bool

namespace PipeMaps

def setFd (m : PipeMaps) (p : Who) (e : End) (b : Bool) : PipeMaps :=
  { m with fd := fun q e' => if q = p ∧ e' = e then b else m.fd q e' }

def setData (m : PipeMaps) (p : Who) (e : End) (b : Bool) : PipeMaps :=
  { m with data := fun q e' => if q = p ∧ e' = e then b else m.data q e' }

/-- `pageref(fd)`, asked by `p`. -/
def fdRef (m : PipeMaps) (p : Who) (e : End) : Nat :=
  if m.fd p e then (m.fd .reader e).toNat + (m.fd .writer e).toNat else 0

/-- `pageref(fd2data(fd))`, asked by `p`. -/
def pipeRef (m : PipeMaps) (p : Who) (e : End) : Nat :=
  if m.data p e then
    (m.data .reader .rd).toNat + (m.data .reader .wr).toNat + (m.data .writer .rd).toNat + (m.data .writer .wr).toNat
  else 0

/-- `_pipe_is_closed`, when nobody else runs meanwhile. -/
def pipeIsClosed (m : PipeMaps) (p : Who) (e : End) : Bool := m.fdRef p e == m.pipeRef p e

end PipeMaps

/-! ## Program counters -/

/-- Where the reader is.  In `pipe_read`, `n` is the length it asked for and `rbuf` what it has stored, so that `i` is
the length of `rbuf` until `p_rpos` is loaded to be incremented. -/
inductive RPc where
  | idle
  /-- `while (p->p_rpos ..` -/
  | rpos (n : Word) (rbuf : List Byte)
  /-- `.. >= p->p_wpos)` -/
  | wpos (n : Word) (rbuf : List Byte) (r : Word)
  /-- `_pipe_is_closed`, after the test loaded `w` -/
  | check (n : Word) (rbuf : List Byte) (w : Word)
  | yield (n : Word) (rbuf : List Byte)
  /-- `p->p_buf[(p->p_rpos) % PIPE_SIZE]`: the position -/
  | index (n : Word) (rbuf : List Byte)
  /-- and the byte -/
  | byte (n : Word) (rbuf : List Byte) (r : Word)
  /-- `p->p_rpos++`: the load -/
  | load (n : Word) (rbuf : List Byte)
  /-- and the store -/
  | store (n : Word) (rbuf : List Byte) (r : Word)
  /-- `pipe_close`: the page of the pipe -/
  | unmapData (e : End)
  /-- `fd_close` -/
  | fdClose (e : End)

/-- Where the writer is.  In `pipe_write`, `wbuf` is what it writes and `i` how much of it is done. -/
inductive WPc where
  | idle
  /-- `while (p->p_wpos ..` -/
  | wpos (wbuf : List Byte) (i : Nat)
  /-- `.. - p->p_rpos >= PIPE_SIZE)` -/
  | rpos (wbuf : List Byte) (i : Nat) (w : Word)
  /-- `_pipe_is_closed` -/
  | check (wbuf : List Byte) (i : Nat)
  | yield (wbuf : List Byte) (i : Nat)
  /-- `p->p_buf[(p->p_wpos) % PIPE_SIZE] = wbuf[i]`: the position -/
  | index (wbuf : List Byte) (i : Nat)
  /-- and the byte -/
  | byte (wbuf : List Byte) (i : Nat) (w : Word)
  /-- `p->p_wpos++`: the load -/
  | load (wbuf : List Byte) (i : Nat)
  /-- and the store -/
  | store (wbuf : List Byte) (i : Nat) (w : Word)
  /-- `pipe_close`: the page of the pipe -/
  | unmapData (e : End)
  /-- `fd_close` -/
  | fdClose (e : End)

/-- The pipe, the two processes, and what went in and came out: the bytes passed to `write`, those `pipe_write` put into
the pipe, those `read` returned, and whether a `read` of at least one byte has returned 0. -/
structure PipeSt where
  pipe : Pipe
  maps : PipeMaps
  rd : RPc
  wr : WPc
  passed : List Byte
  put : List Byte
  returned : List Byte
  eof : Bool

namespace PipeSt

/-- `i` of `pipe_read`. -/
def count (rbuf : List Byte) : Word := BitVec.ofNat 32 rbuf.length

/-! ## `pipe_read` -/

/-- `pipe_read(fd, vbuf, n)` returns `i`, with `rbuf` in the buffer. -/
def readReturn (s : PipeSt) (n : Word) (rbuf : List Byte) : PipeSt :=
  { s with rd := .idle, returned := s.returned ++ rbuf, eof := s.eof || (decide (n ≠ 0) && rbuf.isEmpty) }

/-- The head of the loop of `pipe_read`. -/
def readLoop (s : PipeSt) (n : Word) (rbuf : List Byte) : PipeSt :=
  if count rbuf < n then { s with rd := .rpos n rbuf } else s.readReturn n rbuf

/-- `pipe_read`, when `_pipe_is_closed` answers `closed`. -/
def readAnswer (s : PipeSt) (n : Word) (rbuf : List Byte) (closed : Bool) : PipeSt :=
  if closed then s.readReturn n rbuf else { s with rd := .yield n rbuf }

/-- A step of the reader that is not a question. -/
def readStep (s : PipeSt) : Option PipeSt :=
  match s.rd with
  | .idle => none
  | .rpos n rbuf => some { s with rd := .wpos n rbuf s.pipe.rpos }
  | .wpos n rbuf r =>
    if r ≥ s.pipe.wpos then
      if (count rbuf).toInt > 0 then some (s.readReturn n rbuf) else some { s with rd := .check n rbuf s.pipe.wpos }
    else some { s with rd := .index n rbuf }
  | .check .. => none
  | .yield n rbuf => some { s with rd := .rpos n rbuf }
  | .index n rbuf => some { s with rd := .byte n rbuf s.pipe.rpos }
  | .byte n rbuf r => some { s with rd := .load n (rbuf ++ [s.pipe.buf (r.toNat % pipeSize)]) }
  | .load n rbuf => some { s with rd := .store n rbuf s.pipe.rpos }
  | .store n rbuf r => some ({ s with pipe := { s.pipe with rpos := r + 1 } }.readLoop n rbuf)
  | .unmapData e => some { s with maps := s.maps.setData .reader e false, rd := .fdClose e }
  | .fdClose e => some { s with maps := s.maps.setFd .reader e false, rd := .idle }

/-! ## `pipe_write` -/

/-- The head of the loop of `pipe_write`. -/
def writeLoop (s : PipeSt) (wbuf : List Byte) (i : Nat) : PipeSt :=
  if i < wbuf.length then { s with wr := .wpos wbuf i } else { s with wr := .idle }

/-- `pipe_write`, when `_pipe_is_closed` answers `closed`. -/
def writeAnswer (s : PipeSt) (wbuf : List Byte) (i : Nat) (closed : Bool) : PipeSt :=
  if closed then { s with wr := .idle } else { s with wr := .yield wbuf i }

/-- A step of the writer that is not a question. -/
def writeStep (s : PipeSt) : Option PipeSt :=
  match s.wr with
  | .idle => none
  | .wpos wbuf i => some { s with wr := .rpos wbuf i s.pipe.wpos }
  | .rpos wbuf i w =>
    if w - s.pipe.rpos ≥ BitVec.ofNat 32 pipeSize then some { s with wr := .check wbuf i }
    else some { s with wr := .index wbuf i }
  | .check .. => none
  | .yield wbuf i => some { s with wr := .wpos wbuf i }
  | .index wbuf i => some { s with wr := .byte wbuf i s.pipe.wpos }
  | .byte wbuf i w =>
    wbuf[i]?.map (fun b => { s with
      pipe := { s.pipe with buf := Function.update s.pipe.buf (w.toNat % pipeSize) b }, wr := .load wbuf i })
  | .load wbuf i => some { s with wr := .store wbuf i s.pipe.wpos }
  | .store wbuf i w =>
    some ({ s with pipe := { s.pipe with wpos := w + 1 }, put := s.put ++ wbuf[i]?.toList }.writeLoop wbuf (i + 1))
  | .unmapData e => some { s with maps := s.maps.setData .writer e false, wr := .fdClose e }
  | .fdClose e => some { s with maps := s.maps.setFd .writer e false, wr := .idle }

/-! ## Calls -/

inductive Call where
  | read (n : Word)
  | write (wbuf : List Byte)
  | close (p : Who) (e : End)

/-- A process makes a call: it is between two calls, and `fd_lookup` finds the descriptor.  The length of what is
written is a `u_int`. -/
def call (s : PipeSt) : Call → Option PipeSt
  | .read n =>
    match s.rd with
    | .idle => if s.maps.fd .reader .rd then some (s.readLoop n []) else none
    | _ => none
  | .write wbuf =>
    match s.wr with
    | .idle =>
      if s.maps.fd .writer .wr ∧ wbuf.length < 2 ^ 32 then some ({ s with passed := s.passed ++ wbuf }.writeLoop wbuf 0)
      else none
    | _ => none
  | .close .reader e =>
    match s.rd with
    | .idle =>
      if s.maps.fd .reader e then some { s with maps := s.maps.setFd .reader e false, rd := .unmapData e } else none
    | _ => none
  | .close .writer e =>
    match s.wr with
    | .idle =>
      if s.maps.fd .writer e then some { s with maps := s.maps.setFd .writer e false, wr := .unmapData e } else none
    | _ => none

/-- A pipe that nothing went through, between two processes that are in no call; either may still have both ends, as
after a `fork`. -/
def Fresh (s : PipeSt) : Prop :=
  s.pipe.rpos = 0 ∧ s.pipe.wpos = 0 ∧ s.maps.data = s.maps.fd ∧ s.rd = .idle ∧ s.wr = .idle ∧
    s.passed = [] ∧ s.put = [] ∧
    s.returned = [] ∧ s.eof = false

end PipeSt

/-! ## The machine -/

inductive PipeAct where
  | call (c : PipeSt.Call)
  /-- The next load, store or system call of a process, `_pipe_is_closed` being one step. -/
  | run (p : Who)

/-- One step of the pipe's two processes. -/
def PipeSt.step (s : PipeSt) : PipeAct → Option PipeSt
  | .call c => s.call c
  | .run .reader =>
    match s.rd with
    | .check n rbuf _ => some (s.readAnswer n rbuf (s.maps.pipeIsClosed .reader .rd))
    | _ => s.readStep
  | .run .writer =>
    match s.wr with
    | .check wbuf i => some (s.writeAnswer wbuf i (s.maps.pipeIsClosed .writer .wr))
    | _ => s.writeStep

end Mos
