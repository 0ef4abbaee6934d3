import Mos.Pipe
import Mos.Lib.Run
/-!
# PipeShare — the descriptors of one pipe in any number of processes

What every process has mapped of the two descriptor pages and the page of a pipe, and the reference counts of these
three. A step is one system call of `pipe`, `close`, `dup` (`user/lib/fd.c`) or `fork` (`user/lib/fork.c`), whose
loops are unrolled; a turn of a loop that makes no system call is passed over.  Pages are page numbers of 32-bit
addresses, so a descriptor number out of range maps where the arithmetic of `INDEX2FD` and `INDEX2DATA` says.
-/
namespace Mos

/-- A page of the pipe. -/
inductive PipePage where
  | fd (e : End)
  | data
deriving DecidableEq

/-- `MAXFD` -/
def maxFd : Nat := 32

/-- The number of virtual pages. -/
def vpns : Nat := 2 ^ 20

/-- `VPN(INDEX2FD(i))` -/
def fdVpn (i : Nat) : Nat := (0x5fc00 + i) % vpns

/-- `VPN(INDEX2DATA(i))`, as `fd2data` has it -/
def dataVpn (i : Nat) : Nat := (0x60000 + i * 1024) % vpns

/-- `VPN(USTACKTOP)` -/
def vpnUstacktop : Nat := 0x7f3fe

/-- `is_illegal_va` does not refuse the page. -/
def legalVpn (v : Nat) : Bool := decide (0x3fe ≤ v ∧ v < 0x7f400)

/-- Where a process is in its call; `ret` is the `dup` that called `close`. -/
inductive SharePc where
  | idle
  /-- `pipe`: the four calls that map its pages, with the numbers that `fd_alloc` found -/
  | pipe (k i j : Nat)
  /-- `pipe_close`, the descriptor -/
  | closeFd (i : Nat) (ret : Option (Nat × Nat))
  /-- `pipe_close`, the pipe -/
  | closeData (i : Nat) (ret : Option (Nat × Nat))
  /-- `fd_close` -/
  | fdClose (i : Nat) (ret : Option (Nat × Nat))
  /-- the loop of `dup`, at page `k` of the data -/
  | dupMap (o n k : Nat)
  | dupFd (o n : Nat)
  /-- `err:` of `dup` -/
  | dupErr (n : Nat)
  | dupErrData (n k : Nat)
  /-- the loop of `fork`, at page `v`, for the child `c` -/
  | fork (c v : Nat)
  /-- a child that `fork` has not made runnable yet -/
  | embryo (parent : Nat)
  /-- `user_panic` -/
  | panicked
deriving DecidableEq

/-- A process: where it is, and the pages of the pipe in its address space.  All of these are in `dom`. -/
structure Sharer where
  pc : SharePc
  pages : Nat → Option PipePage
  dom : List Nat

structure Sharing where
  procs : Nat → Option Sharer
  nprocs : Nat
  /-- `pp_ref` -/
  ref : PipePage → Nat

inductive ShareAct where
  | close (p i : Nat)
  | dup (p o n : Nat)
  | fork (p : Nat)
  /-- The next system call of `p`; `ok` says whether there is memory for it. -/
  | run (p : Nat) (ok : Bool)

namespace Sharing

variable (s : Sharing) (p : Nat) (y : Sharer)

/-- `page_insert` and `page_remove`: page `v` of `p` becomes `x`. -/
def write (v : Nat) (x : Option PipePage) (pc : SharePc) : Sharing where
  procs := Function.update s.procs p (some ⟨pc, Function.update y.pages v x, v :: y.dom⟩)
  nprocs := s.nprocs
  ref X := s.ref X - (if y.pages v = some X then 1 else 0) + (if x = some X then 1 else 0)

def goto (pc : SharePc) : Sharing := { s with procs := Function.update s.procs p (some { y with pc := pc }) }

def pageref (v : Nat) : Nat :=
  match y.pages v with
  | none => 0
  | some X => s.ref X

/-- `_pipe_is_closed(fd, p)` for the descriptor `i` of a process.  It reads both counts without being interrupted, or
reads them again. -/
def pipeIsClosed (i : Nat) : Bool := s.pageref y (fdVpn i) == s.pageref y (dataVpn i)

/-- The first page from `v` on that `fork` has to copy. -/
def nextPage (v : Nat) : Option Nat := (y.dom.filter fun w => v ≤ w ∧ w < vpnUstacktop ∧ y.pages w ≠ none).min?

/-- `close` comes back. -/
def closed : Option (Nat × Nat) → SharePc
  | none => .idle
  | some (o, n) => .dupMap o n 0

/-- `fd_lookup(i)` finds a descriptor of the pipe; the number is an `int`, and only those from `MAXFD` on are
refused. -/
def fdLookup (i : Nat) : Bool :=
  match y.pages (fdVpn i) with
  | some (.fd _) => decide (i < maxFd ∨ 2 ^ 31 ≤ i ∧ i < 2 ^ 32)
  | _ => false

/-- The next system call of `p`. -/
def run (ok : Bool) : Option Sharing :=
  match y.pc with
  | .idle => none
  | .pipe 0 i j => some (s.write p y (fdVpn i) (some (.fd .rd)) (.pipe 1 i j))
  | .pipe 1 i j => some (s.write p y (fdVpn j) (some (.fd .wr)) (.pipe 2 i j))
  | .pipe 2 i j => some (s.write p y (dataVpn i) (some .data) (.pipe 3 i j))
  | .pipe _ _ j => some (s.write p y (dataVpn j) (some .data) .idle)
  | .closeFd i ret => some (s.write p y (fdVpn i) none (.closeData i ret))
  | .closeData i ret => some (s.write p y (dataVpn i) none (.fdClose i ret))
  | .fdClose i ret => some (s.write p y (fdVpn i) none (closed ret))
  | .dupMap o n k =>
    if k < 1024 then
      match y.pages (dataVpn o + k) with
      | none => some (s.goto p y (.dupMap o n (k + 1)))
      | some X =>
        if ok ∧ legalVpn ((dataVpn n + k) % vpns) then
          some (s.write p y ((dataVpn n + k) % vpns) (some X) (.dupMap o n (k + 1)))
        else some (s.goto p y (.dupErr n))
    else some (s.goto p y (.dupFd o n))
  | .dupFd o n =>
    match y.pages (fdVpn o) with
    | none => some (s.goto p y (.dupErr n))
    | some X =>
      if ok ∧ legalVpn (fdVpn n) then some (s.write p y (fdVpn n) (some X) .idle) else some (s.goto p y (.dupErr n))
  | .dupErr n =>
    if legalVpn (fdVpn n) then some (s.write p y (fdVpn n) none (.dupErrData n 0)) else some (s.goto p y .panicked)
  | .dupErrData n k =>
    if k < 1024 then
      if legalVpn ((dataVpn n + k) % vpns) then some (s.write p y ((dataVpn n + k) % vpns) none (.dupErrData n (k + 1)))
      else some (s.goto p y .panicked)
    else some (s.goto p y .idle)
  | .fork c v =>
    match s.procs c with
    | none => none
    | some z =>
      match nextPage y v with
      -- `syscall_set_env_status(child, ENV_RUNNABLE)`
      | none => some ((s.goto c z .idle).goto p y .idle)
      -- `duppage`: pages of a pipe have `PTE_LIBRARY`, and the call's result is not looked at
      | some w =>
        if ok then some ((s.write c z w (y.pages w) z.pc).goto p y (.fork c (w + 1)))
        else some (s.goto p y (.fork c (w + 1)))
  | .embryo _ => none
  | .panicked => none

def step (s : Sharing) : ShareAct → Option Sharing
  | .close p i =>
    (s.procs p).bind fun y =>
      if y.pc = .idle ∧ fdLookup y i then some (s.goto p y (.closeFd i none)) else none
  | .dup p o n =>
    (s.procs p).bind fun y =>
      if y.pc = .idle ∧ fdLookup y o then
        some (s.goto p y (if fdLookup y n then .closeFd n (some (o, n)) else .dupMap o n 0))
      else none
  | .fork p =>
    (s.procs p).bind fun y =>
      if y.pc = .idle then
        some { (s.goto p y (.fork s.nprocs 0)) with
          procs := Function.update (s.goto p y (.fork s.nprocs 0)).procs s.nprocs (some ⟨.embryo p, fun _ => none, []⟩)
          nprocs := s.nprocs + 1 }
      else none
  | .run p ok => (s.procs p).bind fun y => s.run p y ok

/-- A process is about to make the pipe, with the numbers that `fd_alloc` will find. -/
def Init (s : Sharing) : Prop :=
  ∃ i j, i < j ∧ j < maxFd - 1 ∧ s.procs = Function.update (fun _ => none) 0 (some ⟨.pipe 0 i j, fun _ => none, []⟩) ∧
    s.nprocs = 1 ∧ s.ref = fun _ => 0

end Sharing

end Mos
