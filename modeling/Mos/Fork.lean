import Mathlib.Logic.Function.Basic
import Mos.Syscall
/-!
# Fork — `fork` of `user/lib/fork.c` over shared frames

Processes map pages to frames.  `fork` is a loop over the pages below `USTACKTOP`, one turn a step, so that everybody
may read and write between two turns; a write is one step together with `cow_entry`, where it runs.  The system calls
on pages do what `page_insert` and `page_remove` do to the entries (`Acct.Inserted`, `Acct.removePage`), and memory
does not run out.

`copypage` is the other way to make a child: every page is copied at once, unless it is shared with `PTE_LIBRARY`.
-/
namespace Mos

/-- `w & flag` -/
def has (w flag : Word) : Bool := w &&& flag != 0

namespace Forking

/-- What a page is mapped to: a frame, and the low bits of the entry. -/
structure Mapping where
  pp : Nat
  perm : Word
deriving DecidableEq

structure Proc where
  /-- The page table, by `VPN`. -/
  pages : Nat → Option Mapping
  /-- Where `fork` is: the child, and the page of the next turn. -/
  fork : Option (Nat × Nat)
  /-- `env_status` is `ENV_RUNNABLE`. -/
  runnable : Bool

structure Machine where
  procs : Nat → Option Proc
  nprocs : Nat
  /-- The words of the frames. -/
  mem : Nat → Nat → Word
  /-- The frames from here on are free. -/
  npage : Nat

namespace Machine

def page (s : Machine) (p v : Nat) : Option Mapping := (s.procs p).bind (·.pages v)

def setProc (s : Machine) (p : Nat) (f : Proc → Proc) : Machine :=
  { s with procs := Function.update s.procs p ((s.procs p).map f) }

def setPage (s : Machine) (p v : Nat) (m : Option Mapping) : Machine :=
  s.setProc p fun pr => { pr with pages := Function.update pr.pages v m }

/-! ## System calls -/

/-- `is_illegal_va` does not refuse the page. -/
def legal (v : Nat) : Bool := decide (vpn utemp ≤ v ∧ v < vpn utop)

/-- `syscall_mem_alloc` -/
def memAlloc (s : Machine) (p v : Nat) (perm : Word) : Machine :=
  if legal v then
    { s with mem := Function.update s.mem s.npage fun _ => 0, npage := s.npage + 1 }.setPage p v
      (some ⟨s.npage, perm ||| pteCCacheable ||| pteV⟩)
  else s

/-- `syscall_mem_map` -/
def memMap (s : Machine) (src srcv dst dstv : Nat) (perm : Word) : Machine :=
  if legal srcv && legal dstv then
    match s.page src srcv with
    | none => s
    | some m => s.setPage dst dstv (some ⟨m.pp, perm ||| pteCCacheable ||| pteV⟩)
  else s

/-- `syscall_mem_unmap` -/
def memUnmap (s : Machine) (p v : Nat) : Machine := if legal v then s.setPage p v none else s

/-! ## `cow_entry` -/

/-- `memcpy` of the page `src` to the page `dst`. -/
def memcpy (s : Machine) (p dst src : Nat) : Machine :=
  match s.page p dst, s.page p src with
  | some d, some m => { s with mem := Function.update s.mem d.pp (s.mem m.pp) }
  | _, _ => s

/-- `cow_entry`, for a fault in the page `v`; `none` is its `user_panic`. -/
def cowEntry (s : Machine) (p v : Nat) : Option Machine :=
  (s.page p v).bind fun m =>
    if has m.perm pteCow then
      let perm := m.perm &&& ~~~pteCow ||| pteD
      let s₁ := s.memAlloc p (vpn ucow) perm
      let s₂ := s₁.memcpy p (vpn ucow) v
      let s₃ := s₂.memMap p (vpn ucow) p v perm
      some (s₃.memUnmap p (vpn ucow))
    else none

/-! ## `fork` -/

/-- `duppage`.  The mask of its first branch is `!PTE_D`, not `~PTE_D`. -/
def duppage (s : Machine) (p envid v : Nat) : Machine :=
  match s.page p v with
  | none => s
  | some m =>
    if has m.perm pteD && !has m.perm pteLibrary && !has m.perm pteCow then
      let perm := m.perm &&& 0 ||| pteCow
      (s.memMap p v envid v perm).memMap p v p v perm
    else s.memMap p v envid v m.perm

/-- The page is copied, or shared if it has `PTE_LIBRARY`. -/
def copypage (s : Machine) (p envid v : Nat) : Machine :=
  match s.page p v with
  | none => s
  | some m =>
    if has m.perm pteLibrary then s.setPage envid v (some m)
    else
      { s with mem := Function.update s.mem s.npage (s.mem m.pp), npage := s.npage + 1 }.setPage envid v
        (some ⟨s.npage, m.perm⟩)

/-- `syscall_exofork`, the start of `fork`. -/
def exofork (s : Machine) (p : Nat) : Machine :=
  let child : Proc := { pages := fun _ => none, fork := none, runnable := false }
  { s with procs := Function.update s.procs s.nprocs (some child), nprocs := s.nprocs + 1 }.setProc p fun pr =>
    { pr with fork := some (s.nprocs, 0) }

/-- A turn of the loop of `fork` at page `i`, with `dup` for `duppage`, or what follows the loop. -/
def forkNext (dup : Machine → Nat → Nat → Nat → Machine) (s : Machine) (p child i : Nat) : Machine :=
  if i < vpn ustacktop then
    (if (s.page p i).isSome then dup s p child i else s).setProc p fun pr => { pr with fork := some (child, i + 1) }
  else
    (s.setProc child fun pr => { pr with runnable := true }).setProc p fun pr => { pr with fork := none }

/-! ## Steps -/

def store (s : Machine) (pp o : Nat) (w : Word) : Machine :=
  { s with mem := Function.update s.mem pp (Function.update (s.mem pp) o w) }

/-- `user_panic` ends the process. -/
def panic (s : Machine) (p : Nat) : Machine := { s with procs := Function.update s.procs p none }

/-- A store: where the entry has no `PTE_D`, `cow_entry` runs, and the store is tried again. -/
def write (s : Machine) (p v o : Nat) (w : Word) : Option Machine :=
  (s.page p v).bind fun m =>
    if has m.perm pteD then some (s.store m.pp o w)
    else match s.cowEntry p v with
      | none => some (s.panic p)
      | some s₁ => (s₁.page p v).bind fun m₁ => if has m₁.perm pteD then some (s₁.store m₁.pp o w) else none

end Machine

inductive Act where
  | read (p v o : Nat)
  | write (p v o : Nat) (w : Word)
  /-- `p` calls `fork`. -/
  | fork (p : Nat)
  /-- The next turn of `fork` in `p`. -/
  | next (p : Nat)

/-- One step and what it reads; `none` is an action that is not there to be taken. -/
def Machine.step (dup : Machine → Nat → Nat → Nat → Machine) (s : Machine) : Act → Option (Machine × Option Word)
  | .read p v o => (s.procs p).bind fun pr =>
    if pr.runnable && decide (v < vpn ustacktop ∧ o < pageWords) then (pr.pages v).map fun m => (s, some (s.mem m.pp o))
    else none
  | .write p v o w => (s.procs p).bind fun pr =>
    if pr.runnable && decide (v < vpn ustacktop ∧ o < pageWords) then (s.write p v o w).map
    fun s' => (s', none) else none
  | .fork p => (s.procs p).bind fun pr =>
    if pr.runnable && pr.fork.isNone then some (s.exofork p, none) else none
  | .next p => (s.procs p).bind fun pr =>
    if pr.runnable then pr.fork.map fun (c, i) => (s.forkNext dup p c i, none) else none

/-- The state after a list of actions, and all that they read. -/
def Machine.run (dup : Machine → Nat → Nat → Nat → Machine) : List Act → Machine → Option (Machine × List Word)
  | [], s => some (s, [])
  | a :: as, s => (s.step dup a).bind fun (s', w) => (s'.run dup as).map fun (t, ws) => (t, w.toList ++ ws)

end Forking

end Mos
