import Mos.Sched
import Mos.Tlbex
/-!
# Syscall — the system calls

`kern/syscall_all.c`.  A call is made by `cur`, the environment that runs.  It yields `none` where the kernel panics
or reads a variable it has not set; else the new state and `ret r` where it returns `r`, `void` where it returns no
value, and `noret` where it entered `schedule`, which loads another context.  What is printed is not part of the
state.
-/
namespace Mos

inductive Sysret where
  | ret (r : Int)
  | void
  | noret
deriving DecidableEq

/-- The outcome of a call. -/
abbrev Outcome := Option (Sysret × Kernel)

/-- A call that returns at once. -/
def ret (r : Int) (k : Kernel) : Outcome := some (.ret r, k)

/-! ## Pages of the caller -/

namespace Kernel

/-- The kernel reads `va` in the address space of `cur`. -/
def touch (k : Kernel) (cur : EnvIx) (va : Word) : Option Kernel :=
  (Mos.touch k.pm k.curPgdir (k.envs cur).envAsid va).map k.setPm

/-- The kernel reads the `len` bytes from `va` on. -/
def touchRange (k : Kernel) (cur : EnvIx) (va : Word) (len : Nat) : Option Kernel :=
  (List.range len).foldlM (fun k i => k.touch cur (va + BitVec.ofNat 32 i)) k

end Kernel

/-! ## The calls -/

def isIllegalVa (va : Word) : Bool := va < utemp || va ≥ utop

def isIllegalVaRange (va len : Word) : Bool :=
  if len = 0 then false else va + len < va || va < utemp || va + len > utop

def sysPutchar (k : Kernel) : Outcome := some (.void, k)

def sysPrintCons (k : Kernel) (cur : EnvIx) (s num : Word) : Outcome :=
  if s + num > utop ∨ s ≥ utop ∨ s > s + num then ret (-eInval) k
  else (k.touchRange cur s num.toNat).bind (ret 0)

def sysGetenvid (k : Kernel) (cur : EnvIx) : Outcome := ret (k.envs cur).envId.toInt k

def sysYield (k : Kernel) : Outcome := (schedule k true).map (.noret, ·)

/-- `env_destroy(e)` at the end of a call that then returns `r`; it does not come back when `e` is the caller. -/
def destroyAndReturn (k : Kernel) (cur e : EnvIx) (r : Sysret) : Outcome :=
  (envDestroy k e).map (fun k₁ => (if e = cur then .noret else r, k₁))

def sysEnvDestroy (k : Kernel) (cur : EnvIx) (envid : Word) : Outcome :=
  match envid2env k cur envid true with
  | none => ret (-eBadEnv) k
  | some e => destroyAndReturn k cur e (.ret 0)

def sysSetTlbModEntry (k : Kernel) (cur : EnvIx) (envid func : Word) : Outcome :=
  match envid2env k cur envid true with
  | none => ret (-eBadEnv) k
  | some e => ret 0 (k.setEnv e (fun v => { v with envUserTlbModEntry := func }))

def sysMemAlloc (k : Kernel) (cur : EnvIx) (envid va perm : Word) : Outcome :=
  if isIllegalVa va then ret (-eInval) k
  else match envid2env k cur envid true with
    | none => ret (-eBadEnv) k
    | some e =>
      match pageAlloc k.pm with
      | none => ret (-eNoMem) k
      | some (pp, pm) =>
        (pageInsert pm (k.envs e).envPgdir (k.envs e).envAsid pp va perm).bind (fun r => ret r.1 (k.setPm r.2))

def sysMemMap (k : Kernel) (cur : EnvIx) (srcid srcva dstid dstva perm : Word) : Outcome :=
  if isIllegalVa srcva || isIllegalVa dstva then ret (-eInval) k
  else match envid2env k cur srcid true with
    | none => ret (-eBadEnv) k
    | some src =>
      match envid2env k cur dstid true with
      | none => ret (-eBadEnv) k
      | some dst =>
        (pageLookup k.pm (k.envs src).envPgdir srcva).bind (fun l =>
          match l with
          | none => ret (-eInval) k
          | some (pp, _) =>
            (pageInsert k.pm (k.envs dst).envPgdir (k.envs dst).envAsid pp dstva perm).bind (fun r =>
              ret r.1 (k.setPm r.2)))

def sysMemUnmap (k : Kernel) (cur : EnvIx) (envid va : Word) : Outcome :=
  if isIllegalVa va then ret (-eInval) k
  else match envid2env k cur envid true with
    | none => ret (-eBadEnv) k
    | some e => (pageRemove k.pm (k.envs e).envPgdir (k.envs e).envAsid va).bind (fun pm => ret 0 (k.setPm pm))

def sysExofork (k : Kernel) (cur : EnvIx) : Outcome :=
  match envAlloc k (k.envs cur).envId with
  | (.error r, k₁) => ret r k₁
  | (.ok e, k₁) =>
    let k₂ := k₁.setEnv e (fun v =>
      { v with envTf := k₁.ktf.setReg 2 0, envStatus := .notRunnable, envPri := (k₁.envs cur).envPri })
    ret (k₂.envs e).envId.toInt k₂

/-- `ENV_RUNNABLE`, `ENV_NOT_RUNNABLE` as the argument of a call. -/
def statusOfWord (w : Word) : Option EnvStatus :=
  if w = 1 then some .runnable else if w = 2 then some .notRunnable else none

/-- The list after `sys_set_env_status` when the status changes. -/
def relink (q : Tailq EnvIx) (e : EnvIx) : EnvStatus → Option (Tailq EnvIx)
  | .runnable => q.insertTail e
  | _ => q.remove e

def sysSetEnvStatus (k : Kernel) (cur : EnvIx) (envid status : Word) : Outcome :=
  match statusOfWord status with
  | none => ret (-eInval) k
  | some st =>
    match envid2env k cur envid true with
    | none => ret (-eBadEnv) k
    | some e =>
      (if (k.envs e).envStatus ≠ st then relink k.sched e st else some k.sched).bind (fun q =>
        ret 0 ((k.setSched q).setEnv e (fun v => { v with envStatus := st })))

/-- `sizeof(struct Trapframe)` -/
def sizeofTrapframe : Nat := 152

/-- `sys_set_trapframe(envid, va)`, where the memory of the caller holds `tf` at `va`. -/
def sysSetTrapframe (k : Kernel) (cur : EnvIx) (envid va : Word) (tf : Trapframe) : Outcome :=
  if isIllegalVaRange va (BitVec.ofNat 32 sizeofTrapframe) then ret (-eInval) k
  else match envid2env k cur envid true with
    | none => ret (-eBadEnv) k
    | some e =>
      (k.touchRange cur va sizeofTrapframe).bind (fun k₁ =>
        if e = cur then ret (tf.regs 2).toInt { k₁ with ktf := tf }
        else ret 0 (k₁.setEnv e (fun v => { v with envTf := tf })))

def sysPanic : Outcome := none

/-- What `sys_ipc_recv` writes into the caller before it leaves the list. -/
def Env.startRecv (v : Env) (dstva : Word) : Env :=
  { v with envIpcRecving := 1, envIpcDstva := dstva, envStatus := .notRunnable }

def sysIpcRecv (k : Kernel) (cur : EnvIx) (dstva : Word) : Outcome :=
  if dstva ≠ 0 ∧ isIllegalVa dstva then ret (-eInval) k
  else
    let k₁ := k.setEnv cur (fun v => v.startRecv dstva)
    (k₁.sched.remove cur).bind (fun q =>
      (schedule { k₁.setSched q with ktf := k₁.ktf.setReg 2 0 } true).map (.noret, ·))

/-- What `sys_ipc_try_send` writes into the target. -/
def Env.deliver (v : Env) (value src perm : Word) : Env :=
  { v with envIpcValue := value, envIpcFrom := src, envIpcPerm := pteV ||| perm, envIpcRecving := 0
           envStatus := .runnable }

def sysIpcTrySend (k : Kernel) (cur : EnvIx) (envid value srcva perm : Word) : Outcome :=
  if srcva ≠ 0 ∧ isIllegalVa srcva then ret (-eInval) k
  else match envid2env k cur envid false with
    | none => ret (-eBadEnv) k
    | some e =>
      if (k.envs e).envIpcRecving = 0 then ret (-eIpcNotRecv) k
      else
        let k₁ := k.setEnv e (fun v => v.deliver value (k.envs cur).envId perm)
        (k₁.sched.insertTail e).bind (fun q =>
          let k₂ := k₁.setSched q
          if srcva = 0 then ret 0 k₂
          else (pageLookup k₂.pm (k₂.envs cur).envPgdir srcva).bind (fun l =>
            match l with
            | none => ret (-eInval) k₂
            | some (pp, _) =>
              (pageInsert k₂.pm (k₂.envs e).envPgdir (k₂.envs e).envAsid pp (k₂.envs e).envIpcDstva perm).bind (fun r =>
                ret r.1 (k₂.setPm r.2))))

/-- `sys_cgetc`, when the console yields `ch`. -/
def sysCgetc (k : Kernel) (ch : Word) : Outcome := ret ch.toInt k

/-- The device ranges `sys_write_dev` and `sys_read_dev` admit. -/
def isDevice (pa len : Word) : Bool :=
  (pa ≥ 0x180003f8 && pa + len ≤ 0x180003f8 + 0x20) || (pa ≥ 0x180001f0 && pa + len ≤ 0x180001f0 + 0x8)

def badDevArgs (va pa len : Word) : Bool :=
  !(len = 1 || len = 2 || len = 4) || isIllegalVaRange va len || !isDevice pa len

def sysWriteDev (k : Kernel) (cur : EnvIx) (va pa len : Word) : Outcome :=
  if badDevArgs va pa len then ret (-eInval) k else (k.touchRange cur va len.toNat).bind (ret 0)

/-- `sys_read_dev`, when the word around `va` is `w` once the device's bytes are in it. -/
def sysReadDev (k : Kernel) (cur : EnvIx) (va pa len w : Word) : Outcome :=
  if badDevArgs va pa len then ret (-eInval) k
  else (k.touch cur va).bind (fun k₁ => (store k₁.pm k₁.curPgdir va w).bind (fun pm => ret 0 (k₁.setPm pm)))

def sysGetEnvParentId (k : Kernel) (cur : EnvIx) (envid : Word) : Outcome :=
  match envid2env k cur envid false with
  | none => ret (-eBadEnv) k
  | some e => ret (k.envs e).envParentId.toInt k

/-! ## Jobs -/

/-- The length of `jobs`. -/
def njobs : Nat := 1025

/-- `sizeof(struct Job)`, and the offset of `command` in it. -/
def jobSize : Nat := 1040

def commandAt : Nat := 12

/-- A word in memory whose first bytes are written over. -/
def overwrite (w : Word) (bs : List (BitVec 8)) : Word :=
  let byte (n : Nat) : BitVec 8 := bs[n]?.getD (w.extractLsb' (8 * n) 8)
  byte 3 ++ byte 2 ++ byte 1 ++ byte 0

/-- An entry whose first bytes are written over with `bs`, the end of a string. -/
def Job.overwritten (j : Job) (bs : List (BitVec 8)) : Job where
  jobId := overwrite j.jobId bs
  flag := overwrite j.flag (bs.drop 4)
  envId := overwrite j.envId (bs.drop 8)
  command := if bs.length ≤ commandAt then j.command else (bs.drop commandAt).takeWhile (· ≠ 0)

/-- The entries after `n`, once `strcpy` has put `cmd` into the `command` of entry `n`: what is longer than the 1025
bytes there runs on over them. -/
def strcpyCommand (jobs : Nat → Job) (n : Nat) (cmd : List (BitVec 8)) : Nat → Job := fun i =>
  if n < i then (jobs i).overwritten ((cmd ++ [0]).drop ((i - n) * jobSize - commandAt)) else jobs i

/-- The string ends inside `jobs`, when it is the command of entry `n`. -/
def commandFits (n : Nat) (cmd : List (BitVec 8)) : Prop := n < njobs ∧ commandAt + cmd.length < (njobs - n) * jobSize

instance (n : Nat) (cmd : List (BitVec 8)) : Decidable (commandFits n cmd) := inferInstanceAs (Decidable (_ ∧ _))

/-- `sys_add_job`, when `cmd` is the string at the pointer; beyond the array there is no entry. -/
def sysAddJob (k : Kernel) (envid : Word) (cmd : List (BitVec 8)) : Outcome :=
  if commandFits k.jobNum cmd then
    some (.void, { k with
      jobNum := k.jobNum + 1
      jobs := Function.update (strcpyCommand k.jobs k.jobNum cmd) k.jobNum
        ⟨BitVec.ofNat 32 (k.jobNum + 1), 0, envid, cmd⟩ })
  else none

def sysPrintJobs (k : Kernel) : Outcome := some (.void, k)

def Job.done (j : Job) : Job := { j with flag := 1 }

/-- `sys_try_done_job_status`: the caller's jobs are done, and `envid` is destroyed; an id that is refused is
`Syscall.Unset`. -/
def sysTryDoneJobStatus (k : Kernel) (cur : EnvIx) (envid : Word) : Outcome :=
  let k₁ := { k with jobs := fun i =>
    if i < k.jobNum ∧ (k.envs cur).envId = (k.jobs i).envId ∧ (k.jobs i).flag = 0 then (k.jobs i).done else k.jobs i }
  (envid2env k₁ cur envid true).bind (fun e => destroyAndReturn k₁ cur e .void)

/-- `jobs + job_id - 1`; the entry before the first does not exist. -/
def jobIx (jobId : Word) : Option Nat := if jobId = 0 then none else some (jobId.toNat - 1)

def sysKillJob (k : Kernel) (cur : EnvIx) (jobId : Word) : Outcome :=
  if k.jobNum < jobId.toNat then some (.void, k)
  else (jobIx jobId).bind (fun i =>
    if (k.jobs i).flag = 1 then some (.void, k)
    else
      let k₁ := { k with jobs := Function.update k.jobs i (k.jobs i).done }
      (envid2env k₁ cur (k.jobs i).envId false).bind (fun e => destroyAndReturn k₁ cur e .void))

def sysGetEnvidByJob (k : Kernel) (jobId : Word) : Outcome :=
  if k.jobNum < jobId.toNat then ret (-1) k
  else (jobIx jobId).bind (fun i => if (k.jobs i).flag = 1 then ret (-2) k else ret (k.jobs i).envId.toInt k)

/-! ## The table -/

/-- A call with its arguments, and what the call reads from the console, a device or the caller's memory. -/
inductive Syscall where
  | putchar
  | printCons (s num : Word)
  | getenvid
  | yield
  | envDestroy (envid : Word)
  | setTlbModEntry (envid func : Word)
  | memAlloc (envid va perm : Word)
  | memMap (srcid srcva dstid dstva perm : Word)
  | memUnmap (envid va : Word)
  | exofork
  | setEnvStatus (envid status : Word)
  | setTrapframe (envid va : Word) (tf : Trapframe)
  | panic
  | ipcTrySend (envid value srcva perm : Word)
  | ipcRecv (dstva : Word)
  | cgetc (ch : Word)
  | writeDev (va pa len : Word)
  | readDev (va pa len w : Word)
  | getEnvParentId (envid : Word)
  | addJob (envid : Word) (cmd : List (BitVec 8))
  | printJobs
  | tryDoneJobStatus (envid : Word)
  | killJob (jobId : Word)
  | getEnvidByJob (jobId : Word)

/-- The permission that a call maps a page with. -/
def Syscall.perm : Syscall → Word
  | .memAlloc _ _ perm => perm
  | .memMap _ _ _ _ perm => perm
  | .ipcTrySend _ _ _ perm => perm
  | _ => 0

/-- **`env_destroy` gets a pointer that was never set**: the two calls go on when `envid2env` refuses the id, and
`sys_kill_job` takes the id from whatever is before `jobs` when the number is 0.  The language leaves open what happens
then, and the call has no result here. -/
def Syscall.Unset (k : Kernel) (cur : EnvIx) : Syscall → Prop
  | .tryDoneJobStatus envid => envid2env k cur envid true = none
  | .killJob jobId => jobId.toNat ≤ k.jobNum ∧
      ∀ i, jobIx jobId = some i → (k.jobs i).flag ≠ 1 ∧ envid2env k cur (k.jobs i).envId false = none
  | _ => False

def syscallTable (k : Kernel) (cur : EnvIx) : Syscall → Outcome
  | .putchar => sysPutchar k
  | .printCons s num => sysPrintCons k cur s num
  | .getenvid => sysGetenvid k cur
  | .yield => sysYield k
  | .envDestroy envid => sysEnvDestroy k cur envid
  | .setTlbModEntry envid func => sysSetTlbModEntry k cur envid func
  | .memAlloc envid va perm => sysMemAlloc k cur envid va perm
  | .memMap srcid srcva dstid dstva perm => sysMemMap k cur srcid srcva dstid dstva perm
  | .memUnmap envid va => sysMemUnmap k cur envid va
  | .exofork => sysExofork k cur
  | .setEnvStatus envid status => sysSetEnvStatus k cur envid status
  | .setTrapframe envid va tf => sysSetTrapframe k cur envid va tf
  | .panic => sysPanic
  | .ipcTrySend envid value srcva perm => sysIpcTrySend k cur envid value srcva perm
  | .ipcRecv dstva => sysIpcRecv k cur dstva
  | .cgetc ch => sysCgetc k ch
  | .writeDev va pa len => sysWriteDev k cur va pa len
  | .readDev va pa len w => sysReadDev k cur va pa len w
  | .getEnvParentId envid => sysGetEnvParentId k cur envid
  | .addJob envid cmd => sysAddJob k envid cmd
  | .printJobs => sysPrintJobs k
  | .tryDoneJobStatus envid => sysTryDoneJobStatus k cur envid
  | .killJob jobId => sysKillJob k cur jobId
  | .getEnvidByJob jobId => sysGetEnvidByJob k jobId

/-- `EPC += 4` -/
def Trapframe.nextInstr (tf : Trapframe) : Trapframe := { tf with cp0Epc := tf.cp0Epc + 4 }

/-- `tf->regs[2] = func(..)`: a call without a value leaves `v0` in the register, a call that entered `schedule` is
not returned from. -/
def setV0 (v0 : Word) : Sysret × Kernel → Kernel
  | (.ret i, k) => { k with ktf := k.ktf.setReg 2 (BitVec.ofInt 32 i) }
  | (.void, k) => { k with ktf := k.ktf.setReg 2 v0 }
  | (.noret, k) => k

/-- `do_syscall` steps over the instruction, and reads the fourth and fifth argument from the caller's stack. -/
def readArgs (k : Kernel) (cur : EnvIx) : Option Kernel :=
  let sp := k.ktf.regs 29
  ({ k with ktf := k.ktf.nextInstr }.touch cur (sp + 16)).bind (fun k₁ => k₁.touch cur (sp + 20))

/-- `do_syscall` for a number in the table. -/
def doSyscall (k : Kernel) (cur : EnvIx) (c : Syscall) (v0 : Word) : Option Kernel :=
  (readArgs k cur).bind (fun k₁ => (syscallTable k₁ cur c).map (setV0 v0))

/-- `do_syscall` for a number outside the table. -/
def doNoSys (k : Kernel) : Kernel := { k with ktf := k.ktf.setReg 2 (BitVec.ofInt 32 (-eNoSys)) }

end Mos
