import Mos.Lib.Run
import Mos.Syscall
/-!
# Machine — the kernel's runs

`mips_init` and the exceptions of `kern/genex.S`.  The machine boots into an idle kernel with the environments of
`ENV_CREATE`; from then on a step is a timer tick, or what the running environment does: instructions on its registers,
an access to memory, or a system call.  What a program does is not fixed: every step a program could take is a step.
-/
namespace Mos

/-- The argument of one `ENV_CREATE_PRIORITY`. -/
structure Program where
  binary : Binary
  priority : Word

/-- `mips_init` up to its last line. -/
def mipsInit (b : Board) (programs : List Program) : Option Kernel :=
  (mipsVmInit b).bind (fun (pages, pm) =>
    (envInit b pages pm).bind (fun k => programs.foldlM (fun k p => envCreate k p.binary p.priority) k))

/-- The kernel as `mips_init` leaves it, for some board and some programs. -/
def Booted (k : Kernel) : Prop := ∃ b programs, mipsInit b programs = some k

/-! ## TLB modification -/

/-- The words of a `struct Trapframe`. -/
def Trapframe.words (tf : Trapframe) : List Word :=
  (List.range 32).map tf.regs ++ [tf.cp0Status, tf.hi, tf.lo, tf.cp0Badvaddr, tf.cp0Cause, tf.cp0Epc]

/-- The kernel writes words into the address space of `cur`. -/
def Kernel.storeWords (k : Kernel) (cur : EnvIx) : Word → List Word → Option Kernel
  | _, [] => some k
  | va, w :: ws =>
    (k.touch cur va).bind (fun k₁ =>
      (store k₁.pm k₁.curPgdir va w).bind (fun pm => (k₁.setPm pm).storeWords cur (va + 4) ws))

def doTlbMod (k : Kernel) (cur : EnvIx) : Option Kernel :=
  let sp := k.ktf.regs 29
  let sp₁ := (if sp < ustacktop ∨ sp ≥ uxstacktop then uxstacktop else sp) - BitVec.ofNat 32 sizeofTrapframe
  (k.storeWords cur sp₁ k.ktf.words).bind (fun k₁ =>
    let entry := (k₁.envs cur).envUserTlbModEntry
    if entry = 0 then none
    else some { k₁ with ktf := { (k₁.ktf.setReg 4 sp₁).setReg 29 (sp₁ - 4) with cp0Epc := entry } })

/-! ## Steps -/

inductive Act where
  | tick
  /-- Instructions of the running environment leave its registers as in `tf`. -/
  | exec (tf : Trapframe)
  /-- A TLB miss at `va`; the new TLB entry replaces the one at `victim`. -/
  | miss (va : Word) (victim : Nat)
  /-- A store to a page that is mapped with `PTE_D`. -/
  | store (va w : Word)
  /-- A store to a page that is mapped without `PTE_D`. -/
  | mod (va : Word)
  | syscall (c : Syscall) (v0 : Word)
  /-- A system call whose number is not in the table. -/
  | noSys

/-- A step of the environment `cur`, which runs. -/
def userStep (k : Kernel) (cur : EnvIx) : Act → Option Kernel
  | .tick => none
  | .exec tf => some { k with ktf := { tf with cp0Status := k.ktf.cp0Status } }
  | .miss va victim =>
    if ulim ≤ va then none else (doTlbRefill k.pm k.curPgdir (k.envs cur).envAsid va victim).map k.setPm
  | .store va w => (store k.pm k.curPgdir va w).map k.setPm
  | .mod va => doTlbMod { k with ktf := { k.ktf with cp0Badvaddr := va } } cur
  | .syscall c v0 => doSyscall k cur c v0
  | .noSys => some (doNoSys k)

/-- One step of the machine; `none` when it is not possible or the kernel panics. -/
def step (k : Kernel) (a : Act) : Option Kernel :=
  match a with
  | .tick => schedule k false
  | a => k.curenv.bind (fun cur => userStep k cur a)

/-- The kernel states that can be reached. -/
def Reachable : Kernel → Prop := Reach Booted step

/-! ## A small machine -/

/-- A board with five megabytes of zeroes. -/
def smallBoard : Board := { ramLowSize := 0x500000, ram := fun _ _ => 0, envsPa := 0x80000 }

/-- An executable without segments, at priority 1. -/
def emptyProgram : Program :=
  { binary :=
      { size := sizeofElf32Ehdr
        byte := fun i => if i = 0 then 0x7F else if i = 1 then 0x45 else if i = 2 then 0x4C else if i = 3 then 0x46
          else if i = 16 then 2 else 0 }
    priority := 1 }

/-- A register file with the stack pointer inside the stack page. -/
def stackFrame : Trapframe := Trapframe.zero.setReg 29 (ustacktop - 128)

theorem exists_run {ok : Kernel → Act → Prop} {okB : Kernel → Act → Bool} (hok : ∀ k a, okB k a = true → ok k a)
    (programs : List Program) (as : List Act) (p : Kernel → Bool)
    (h : ((mipsInit smallBoard programs).bind (exec step okB as)).any p = true) :
    ∃ k, Run Booted step ok k ∧ p k = true :=
  Run.exists_of_exec hok as (mipsInit smallBoard programs) (fun _ hk => ⟨smallBoard, programs, hk⟩) p h

theorem exists_reachable (programs : List Program) (as : List Act) (p : Kernel → Bool)
    (h : ((mipsInit smallBoard programs).bind (exec step (fun _ _ => true) as)).any p = true) :
    ∃ k, Reachable k ∧ p k = true :=
  exists_run (fun _ _ _ => trivial) programs as p h

end Mos
