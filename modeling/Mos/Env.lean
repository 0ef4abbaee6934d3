import Mathlib.Data.List.Basic
import Mos.Lib.Tailq
import Mos.Elf
import Mos.Pmap
/-!
# Env — environments

The state of the kernel and `kern/env.c`.  An environment pointer is an index of `envs`; the link fields of every
environment in `env_sched_list` are the queue's own, and `env_free_list`, which is only pushed and popped at its head,
is a list.
-/
namespace Mos

def log2nenv : Nat := 10
abbrev nenv : Nat := 1024

instance : NeZero nenv := ⟨by decide⟩

/-- `struct Env *` into `envs`. -/
abbrev EnvIx := Fin nenv

/-- `ENVX(envid)` -/
def envx (envid : Word) : EnvIx :=
  ⟨(envid &&& 0x3FF).toNat, by
    rw [BitVec.toNat_and]
    exact Nat.lt_of_le_of_lt Nat.and_le_right (by decide)⟩

inductive EnvStatus where
  | free
  | runnable
  | notRunnable
deriving DecidableEq

structure Trapframe where
  regs : Nat → Word
  cp0Status : Word
  hi : Word
  lo : Word
  cp0Badvaddr : Word
  cp0Cause : Word
  cp0Epc : Word

def Trapframe.setReg (tf : Trapframe) (i : Nat) (w : Word) : Trapframe :=
  { tf with regs := Function.update tf.regs i w }

def Trapframe.zero : Trapframe :=
  { regs := fun _ => 0, cp0Status := 0, hi := 0, lo := 0, cp0Badvaddr := 0, cp0Cause := 0, cp0Epc := 0 }

/-- `STATUS_IM7 | STATUS_IE | STATUS_EXL | STATUS_UM` -/
def statusUser : Word := 0x8000 ||| 0x1 ||| 0x2 ||| 0x10

structure Env where
  envTf : Trapframe
  envId : Word
  envAsid : Word
  envParentId : Word
  envStatus : EnvStatus
  envPgdir : Nat
  envPri : Word
  envIpcValue : Word
  envIpcFrom : Word
  envIpcRecving : Word
  envIpcDstva : Word
  envIpcPerm : Word
  envUserTlbModEntry : Word
  envRuns : Word

def Env.zero : Env :=
  { envTf := Trapframe.zero, envId := 0, envAsid := 0, envParentId := 0, envStatus := .free, envPgdir := 0, envPri := 0
    envIpcValue := 0, envIpcFrom := 0, envIpcRecving := 0, envIpcDstva := 0, envIpcPerm := 0
    envUserTlbModEntry := 0, envRuns := 0 }

structure Job where
  jobId : Word
  flag : Word
  envId : Word
  command : List (BitVec 8)

structure Kernel where
  pm : Pmap
  envs : EnvIx → Env
  envFreeList : List EnvIx
  /-- `env_sched_list` and every `env_sched_link`. -/
  sched : Tailq EnvIx
  curenv : Option EnvIx
  curPgdir : Nat
  basePgdir : Nat
  asidBitmap : Nat → Word
  /-- The static counter of `mkenvid`. -/
  mkenvidI : Word
  /-- The static `count` of `schedule`. -/
  count : Int
  /-- The frame below `KSTACKTOP`. -/
  ktf : Trapframe
  jobNum : Nat
  jobs : Nat → Job

namespace Kernel

def setEnv (k : Kernel) (e : EnvIx) (f : Env → Env) : Kernel :=
  { k with envs := Function.update k.envs e (f (k.envs e)) }

def setPm (k : Kernel) (pm : Pmap) : Kernel := { k with pm := pm }

def setSched (k : Kernel) (q : Tailq EnvIx) : Kernel := { k with sched := q }

end Kernel

/-! ## Address-space ids -/

def asidUsed (bitmap : Nat → Word) (i : Nat) : Bool := bitmap (i >>> 5) &&& ((1 : Word) <<< (i &&& 31)) != 0

/-- `asid_alloc`; `none` is `-E_NO_FREE_ENV`. -/
def asidAlloc (bitmap : Nat → Word) : Option (Nat × (Nat → Word)) :=
  ((List.range nasid).find? (fun i => !asidUsed bitmap i)).map (fun i =>
    (i, Function.update bitmap (i >>> 5) (bitmap (i >>> 5) ||| (1 : Word) <<< (i &&& 31))))

def asidFree (bitmap : Nat → Word) (i : Nat) : Nat → Word :=
  Function.update bitmap (i >>> 5) (bitmap (i >>> 5) &&& ~~~((1 : Word) <<< (i &&& 31)))

/-! ## Environment ids -/

/-- The id `mkenvid` makes of the next value of its counter. -/
def mkenvid (i : Word) (e : EnvIx) : Word := ((i + 1) <<< (1 + log2nenv)) ||| BitVec.ofNat 32 e.val

/-- `envid2env` called by `cur`; `none` is `-E_BAD_ENV`. -/
def envid2env (k : Kernel) (cur : EnvIx) (envid : Word) (checkperm : Bool) : Option EnvIx :=
  if envid = 0 then some cur
  else
    let e := envx envid
    if (k.envs e).envStatus = .free ∨ (k.envs e).envId ≠ envid then none
    else if checkperm ∧ (k.envs e).envId ≠ (k.envs cur).envId ∧ (k.envs e).envParentId ≠ (k.envs cur).envId then none
    else some e

/-! ## Creating -/

/-- `map_segment`; the return codes of `page_insert` are dropped. -/
def mapSegment (p : Pmap) (pgdir : Nat) (asid pa va : Word) (size : Nat) (perm : Word) : Option Pmap :=
  if pa &&& 0xFFF ≠ 0 ∨ va &&& 0xFFF ≠ 0 ∨ size % pageSize ≠ 0 then none
  else (List.range (size / pageSize)).foldlM (fun p i =>
    (pa2page p (pa + BitVec.ofNat 32 (i * pageSize))).bind (fun pp =>
      (pageInsert p pgdir asid pp (va + BitVec.ofNat 32 (i * pageSize)) perm).map Prod.snd)) p

/-- `sizeof(struct Env)` -/
def sizeofEnv : Nat := 220

/-- `env_init`, once the pages are set up; `pagesPa` is the physical address of `pages`. -/
def envInit (b : Board) (pagesPa : Nat) (pm : Pmap) : Option Kernel :=
  (pageAlloc pm).bind (fun (pp, pm₁) =>
    let pm₂ := pm₁.setRef pp (pm₁.ppRef pp + 1)
    (mapSegment pm₂ pp 0 (BitVec.ofNat 32 pagesPa) upages (roundPage (b.npage * sizeofPage)) pteG).bind (fun pm₃ =>
      (mapSegment pm₃ pp 0 b.envsPa uenvs (roundPage (nenv * sizeofEnv)) pteG).map (fun pm₄ =>
        { pm := pm₄, envs := fun _ => Env.zero, envFreeList := List.finRange nenv
          sched := Tailq.init ⟨none, none, fun _ => none, fun _ => none⟩
          curenv := none, curPgdir := 0, basePgdir := pp, asidBitmap := fun _ => 0, mkenvidI := 0, count := 0
          ktf := Trapframe.zero, jobNum := 0, jobs := fun _ => ⟨0, 0, 0, []⟩ })))

/-- The page directory `env_setup_vm` builds in the zeroed frame `pp`: the template's entries of `[UTOP, UVPT)` and
the directory itself at `UVPT`. -/
def setupPgdir (p : Pmap) (basePgdir pp : Nat) : Pmap :=
  { p with mem := Function.update p.mem pp (fun i =>
      if i = pdx uvpt then page2pa pp ||| pteV
      else if pdx utop ≤ i ∧ i < pdx uvpt then p.mem basePgdir i
      else p.mem pp i) }

/-- `env_setup_vm`; `none` is `-E_NO_MEM`. -/
def envSetupVm (k : Kernel) (e : EnvIx) : Option Kernel :=
  (pageAlloc k.pm).map (fun (pp, pm₁) =>
    (k.setPm (setupPgdir (pm₁.setRef pp (pm₁.ppRef pp + 1)) k.basePgdir pp)).setEnv e
    (fun v => { v with envPgdir := pp }))

/-- `env_alloc`: the return code with the new environment, and the state. -/
def envAlloc (k : Kernel) (parentId : Word) : Except Int EnvIx × Kernel :=
  match k.envFreeList with
  | [] => (.error (-eNoFreeEnv), k)
  | e :: rest =>
    match envSetupVm k e with
    | none => (.error (-eNoMem), k)
    | some k₁ =>
      let k₂ := { k₁ with mkenvidI := k₁.mkenvidI + 1 }.setEnv e (fun v =>
        { v with envUserTlbModEntry := 0, envRuns := 0, envId := mkenvid k₁.mkenvidI e })
      match asidAlloc k₂.asidBitmap with
      | none => (.error (-eNoFreeEnv), k₂)
      | some (asid, bitmap) =>
        (.ok e, { k₂ with asidBitmap := bitmap, envFreeList := rest }.setEnv e (fun v =>
          { v with
            envAsid := BitVec.ofNat 32 asid
            envParentId := parentId
            envTf := { v.envTf.setReg 29 (ustacktop - 8) with cp0Status := statusUser } }))

/-- Byte `b` at byte offset `o` of a frame (`memcpy` to `page2kva(p) + offset`). -/
def Pmap.writeByte (p : Pmap) (frame o : Nat) (b : BitVec 8) : Pmap :=
  let sh := 8 * (o % 4)
  p.write (frame, o / 4) ((p.mem frame (o / 4) &&& ~~~((0xFF : Word) <<< sh)) ||| (b.setWidth 32 <<< sh))

/-- `memcpy(page2kva(frame) + offset, src, len)` -/
def Pmap.copyIn (p : Pmap) (frame offset : Nat) (src : Nat → BitVec 8) (len : Nat) : Pmap :=
  (List.range len).foldl (fun p i => p.writeByte frame (offset + i) (src i)) p

def loadIcodeMapper (pgdir : Nat) (asid : Word) (m : MapPage) (p : Pmap) : Option (Int × Pmap) :=
  match pageAlloc p with
  | none => some (-eNoMem, p)
  | some (pp, p₁) =>
    let p₂ := match m.src with
      | some src => p₁.copyIn pp m.offset src m.len
      | none => p₁
    pageInsert p₂ pgdir asid pp m.va m.perm

/-- `load_icode`; a segment that cannot be loaded is a panic. -/
def loadIcode (k : Kernel) (e : EnvIx) (binary : Binary) : Option Kernel :=
  (elfFrom binary).bind (fun ehdr =>
    ((binary.phdrs ehdr).foldlM (fun p ph =>
      if ph.pType = ptLoad then
        (elfLoadSeg ph (fun i => binary.byte (ph.pOffset.toNat + i))
          (loadIcodeMapper (k.envs e).envPgdir (k.envs e).envAsid) p).bind (fun r => if r.1 = 0 then some r.2 else none)
      else some p) k.pm).map (fun pm =>
        (k.setPm pm).setEnv e (fun v => { v with envTf := { v.envTf with cp0Epc := ehdr.eEntry } })))

/-- `env_create`; when `env_alloc` fails it returns `NULL` and leaves what `env_alloc` left. -/
def envCreate (k : Kernel) (binary : Binary) (priority : Word) : Option Kernel :=
  match envAlloc k 0 with
  | (.error _, k₁) => some k₁
  | (.ok e, k₁) =>
    (loadIcode (k₁.setEnv e (fun v => { v with envPri := priority, envStatus := .runnable })) e binary).map (fun k₂ =>
      k₂.setSched (k₂.sched.insertHead e))

/-! ## Freeing -/

/-- One page table of `env_free`: unmap its pages, clear the directory entry, drop the table. -/
def envFreeTable (pgdir : Nat) (asid : Word) (p : Pmap) (pdeno : Nat) : Option Pmap :=
  if valid (p.mem pgdir pdeno) then
    let pa := pteAddr (p.mem pgdir pdeno)
    (kaddr p pa).bind (fun pt =>
      ((List.range pageWords).foldlM (fun p pteno =>
        if valid (p.mem pt pteno) then
          pageRemove p pgdir asid (BitVec.ofNat 32 pdeno <<< pdshift ||| BitVec.ofNat 32 pteno <<< pgshift)
        else some p) p).bind (fun p₁ =>
          let p₂ := p₁.write (pgdir, pdeno) 0
          (pa2page p₂ pa).bind (fun t => (pageDecref p₂ t).map (fun p₃ =>
            tlbInvalidate p₃ asid (uvpt + BitVec.ofNat 32 pdeno <<< pgshift)))))
  else some p

/-- The pages `env_free` gives back. -/
def envFreePages (pgdir : Nat) (asid : Word) (p : Pmap) : Option Pmap :=
  ((List.range (pdx utop)).foldlM (envFreeTable pgdir asid) p).bind (fun p₁ =>
    (pa2page p₁ (page2pa pgdir)).bind (fun d => (pageDecref p₁ d).map (fun p₂ =>
      tlbInvalidate p₂ asid (uvpt + BitVec.ofNat 32 (pdx uvpt) <<< pgshift))))

def envFree (k : Kernel) (e : EnvIx) : Option Kernel :=
  (envFreePages (k.envs e).envPgdir (k.envs e).envAsid k.pm).bind (fun pm =>
    let k₁ := { k.setPm pm with
      asidBitmap := asidFree k.asidBitmap (k.envs e).envAsid.toNat
      envFreeList := e :: k.envFreeList }.setEnv e (fun v => { v with envStatus := .free })
    (k₁.sched.remove e).map k₁.setSched)

/-! ## Running -/

/-- The context of the environment that stops is saved. -/
def saveTf (k : Kernel) : Kernel :=
  match k.curenv with
  | some c => k.setEnv c (fun v => { v with envTf := k.ktf })
  | none => k

/-- `env_run`: save the old context, switch, and load the new one. -/
def envRun (k : Kernel) (e : EnvIx) : Option Kernel :=
  if (k.envs e).envStatus = .runnable then
    let k₁ := (saveTf k).setEnv e (fun v => { v with envRuns := v.envRuns + 1 })
    some { k₁ with curenv := some e, curPgdir := (k₁.envs e).envPgdir, ktf := (k₁.envs e).envTf }
  else none

end Mos
