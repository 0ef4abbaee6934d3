import Mos.Alive
import Mos.FailedSend
/-!
# Edits — what a step writes into the environments

`Edit` lists the writes of the kernel into the record of an environment, one constructor for each place of the source
that makes one.  A property of every record that each of these writes keeps, together with a property of the frame below
`KSTACKTOP` that goes with it, is kept by every step.
-/
namespace Mos

/-- The writes of `env_alloc` into the environment it takes. -/
inductive AllocEdit (e : EnvIx) : Env → Env → Prop where
  | pgdir (v : Env) (pp : Nat) : AllocEdit e v { v with envPgdir := pp }
  | id (v : Env) (i : Word) : AllocEdit e v { v with envUserTlbModEntry := 0, envRuns := 0, envId := mkenvid i e }
  | context (v : Env) (asid parentId : Word) : AllocEdit e v
      { v with
        envAsid := asid
        envParentId := parentId
        envTf := { v.envTf.setReg 29 (ustacktop - 8) with cp0Status := statusUser } }

/-- The call of `cur` gets to the fields of `e`. -/
def Syscall.delivers (k : Kernel) (cur : EnvIx) (e : EnvIx) : Syscall → Prop
  | .ipcTrySend envid _ srcva _ => Reaches k cur envid srcva e
  | _ => False

/-- The step delivers to `e`. -/
def Delivers (k : Kernel) (a : Act) (e : EnvIx) : Prop :=
  match a with
  | .syscall c _ => ∃ cur k₁, k.curenv = some cur ∧ readArgs k cur = some k₁ ∧ c.delivers k₁ cur e
  | _ => False

/-- **One write into the record of `e`**, in the step `a` from `k`; a context that is saved there meets `T`. -/
inductive Edit (T : Trapframe → Prop) (k : Kernel) (a : Act) (e : EnvIx) : Env → Env → Prop where
  | alloc (v v' : Env) : AllocEdit e v v' → Edit T k a e v v'
  | fork (v : Env) (tf : Trapframe) (pri : Word) : T tf →
      Edit T k a e v { v with envTf := tf, envStatus := .notRunnable, envPri := pri }
  | run (v : Env) : Edit T k a e v { v with envRuns := v.envRuns + 1 }
  | save (v : Env) (tf : Trapframe) : T tf → Edit T k a e v { v with envTf := tf }
  | free (v : Env) : Edit T k a e v { v with envStatus := .free }
  | status (v : Env) (st : EnvStatus) : v.envStatus ≠ .free → Edit T k a e v { v with envStatus := st }
  | tlbMod (v : Env) (func : Word) : Edit T k a e v { v with envUserTlbModEntry := func }
  | recv (v : Env) (dstva : Word) : v.envStatus ≠ .free → Edit T k a e v (v.startRecv dstva)
  | deliver (v : Env) (value src perm : Word) : v.envStatus ≠ .free → Delivers k a e →
      Edit T k a e v (v.deliver value src perm)

/-- **What makes `I` of the records and `T` of the frame a pair that the step `a` keeps.** -/
structure EditRule (I : EnvIx → Env → Prop) (T : Trapframe → Prop) (k : Kernel) (a : Act) : Prop where
  edit : ∀ e v v', Edit T k a e v v' → I e v → I e v'
  load : ∀ e v, v.envStatus = .runnable → I e v → T v.envTf
  regs : ∀ tf tf', tf'.cp0Status = tf.cp0Status → T tf → T tf'
  context : ∀ envid va tf v0 cur e, a = .syscall (.setTrapframe envid va tf) v0 → k.curenv = some cur →
    isIllegalVaRange va (BitVec.ofNat 32 sizeofTrapframe) = false → envid2env k cur envid true = some e → T tf

/-- `I` holds of every record, and `T` of the frame below `KSTACKTOP` when it belongs to an environment. -/
structure Held (I : EnvIx → Env → Prop) (T : Trapframe → Prop) (k : Kernel) : Prop where
  envs : ∀ e, I e (k.envs e)
  ktf : ∀ c, k.curenv = some c → T k.ktf

theorem envAlloc_curenv {k k' : Kernel} {parentId : Word} {r : Except Int EnvIx} (h : envAlloc k parentId = (r, k')) :
    k'.curenv = k.curenv := by
  rcases envAlloc_procs k parentId with ⟨i, k₁, he, -, hp⟩ | ⟨e, rest, k₁, he, -, hp⟩
  · cases he.symm.trans h
    exact congrArg Procs.running hp
  · cases he.symm.trans h
    exact congrArg Procs.running hp

namespace Held

variable {I : EnvIx → Env → Prop} {T : Trapframe → Prop} {k k₁ k' : Kernel} {a : Act}

theorem congr (h : Held I T k₁) (he : k'.envs = k₁.envs) (hc : k'.curenv = k₁.curenv) (hf : k'.ktf = k₁.ktf) :
    Held I T k' :=
  ⟨fun e => by rw [he]; exact h.envs e, fun c hcur => by rw [hf]; exact h.ktf c (hc ▸ hcur)⟩

theorem setPm (h : Held I T k₁) (pm : Pmap) : Held I T (k₁.setPm pm) := h.congr rfl rfl rfl

theorem setEnv (h : Held I T k₁) (e : EnvIx) {f : Env → Env} (hf : I e (f (k₁.envs e))) : Held I T (k₁.setEnv e f) := by
  refine ⟨fun x => ?_, h.ktf⟩
  rw [Kernel.setEnv_envs]
  split
  · rename_i hx
    rw [hx]
    exact hf
  · exact h.envs x

theorem frame (h : Held I T k₁) (hr : EditRule I T k a) (he : k'.envs = k₁.envs) (hc : k'.curenv = k₁.curenv)
    (hf : k'.ktf.cp0Status = k₁.ktf.cp0Status) : Held I T k' :=
  ⟨fun e => by rw [he]; exact h.envs e, fun c hcur => hr.regs _ _ hf (h.ktf c (hc ▸ hcur))⟩

theorem ret {i : Int} {r : Sysret × Kernel} (h : Held I T k₁) (hr : Mos.ret i k₁ = some r) : Held I T r.2 := by
  rw [ret_eq hr]
  exact h

/-! ### The operations on environments -/

theorem envRun {e : EnvIx} (h : Held I T k₁) (hr : EditRule I T k a) (hs : Mos.envRun k₁ e = some k') :
    Held I T k' := by
  unfold Mos.envRun at hs
  split at hs
  · rename_i hrun
    cases hs
    have hsave : Held I T (saveTf k₁) ∧ ((saveTf k₁).envs e).envStatus = .runnable := by
      unfold saveTf
      split
      · rename_i c hc
        refine ⟨h.setEnv c (hr.edit c _ _ (.save _ _ (h.ktf c hc)) (h.envs c)), ?_⟩
        have hst : ((k₁.setEnv c fun v => { v with envTf := k₁.ktf }).envs e).envStatus = (k₁.envs e).envStatus :=
          k₁.setEnv_field c e rfl
        rw [hst]
        exact hrun
      · exact ⟨h, hrun⟩
    have hran := hsave.1.setEnv e (f := fun v => { v with envRuns := v.envRuns + 1 })
      (hr.edit e _ _ (.run _) (hsave.1.envs e))
    refine ⟨hran.envs, fun c _ => hr.load e _ ?_ (hran.envs e)⟩
    rw [Kernel.setEnv_self]
    exact hsave.2
  · cases hs

theorem schedule {yield : Bool} (h : Held I T k₁) (hr : EditRule I T k a) (hs : Mos.schedule k₁ yield = some k') :
    Held I T k' := by
  unfold Mos.schedule at hs
  split at hs
  · obtain ⟨q, -, hrest⟩ := Option.bind_eq_some_iff.1 hs
    cases hf : q.first with
    | none => rw [hf] at hrest; cases hrest
    | some e =>
      rw [hf] at hrest
      have hsame : Held I T { k₁ with sched := q, count := (k₁.envs e).envPri.toInt - 1 } := h.congr rfl rfl rfl
      exact hsame.envRun hr hrest
  · split at hs
    · cases hs
    · rename_i e _
      have hsame : Held I T { k₁ with count := k₁.count - 1 } := h.congr rfl rfl rfl
      exact hsame.envRun hr hs

theorem envDestroy {e : EnvIx} (h : Held I T k₁) (hr : EditRule I T k a) (hs : Mos.envDestroy k₁ e = some k') :
    Held I T k' := by
  obtain ⟨k₂, hf, hrest⟩ := Option.bind_eq_some_iff.1 hs
  have hfree : Held I T k₂ := by
    obtain ⟨pm, -, hq⟩ := Option.bind_eq_some_iff.1 hf
    obtain ⟨q, -, rfl⟩ := Option.map_eq_some_iff.1 hq
    have hset := h.setEnv e (f := fun v => { v with envStatus := .free }) (hr.edit e _ _ (.free _) (h.envs e))
    exact hset.congr rfl rfl rfl
  split at hrest
  · have hidle : Held I T { k₂ with curenv := none } := ⟨hfree.envs, fun c hc => by cases hc⟩
    exact hidle.schedule hr hrest
  · cases hrest
    exact hfree

theorem envAlloc {parentId : Word} {r : Except Int EnvIx} (h : Held I T k₁)
    (hedit : ∀ e v v', AllocEdit e v v' → I e v → I e v') (hs : Mos.envAlloc k₁ parentId = (r, k')) : Held I T k' := by
  unfold Mos.envAlloc at hs
  split at hs
  · cases hs
    exact h
  · rename_i e rest _
    split at hs
    · cases hs
      exact h
    · rename_i k₂ hvm
      have hdir : Held I T k₂ := by
        obtain ⟨⟨pp, pm₁⟩, -, rfl⟩ := Option.map_eq_some_iff.1 hvm
        exact (h.setPm _).setEnv e (f := fun v => { v with envPgdir := pp }) (hedit e _ _ (.pgdir _ pp) (h.envs e))
      have hcount : Held I T { k₂ with mkenvidI := k₂.mkenvidI + 1 } := hdir.congr rfl rfl rfl
      have hid := hcount.setEnv e
        (f := fun v => { v with envUserTlbModEntry := 0, envRuns := 0, envId := mkenvid k₂.mkenvidI e })
        (hedit e _ _ (.id _ k₂.mkenvidI) (hcount.envs e))
      dsimp only at hs
      split at hs
      · cases hs
        exact hid
      · rename_i asid bitmap _
        cases hs
        refine setEnv ?_ e (hedit e _ _ (.context _ (BitVec.ofNat 32 asid) parentId) (hid.envs e))
        exact hid.congr rfl rfl rfl

/-! ### The calls -/

variable {cur : EnvIx} {r : Sysret × Kernel}

theorem touchRange {va : Word} {len : Nat} (h : Held I T k₁) (hs : k₁.touchRange cur va len = some k') :
    Held I T k' := by
  obtain ⟨pm, rfl⟩ := touchRange_eq hs
  exact h.setPm pm

theorem retPm {o : Option (Int × Pmap)} (h : Held I T k₁) (hs : o.bind (fun r => Mos.ret r.1 (k₁.setPm r.2)) = some r) :
    Held I T r.2 := by
  obtain ⟨⟨i, pm⟩, -, hret⟩ := Option.bind_eq_some_iff.1 hs
  exact (h.setPm pm).ret hret

theorem destroyAndReturn {e : EnvIx} {s : Sysret} (h : Held I T k₁) (hr : EditRule I T k a)
    (hs : Mos.destroyAndReturn k₁ cur e s = some r) : Held I T r.2 := by
  obtain ⟨k₂, h₂, rfl⟩ := Option.map_eq_some_iff.1 hs
  exact h.envDestroy hr h₂

theorem send {envid value srcva perm : Word} (h : Held I T k₁) (hr : EditRule I T k a)
    (hlive : (k₁.envs cur).envStatus ≠ .free) (hd : ∀ e, Reaches k₁ cur envid srcva e → Delivers k a e)
    (hs : sysIpcTrySend k₁ cur envid value srcva perm = some r) : Held I T r.2 := by
  have hwoken : ∀ e q, Reaches k₁ cur envid srcva e → Held I T (woken k₁ cur e value perm q) := by
    intro e q he
    have hset := h.setEnv e (f := fun v => v.deliver value (k₁.envs cur).envId perm)
      (hr.edit e _ _ (.deliver _ _ _ _ (envid2env_live hlive he.2.1) (hd e he)) (h.envs e))
    exact hset.congr rfl rfl rfl
  cases send_inv hs with
  | refused i _ hno => exact h
  | value e q he hrecv hq h0 => exact hwoken e q ⟨.inl h0, he, hrecv⟩
  | lost e q he hrecv hq h0 hva => exact hwoken e q ⟨.inr hva, he, hrecv⟩
  | page e q pp pte i pm he hrecv hq h0 hva => exact (hwoken e q ⟨.inr hva, he, hrecv⟩).setPm pm

/-- **A call keeps what the rule keeps.** -/
theorem call {c : Syscall} {v0 : Word} (h : Held I T k₁) (hr : EditRule I T k (.syscall c v0))
    (hcur : k.curenv = some cur) (hargs : readArgs k cur = some k₁) (hlive : (k₁.envs cur).envStatus ≠ .free)
    (hs : syscallTable k₁ cur c = some r) :
    Held I T r.2 := by
  cases c with
  | putchar => cases hs; exact h
  | printCons s num =>
    simp only [syscallTable, sysPrintCons] at hs
    split at hs
    · exact h.ret hs
    · obtain ⟨k₂, h₂, hret⟩ := Option.bind_eq_some_iff.1 hs
      exact (h.touchRange h₂).ret hret
  | getenvid => exact h.ret hs
  | yield =>
    obtain ⟨k₂, h₂, rfl⟩ := Option.map_eq_some_iff.1 hs
    exact h.schedule hr h₂
  | envDestroy envid =>
    simp only [syscallTable, sysEnvDestroy] at hs
    split at hs
    · exact h.ret hs
    · exact h.destroyAndReturn hr hs
  | setTlbModEntry envid func =>
    simp only [syscallTable, sysSetTlbModEntry] at hs
    split at hs
    · exact h.ret hs
    · rename_i e _
      refine ret (h.setEnv e (f := fun v => { v with envUserTlbModEntry := func }) ?_) hs
      exact hr.edit e _ _ (.tlbMod _ func) (h.envs e)
  | memAlloc envid va perm =>
    simp only [syscallTable, sysMemAlloc] at hs
    split at hs
    · exact h.ret hs
    · split at hs
      · exact h.ret hs
      · split at hs
        · exact h.ret hs
        · exact h.retPm hs
  | memMap srcid srcva dstid dstva perm =>
    simp only [syscallTable, sysMemMap] at hs
    split at hs
    · exact h.ret hs
    · split at hs
      · exact h.ret hs
      · split at hs
        · exact h.ret hs
        · obtain ⟨l, -, hl⟩ := Option.bind_eq_some_iff.1 hs
          cases l with
          | none => exact h.ret hl
          | some l => exact h.retPm hl
  | memUnmap envid va =>
    simp only [syscallTable, sysMemUnmap] at hs
    split at hs
    · exact h.ret hs
    · split at hs
      · exact h.ret hs
      · obtain ⟨pm, -, hret⟩ := Option.bind_eq_some_iff.1 hs
        exact (h.setPm pm).ret hret
  | exofork =>
    have halloc : ∀ e v v', AllocEdit e v v' → I e v → I e v' := fun e v v' he => hr.edit e v v' (.alloc v v' he)
    simp only [syscallTable, sysExofork] at hs
    split at hs
    · rename_i i k₂ ha
      exact (h.envAlloc halloc ha).ret hs
    · rename_i e k₂ ha
      have h₂ := h.envAlloc halloc ha
      have hc₂ : k₂.curenv = some cur := by
        obtain ⟨pm, rfl⟩ := readArgs_eq hargs
        exact (envAlloc_curenv ha).trans hcur
      refine ret (h₂.setEnv e ?_) hs
      exact hr.edit e _ _ (.fork _ _ _ (hr.regs k₂.ktf _ rfl (h₂.ktf cur hc₂))) (h₂.envs e)
  | setEnvStatus envid status =>
    simp only [syscallTable, sysSetEnvStatus] at hs
    split at hs
    · exact h.ret hs
    · rename_i st _
      split at hs
      · exact h.ret hs
      · rename_i e he
        obtain ⟨q, -, hret⟩ := Option.bind_eq_some_iff.1 hs
        have hset := h.setEnv e (f := fun v => { v with envStatus := st })
          (hr.edit e _ _ (.status _ st (envid2env_live hlive he)) (h.envs e))
        rw [ret_eq hret]
        exact hset.congr rfl rfl rfl
  | setTrapframe envid va tf =>
    simp only [syscallTable, sysSetTrapframe] at hs
    split at hs
    · exact h.ret hs
    · rename_i hva
      split at hs
      · exact h.ret hs
      · rename_i e he
        have hT : T tf := by
          obtain ⟨pm, rfl⟩ := readArgs_eq hargs
          exact hr.context envid va tf v0 cur e rfl hcur (Bool.eq_false_iff.2 hva) he
        obtain ⟨k₂, h₂, hret⟩ := Option.bind_eq_some_iff.1 hs
        have hread := h.touchRange h₂
        split at hret
        · have hregs : Held I T { k₂ with ktf := tf } := ⟨hread.envs, fun _ _ => hT⟩
          exact hregs.ret hret
        · exact ret (hread.setEnv e (hr.edit e _ _ (.save _ tf hT) (hread.envs e))) hret
  | panic => cases hs
  | ipcTrySend envid value srcva perm => exact h.send hr hlive (fun e he => ⟨cur, k₁, hcur, hargs, he⟩) hs
  | ipcRecv dstva =>
    simp only [syscallTable, sysIpcRecv] at hs
    split at hs
    · exact h.ret hs
    · obtain ⟨q, -, hrest⟩ := Option.bind_eq_some_iff.1 hs
      obtain ⟨k₂, h₂, rfl⟩ := Option.map_eq_some_iff.1 hrest
      have hset := h.setEnv cur (f := fun v => v.startRecv dstva) (hr.edit cur _ _ (.recv _ dstva hlive) (h.envs cur))
      refine schedule ?_ hr h₂
      exact hset.frame hr rfl rfl rfl
  | cgetc ch => exact h.ret hs
  | writeDev va pa len =>
    simp only [syscallTable, sysWriteDev] at hs
    split at hs
    · exact h.ret hs
    · obtain ⟨k₂, h₂, hret⟩ := Option.bind_eq_some_iff.1 hs
      exact (h.touchRange h₂).ret hret
  | readDev va pa len w =>
    simp only [syscallTable, sysReadDev] at hs
    split at hs
    · exact h.ret hs
    · obtain ⟨k₂, h₂, hrest⟩ := Option.bind_eq_some_iff.1 hs
      obtain ⟨pm, -, hret⟩ := Option.bind_eq_some_iff.1 hrest
      obtain ⟨pm₂, rfl⟩ := touch_eq h₂
      exact ((h.setPm pm₂).setPm pm).ret hret
  | getEnvParentId envid =>
    simp only [syscallTable, sysGetEnvParentId] at hs
    split at hs <;> exact h.ret hs
  | addJob envid cmd =>
    simp only [syscallTable, sysAddJob] at hs
    split at hs
    · cases hs
      exact h.congr rfl rfl rfl
    · cases hs
  | printJobs => cases hs; exact h
  | tryDoneJobStatus envid =>
    obtain ⟨e, -, hd⟩ := Option.bind_eq_some_iff.1 hs
    refine destroyAndReturn ?_ hr hd
    exact h.congr rfl rfl rfl
  | killJob jobId =>
    simp only [syscallTable, sysKillJob] at hs
    split at hs
    · cases hs
      exact h
    · obtain ⟨i, -, hrest⟩ := Option.bind_eq_some_iff.1 hs
      split at hrest
      · cases hrest
        exact h
      · obtain ⟨e, -, hd⟩ := Option.bind_eq_some_iff.1 hrest
        refine destroyAndReturn ?_ hr hd
        exact h.congr rfl rfl rfl
  | getEnvidByJob jobId =>
    simp only [syscallTable, sysGetEnvidByJob] at hs
    split at hs
    · exact h.ret hs
    · obtain ⟨i, -, hi⟩ := Option.bind_eq_some_iff.1 hs
      split at hi <;> exact h.ret hi

/-! ### Steps -/

/-- **A step keeps what the rule keeps.** -/
theorem step (h : Held I T k) (hal : k.procs.Alive) (hr : EditRule I T k a) (hs : Mos.step k a = some k') :
    Held I T k' := by
  cases a with
  | tick => exact h.schedule hr hs
  | exec tf =>
    obtain ⟨cur, -, hu⟩ := Option.bind_eq_some_iff.1 hs
    cases hu
    exact h.frame hr rfl rfl rfl
  | miss va victim =>
    obtain ⟨cur, -, hu⟩ := Option.bind_eq_some_iff.1 hs
    simp only [userStep] at hu
    split at hu
    · cases hu
    · obtain ⟨pm, -, rfl⟩ := Option.map_eq_some_iff.1 hu
      exact h.setPm pm
  | store va w =>
    obtain ⟨cur, -, hu⟩ := Option.bind_eq_some_iff.1 hs
    obtain ⟨pm, -, rfl⟩ := Option.map_eq_some_iff.1 hu
    exact h.setPm pm
  | mod va =>
    obtain ⟨cur, -, hu⟩ := Option.bind_eq_some_iff.1 hs
    simp only [userStep, doTlbMod] at hu
    obtain ⟨k₁, hw, hrest⟩ := Option.bind_eq_some_iff.1 hu
    obtain ⟨pm, rfl⟩ := storeWords_eq hw
    split at hrest
    · cases hrest
    · cases hrest
      exact h.frame hr rfl rfl rfl
  | syscall c v0 =>
    obtain ⟨cur, hcur, hu⟩ := Option.bind_eq_some_iff.1 hs
    obtain ⟨k₁, r, hargs, hc, rfl⟩ := doSyscall_inv hu
    have h₁ : Held I T k₁ ∧ k₁.envs = k.envs := by
      obtain ⟨pm, rfl⟩ := readArgs_eq hargs
      exact ⟨h.frame hr rfl rfl rfl, rfl⟩
    have hlive : (k₁.envs cur).envStatus ≠ .free := by
      rw [h₁.2]
      exact hal.running cur hcur
    have hcall := h₁.1.call hr hcur hargs hlive hc
    obtain ⟨_ | _ | _, k₂⟩ := r
    · exact hcall.frame hr rfl rfl rfl
    · exact hcall.frame hr rfl rfl rfl
    · exact hcall
  | noSys =>
    obtain ⟨cur, -, hu⟩ := Option.bind_eq_some_iff.1 hs
    cases hu
    exact h.frame hr rfl rfl rfl

end Held

/-! ## Boot -/

theorem envAlloc_context {k k' : Kernel} {parentId : Word} {e : EnvIx} (h : envAlloc k parentId = (.ok e, k')) :
    (k'.envs e).envTf.cp0Status = statusUser := by
  unfold envAlloc at h
  split at h
  · cases h
  · split at h
    · cases h
    · dsimp only at h
      split at h
      · cases h
      · cases h
        rw [Kernel.setEnv_self]

/-- **`env_create` keeps what `env_alloc` keeps**, when the record of a new program has it. -/
theorem envCreate_held {I : EnvIx → Env → Prop} {T : Trapframe → Prop} {k k' : Kernel} {binary : Binary}
    {priority : Word} (hedit : ∀ e v v', AllocEdit e v v' → I e v → I e v')
    (hnew : ∀ e v tf, v.envTf.cp0Status = statusUser → tf.cp0Status = statusUser → I e v →
      I e { v with envTf := tf, envPri := priority, envStatus := .runnable })
    (h : Held I T k) (hs : envCreate k binary priority = some k') : Held I T k' := by
  unfold envCreate at hs
  split at hs
  · rename_i i k₁ ha
    cases hs
    exact h.envAlloc hedit ha
  · rename_i e k₁ ha
    have h₁ := h.envAlloc hedit ha
    have hst := envAlloc_context ha
    obtain ⟨k₂, h₂, rfl⟩ := Option.map_eq_some_iff.1 hs
    obtain ⟨ehdr, -, h₃⟩ := Option.bind_eq_some_iff.1 h₂
    obtain ⟨pm, -, rfl⟩ := Option.map_eq_some_iff.1 h₃
    refine ⟨fun x => ?_, h₁.ktf⟩
    rw [Kernel.setSched_envs, Kernel.setEnv_envs]
    split
    · rename_i hx
      subst hx
      rw [Kernel.setPm_envs, Kernel.setEnv_self]
      exact hnew x (k₁.envs x) _ hst hst (h₁.envs x)
    · rename_i hx
      rw [Kernel.setPm_envs, Kernel.setEnv_ne _ _ hx]
      exact h₁.envs x

/-- **What zeroed records have and `env_create` keeps holds of every booted kernel.** -/
theorem booted_held {I : EnvIx → Env → Prop} {T : Trapframe → Prop} (hzero : ∀ e, I e Env.zero)
    (hedit : ∀ e v v', AllocEdit e v v' → I e v → I e v')
    (hnew : ∀ e v tf pri, v.envTf.cp0Status = statusUser → tf.cp0Status = statusUser → I e v →
      I e { v with envTf := tf, envPri := pri, envStatus := .runnable })
    {k : Kernel} (h : Booted k) : Held I T k := by
  obtain ⟨b, programs, hb⟩ := h
  obtain ⟨⟨pages, pm⟩, -, h₁⟩ := Option.bind_eq_some_iff.1 hb
  obtain ⟨k₀, hk₀, hfold⟩ := Option.bind_eq_some_iff.1 h₁
  have hw : Held I T k₀ := by
    obtain ⟨⟨pp, pm₁⟩, -, h₂⟩ := Option.bind_eq_some_iff.1 hk₀
    obtain ⟨pm₂, -, h₃⟩ := Option.bind_eq_some_iff.1 h₂
    obtain ⟨pm₃, -, rfl⟩ := Option.map_eq_some_iff.1 h₃
    exact ⟨hzero, fun c hc => by cases hc⟩
  clear hk₀ hb h₁
  induction programs generalizing k₀ with
  | nil => cases hfold; exact hw
  | cons pr prs ih =>
    obtain ⟨k₁, hc, hrest⟩ := Option.bind_eq_some_iff.1 hfold
    exact ih k₁ hrest (envCreate_held hedit (fun e v tf => hnew e v tf pr.priority) hw hc)

end Mos
