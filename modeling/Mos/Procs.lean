import Mos.Machine
/-!
# Procs — what a step does to the process table

Inversion lemmas of the operations of `kern/env.c`, `kern/sched.c` and `kern/syscall_all.c`, as far as they concern the
process table: the scheduler's list, the free list, the running environment, and of every environment its status and
whether it is receiving.  Most calls leave all of these alone; the few that do not are inverted one by one, so that an
invariant of the process table never unfolds a call.
-/
namespace Mos

/-! ## Updates of one environment -/

namespace Kernel

@[simp] theorem setEnv_self (k : Kernel) (e : EnvIx) (f : Env → Env) : (k.setEnv e f).envs e = f (k.envs e) := by
  simp [setEnv]

theorem setEnv_ne (k : Kernel) {e x : EnvIx} (f : Env → Env) (h : x ≠ e) : (k.setEnv e f).envs x = k.envs x := by
  simp [setEnv, Function.update_of_ne h]

theorem setEnv_envs (k : Kernel) (e x : EnvIx) (f : Env → Env) :
    (k.setEnv e f).envs x = if x = e then f (k.envs e) else k.envs x := by
  by_cases h : x = e
  · subst h; simp
  · rw [if_neg h, setEnv_ne k f h]

theorem setEnv_field {α : Type} {field : Env → α} (k : Kernel) (e x : EnvIx) {f : Env → Env}
    (hf : field (f (k.envs e)) = field (k.envs e)) : field ((k.setEnv e f).envs x) = field (k.envs x) := by
  rw [setEnv_envs]
  split
  · rename_i hx
    rw [hf, hx]
  · rfl

@[simp] theorem setEnv_pm (k : Kernel) (e : EnvIx) (f : Env → Env) : (k.setEnv e f).pm = k.pm := rfl
@[simp] theorem setEnv_sched (k : Kernel) (e : EnvIx) (f : Env → Env) : (k.setEnv e f).sched = k.sched := rfl
@[simp] theorem setEnv_curenv (k : Kernel) (e : EnvIx) (f : Env → Env) : (k.setEnv e f).curenv = k.curenv := rfl
@[simp] theorem setEnv_envFreeList (k : Kernel) (e : EnvIx) (f : Env → Env) :
    (k.setEnv e f).envFreeList = k.envFreeList := rfl
@[simp] theorem setPm_pm (k : Kernel) (pm : Pmap) : (k.setPm pm).pm = pm := rfl
@[simp] theorem setPm_envs (k : Kernel) (pm : Pmap) : (k.setPm pm).envs = k.envs := rfl
@[simp] theorem setPm_sched (k : Kernel) (pm : Pmap) : (k.setPm pm).sched = k.sched := rfl
@[simp] theorem setPm_curenv (k : Kernel) (pm : Pmap) : (k.setPm pm).curenv = k.curenv := rfl
@[simp] theorem setPm_envFreeList (k : Kernel) (pm : Pmap) : (k.setPm pm).envFreeList = k.envFreeList := rfl
@[simp] theorem setSched_envs (k : Kernel) (q : Tailq EnvIx) : (k.setSched q).envs = k.envs := rfl
@[simp] theorem setSched_pm (k : Kernel) (q : Tailq EnvIx) : (k.setSched q).pm = k.pm := rfl
@[simp] theorem setSched_sched (k : Kernel) (q : Tailq EnvIx) : (k.setSched q).sched = q := rfl
@[simp] theorem setSched_curenv (k : Kernel) (q : Tailq EnvIx) : (k.setSched q).curenv = k.curenv := rfl
@[simp] theorem setSched_envFreeList (k : Kernel) (q : Tailq EnvIx) :
    (k.setSched q).envFreeList = k.envFreeList := rfl

end Kernel

/-! ## The process table -/

/-- The process table: `env_sched_list`, `env_free_list`, `curenv`, and of every environment its status and whether it
is receiving. -/
structure Procs where
  queue : Tailq EnvIx
  free : List EnvIx
  running : Option EnvIx
  status : EnvIx → EnvStatus
  recving : EnvIx → Bool

def Kernel.procs (k : Kernel) : Procs :=
  { queue := k.sched, free := k.envFreeList, running := k.curenv, status := fun e => (k.envs e).envStatus
    recving := fun e => decide ((k.envs e).envIpcRecving ≠ 0) }

namespace Procs

def setStatus (p : Procs) (e : EnvIx) (st : EnvStatus) : Procs := { p with status := Function.update p.status e st }

def setRecving (p : Procs) (e : EnvIx) (b : Bool) : Procs := { p with recving := Function.update p.recving e b }

/-- The list `schedule` picks from. -/
def requeue (p : Procs) : Option (Tailq EnvIx) :=
  match p.running with
  | none => some p.queue
  | some e => (p.queue.remove e).bind (fun q => if p.status e = .runnable then q.insertTail e else some q)

/-- `schedule`: the environment that runs goes on, or the first of the list is switched to. -/
inductive Picks (p : Procs) : Procs → Prop where
  | stay (e : EnvIx) : p.running = some e → p.status e = .runnable → Picks p p
  | switch (q : Tailq EnvIx) (e : EnvIx) : p.requeue = some q → q.first = some e → p.status e = .runnable →
      Picks p { p with queue := q, running := some e }

/-- `env_free` of `e`, which leaves the list `q`. -/
def freed (p : Procs) (e : EnvIx) (q : Tailq EnvIx) : Procs :=
  { p.setStatus e .free with queue := q, free := e :: p.free }

/-- `env_destroy`: the environment is freed, and another one is picked when it ran. -/
inductive Destroys (p : Procs) (e : EnvIx) : Procs → Prop where
  | other (q : Tailq EnvIx) : p.queue.remove e = some q → p.running ≠ some e → Destroys p e (p.freed e q)
  | self (q : Tailq EnvIx) (p' : Procs) : p.queue.remove e = some q → p.running = some e →
      Picks { p.freed e q with running := none } p' → Destroys p e p'

end Procs

@[simp] theorem procs_setPm (k : Kernel) (pm : Pmap) : (k.setPm pm).procs = k.procs := rfl

theorem procs_setEnv (k : Kernel) (e : EnvIx) (f : Env → Env) : (k.setEnv e f).procs =
    (k.procs.setStatus e (f (k.envs e)).envStatus).setRecving e (decide ((f (k.envs e)).envIpcRecving ≠ 0)) := by
  simp only [Kernel.procs, Kernel.setEnv, Procs.setStatus, Procs.setRecving, Procs.mk.injEq, true_and]
  constructor <;> funext x <;> by_cases h : x = e
  · subst h; simp
  · simp [Function.update_of_ne h]
  · subst h; simp
  · simp [Function.update_of_ne h]

theorem procs_setEnv_status (k : Kernel) (e : EnvIx) {f : Env → Env}
    (hr : (f (k.envs e)).envIpcRecving = (k.envs e).envIpcRecving) :
    (k.setEnv e f).procs = k.procs.setStatus e (f (k.envs e)).envStatus := by
  rw [procs_setEnv, hr]
  simp [Procs.setRecving, Procs.setStatus, Kernel.procs]

/-- An update of other fields of an environment leaves the process table alone. -/
theorem procs_setEnv_same (k : Kernel) (e : EnvIx) {f : Env → Env}
    (hs : (f (k.envs e)).envStatus = (k.envs e).envStatus)
    (hr : (f (k.envs e)).envIpcRecving = (k.envs e).envIpcRecving) : (k.setEnv e f).procs = k.procs := by
  rw [procs_setEnv_status k e hr, hs]
  simp [Procs.setStatus, Kernel.procs]

/-! ## Accesses of the kernel to user memory -/

theorem touch_eq {k k' : Kernel} {cur : EnvIx} {va : Word} (h : k.touch cur va = some k') : ∃ pm, k' = k.setPm pm := by
  obtain ⟨pm, -, rfl⟩ := Option.map_eq_some_iff.1 h
  exact ⟨pm, rfl⟩

theorem touchRange_eq {cur : EnvIx} {va : Word} {len : Nat} : ∀ {k k' : Kernel},
    k.touchRange cur va len = some k' → ∃ pm, k' = k.setPm pm := by
  unfold Kernel.touchRange
  generalize List.range len = is
  induction is with
  | nil => intro k k' h; cases h; exact ⟨k.pm, rfl⟩
  | cons i is ih =>
    intro k k' h
    rw [List.foldlM_cons] at h
    obtain ⟨k₁, h₁, h₂⟩ := Option.bind_eq_some_iff.1 h
    obtain ⟨pm, rfl⟩ := touch_eq h₁
    obtain ⟨pm', rfl⟩ := ih h₂
    exact ⟨pm', rfl⟩

theorem storeWords_eq {cur : EnvIx} : ∀ {ws : List Word} {va : Word} {k k' : Kernel},
    k.storeWords cur va ws = some k' → ∃ pm, k' = k.setPm pm
  | [], _, k, _, h => by cases h; exact ⟨k.pm, rfl⟩
  | w :: ws, va, k, k', h => by
    unfold Kernel.storeWords at h
    obtain ⟨k₁, h₁, h₂⟩ := Option.bind_eq_some_iff.1 h
    obtain ⟨pm₁, rfl⟩ := touch_eq h₁
    obtain ⟨pm₂, -, h₃⟩ := Option.bind_eq_some_iff.1 h₂
    obtain ⟨pm₃, rfl⟩ := storeWords_eq h₃
    exact ⟨pm₃, rfl⟩

/-- Reading the arguments changes page tables and the saved context only. -/
theorem readArgs_eq {k k' : Kernel} {cur : EnvIx} (h : readArgs k cur = some k') :
    ∃ pm, k' = { k with ktf := k.ktf.nextInstr }.setPm pm := by
  obtain ⟨k₁, h₁, h₂⟩ := Option.bind_eq_some_iff.1 h
  obtain ⟨pm₁, rfl⟩ := touch_eq h₁
  obtain ⟨pm₂, rfl⟩ := touch_eq h₂
  exact ⟨pm₂, rfl⟩

theorem doSyscall_inv {k k' : Kernel} {cur : EnvIx} {c : Syscall} {v0 : Word} (h : doSyscall k cur c v0 = some k') :
    ∃ k₁ r, readArgs k cur = some k₁ ∧ syscallTable k₁ cur c = some r ∧ k' = setV0 v0 r := by
  obtain ⟨k₁, h₁, hcall⟩ := Option.bind_eq_some_iff.1 h
  obtain ⟨r, hr, rfl⟩ := Option.map_eq_some_iff.1 hcall
  exact ⟨k₁, r, h₁, hr, rfl⟩

/-- The state the call of the table starts from is the caller's, but for page tables and the saved context. -/
theorem doSyscall_cases {k k' : Kernel} {cur : EnvIx} {c : Syscall} {v0 : Word} (h : doSyscall k cur c v0 = some k') :
    ∃ pm r, syscallTable ({ k with ktf := k.ktf.nextInstr }.setPm pm) cur c = some r ∧ k' = setV0 v0 r := by
  obtain ⟨k₁, r, h₁, hr, rfl⟩ := doSyscall_inv h
  obtain ⟨pm, rfl⟩ := readArgs_eq h₁
  exact ⟨pm, r, hr, rfl⟩

@[simp] theorem procs_setV0 (v0 : Word) (r : Sysret × Kernel) : (setV0 v0 r).procs = r.2.procs := by
  obtain ⟨_ | _ | _, k⟩ := r <;> rfl

/-! ## Environments a call may name -/

/-- What `envid2env` finds: the caller, or the environment that has the id. -/
theorem envid2env_cases {k : Kernel} {cur e : EnvIx} {envid : Word} {checkperm : Bool}
    (h : envid2env k cur envid checkperm = some e) :
    e = cur ∨ (k.envs e).envStatus ≠ .free ∧ (k.envs e).envId = envid := by
  unfold envid2env at h
  split at h
  · cases h; exact .inl rfl
  · dsimp only at h
    split at h
    · cases h
    · rename_i hb
      rw [not_or, not_not] at hb
      split at h
      · cases h
      · cases h; exact .inr hb

theorem envid2env_live {k : Kernel} {cur e : EnvIx} {envid : Word} {checkperm : Bool}
    (hcur : (k.envs cur).envStatus ≠ .free) (h : envid2env k cur envid checkperm = some e) :
    (k.envs e).envStatus ≠ .free := by
  rcases envid2env_cases h with rfl | ⟨h, -⟩
  · exact hcur
  · exact h

theorem envid2env_congr {k k' : Kernel} (h : k'.envs = k.envs) (cur : EnvIx) (envid : Word) (checkperm : Bool) :
    envid2env k' cur envid checkperm = envid2env k cur envid checkperm := by
  simp only [envid2env, h]

/-! ## The operations on the process table -/

theorem envRun_procs {k k' : Kernel} {e : EnvIx} (h : envRun k e = some k') :
    (k.envs e).envStatus = .runnable ∧ k'.procs = { k.procs with running := some e } := by
  unfold envRun at h
  split at h
  · rename_i hr
    cases h
    refine ⟨hr, ?_⟩
    have hsave : (saveTf k).procs = k.procs := by
      unfold saveTf
      split
      · exact procs_setEnv_same k _ rfl rfl
      · rfl
    have hrun : ((saveTf k).setEnv e (fun v => { v with envRuns := v.envRuns + 1 })).procs = k.procs :=
      (procs_setEnv_same _ e rfl rfl).trans hsave
    rw [← hrun]
    rfl
  · cases h

theorem schedule_procs {k k' : Kernel} {yield : Bool} (h : schedule k yield = some k') :
    k.procs.Picks k'.procs := by
  unfold schedule at h
  split at h
  · obtain ⟨q, hq, hrest⟩ := Option.bind_eq_some_iff.1 h
    cases hf : q.first with
    | none => rw [hf] at hrest; cases hrest
    | some e =>
      rw [hf] at hrest
      obtain ⟨hr, hp⟩ := envRun_procs hrest
      rw [hp]
      exact .switch q e hq hf hr
  · cases hc : k.curenv with
    | none => rw [hc] at h; cases h
    | some e =>
      rw [hc] at h
      obtain ⟨hr, hp⟩ := envRun_procs h
      have hstay : k'.procs = k.procs := by
        rw [hp, ← hc]; rfl
      rw [hstay]
      exact .stay e hc hr

theorem envFree_procs {k k' : Kernel} {e : EnvIx} (h : envFree k e = some k') :
    ∃ q, k.procs.queue.remove e = some q ∧ k'.procs = k.procs.freed e q := by
  unfold envFree at h
  obtain ⟨pm, -, hrest⟩ := Option.bind_eq_some_iff.1 h
  obtain ⟨q, hq, rfl⟩ := Option.map_eq_some_iff.1 hrest
  refine ⟨q, hq, ?_⟩
  show { (Kernel.setEnv _ e _).procs with queue := q } = _
  rw [procs_setEnv_status _ e rfl]
  rfl

theorem envDestroy_procs {k k' : Kernel} {e : EnvIx} (h : envDestroy k e = some k') :
    k.procs.Destroys e k'.procs := by
  unfold envDestroy at h
  obtain ⟨k₁, h₁, hrest⟩ := Option.bind_eq_some_iff.1 h
  obtain ⟨q, hq, hp⟩ := envFree_procs h₁
  have hcur : k₁.curenv = k.curenv := congrArg Procs.running hp
  split at hrest
  · rename_i hself
    have hpick := schedule_procs hrest
    have hprocs : ({ k₁ with curenv := none } : Kernel).procs = { k.procs.freed e q with running := none } := by
      rw [← hp]; rfl
    rw [hprocs] at hpick
    exact .self q _ hq (hcur.symm.trans hself) hpick
  · rename_i hother
    cases hrest
    rw [hp]
    exact .other q hq (fun hself => hother (hcur.trans hself))

/-! ## The calls on the process table -/

/-- The calls that move no environment between lists. -/
def Syscall.quiet : Syscall → Bool
  | .yield | .envDestroy _ | .exofork | .setEnvStatus .. | .ipcTrySend .. | .ipcRecv _ | .tryDoneJobStatus _
  | .killJob _ => false
  | _ => true

theorem ret_eq {i : Int} {k : Kernel} {r : Sysret × Kernel} (h : ret i k = some r) : r = (.ret i, k) := by
  cases h; rfl

theorem retBind_procs {k k₀ : Kernel} {o : Option Pmap} {i : Int} {r : Sysret × Kernel} (hk : k.procs = k₀.procs)
    (h : o.bind (fun pm => ret i (k.setPm pm)) = some r) : r.2.procs = k₀.procs := by
  obtain ⟨pm, -, hr⟩ := Option.bind_eq_some_iff.1 h
  cases hr
  exact hk

theorem insertBind_procs {k k₀ : Kernel} {o : Option (Int × Pmap)} {r : Sysret × Kernel} (hk : k.procs = k₀.procs)
    (h : o.bind (fun x => ret x.1 (k.setPm x.2)) = some r) : r.2.procs = k₀.procs := by
  obtain ⟨x, -, hr⟩ := Option.bind_eq_some_iff.1 h
  cases hr
  exact hk

theorem touchRangeBind_procs {k : Kernel} {cur : EnvIx} {va : Word} {len : Nat} {r : Sysret × Kernel}
    {f : Kernel → Outcome} (hf : ∀ k₁, f k₁ = some r → r.2.procs = k₁.procs)
    (h : (k.touchRange cur va len).bind f = some r) : r.2.procs = k.procs := by
  obtain ⟨k₁, h₁, h₂⟩ := Option.bind_eq_some_iff.1 h
  obtain ⟨pm, rfl⟩ := touchRange_eq h₁
  exact (hf (k.setPm pm) h₂).trans rfl

theorem ret_procs {i : Int} {k : Kernel} {r : Sysret × Kernel} (h : ret i k = some r) : r.2.procs = k.procs := by
  rw [ret_eq h]

/-- **A quiet call leaves the process table alone.** -/
theorem quiet_procs {k : Kernel} {cur : EnvIx} {c : Syscall} {r : Sysret × Kernel} (hc : c.quiet = true)
    (h : syscallTable k cur c = some r) : r.2.procs = k.procs := by
  cases c with
  | putchar => cases h; rfl
  | printCons s num =>
    simp only [syscallTable, sysPrintCons] at h
    split at h
    · exact ret_procs h
    · exact touchRangeBind_procs (fun _ => ret_procs) h
  | getenvid => exact ret_procs h
  | yield => cases hc
  | envDestroy => cases hc
  | setTlbModEntry envid func =>
    simp only [syscallTable, sysSetTlbModEntry] at h
    split at h
    · exact ret_procs h
    · rw [ret_procs h]
      exact procs_setEnv_same k _ rfl rfl
  | memAlloc envid va perm =>
    simp only [syscallTable, sysMemAlloc] at h
    split at h
    · exact ret_procs h
    · split at h
      · exact ret_procs h
      · split at h
        · exact ret_procs h
        · exact insertBind_procs rfl h
  | memMap srcid srcva dstid dstva perm =>
    simp only [syscallTable, sysMemMap] at h
    split at h
    · exact ret_procs h
    · split at h
      · exact ret_procs h
      · split at h
        · exact ret_procs h
        · obtain ⟨l, -, hl⟩ := Option.bind_eq_some_iff.1 h
          cases l with
          | none => exact ret_procs hl
          | some l => exact insertBind_procs rfl hl
  | memUnmap envid va =>
    simp only [syscallTable, sysMemUnmap] at h
    split at h
    · exact ret_procs h
    · split at h
      · exact ret_procs h
      · exact retBind_procs rfl h
  | exofork => cases hc
  | setEnvStatus => cases hc
  | setTrapframe envid va tf =>
    simp only [syscallTable, sysSetTrapframe] at h
    split at h
    · exact ret_procs h
    · split at h
      · exact ret_procs h
      · refine touchRangeBind_procs (fun k₁ hk₁ => ?_) h
        split at hk₁
        · rw [ret_procs hk₁]; rfl
        · rw [ret_procs hk₁]
          exact procs_setEnv_same k₁ _ rfl rfl
  | panic => cases h
  | ipcTrySend => cases hc
  | ipcRecv => cases hc
  | cgetc ch => exact ret_procs h
  | writeDev va pa len =>
    simp only [syscallTable, sysWriteDev] at h
    split at h
    · exact ret_procs h
    · exact touchRangeBind_procs (fun _ => ret_procs) h
  | readDev va pa len w =>
    simp only [syscallTable, sysReadDev] at h
    split at h
    · exact ret_procs h
    · obtain ⟨k₁, h₁, h₂⟩ := Option.bind_eq_some_iff.1 h
      obtain ⟨pm, rfl⟩ := touch_eq h₁
      exact retBind_procs rfl h₂
  | getEnvParentId envid =>
    simp only [syscallTable, sysGetEnvParentId] at h
    split at h <;> exact ret_procs h
  | addJob envid cmd =>
    simp only [syscallTable, sysAddJob] at h
    split at h
    · cases h; rfl
    · cases h
  | printJobs => cases h; rfl
  | tryDoneJobStatus => cases hc
  | killJob => cases hc
  | getEnvidByJob jobId =>
    simp only [syscallTable, sysGetEnvidByJob] at h
    split at h
    · exact ret_procs h
    · obtain ⟨i, -, hi⟩ := Option.bind_eq_some_iff.1 h
      split at hi <;> exact ret_procs hi

/-- `env_alloc` takes the first free environment, or fails and leaves the process table alone. -/
theorem envAlloc_procs (k : Kernel) (parentId : Word) :
    (∃ r k', envAlloc k parentId = (.error r, k') ∧ r < 0 ∧ k'.procs = k.procs) ∨
    (∃ e rest k', envAlloc k parentId = (.ok e, k') ∧ k.procs.free = e :: rest ∧
      k'.procs = { k.procs with free := rest }) := by
  unfold envAlloc
  cases hf : k.envFreeList with
  | nil => exact .inl ⟨_, k, rfl, by decide, rfl⟩
  | cons e rest =>
    dsimp only
    cases hs : envSetupVm k e with
    | none => exact .inl ⟨_, k, rfl, by decide, rfl⟩
    | some k₁ =>
      have hp₁ : k₁.procs = k.procs := by
        unfold envSetupVm at hs
        obtain ⟨⟨pp, pm₁⟩, -, rfl⟩ := Option.map_eq_some_iff.1 hs
        exact procs_setEnv_same _ e rfl rfl
      dsimp only
      split
      · refine .inl ⟨_, _, rfl, by decide, ?_⟩
        rw [procs_setEnv_same _ e rfl rfl]
        exact hp₁
      · refine .inr ⟨e, rest, _, rfl, hf, ?_⟩
        rw [procs_setEnv_same _ e rfl rfl, ← hp₁]
        show { (Kernel.setEnv _ e _).procs with free := rest } = _
        rw [procs_setEnv_same _ e rfl rfl]
        rfl

theorem sysExofork_procs {k : Kernel} {cur : EnvIx} {r : Sysret × Kernel} (h : sysExofork k cur = some r) :
    r.2.procs = k.procs ∨
    ∃ e rest, k.procs.free = e :: rest ∧ r.2.procs = { k.procs with free := rest }.setStatus e .notRunnable := by
  unfold sysExofork at h
  rcases envAlloc_procs k (k.envs cur).envId with ⟨i, k₁, he, -, hp⟩ | ⟨e, rest, k₁, he, hfree, hp⟩
  · rw [he] at h
    rw [ret_procs h]
    exact .inl hp
  · rw [he] at h
    rw [ret_procs h]
    refine .inr ⟨e, rest, hfree, ?_⟩
    rw [procs_setEnv_status _ e rfl, hp]

theorem sysSetEnvStatus_procs {k : Kernel} {cur : EnvIx} {envid status : Word} {r : Sysret × Kernel}
    (h : sysSetEnvStatus k cur envid status = some r) :
    r.2.procs = k.procs ∨
    ∃ e st q, envid2env k cur envid true = some e ∧ statusOfWord status = some st ∧
      (if k.procs.status e ≠ st then relink k.procs.queue e st else some k.procs.queue) = some q ∧
      r.2.procs = { k.procs with queue := q }.setStatus e st := by
  unfold sysSetEnvStatus at h
  split at h
  · exact .inl (ret_procs h)
  · rename_i st hst
    split at h
    · exact .inl (ret_procs h)
    · rename_i e he
      obtain ⟨q, hq, hr⟩ := Option.bind_eq_some_iff.1 h
      refine .inr ⟨e, st, q, he, hst, hq, ?_⟩
      rw [ret_procs hr, procs_setEnv_status _ e rfl]
      rfl

theorem sysIpcRecv_procs {k : Kernel} {cur : EnvIx} {dstva : Word} {r : Sysret × Kernel}
    (h : sysIpcRecv k cur dstva = some r) :
    r.2.procs = k.procs ∨
    ∃ q, ¬(dstva ≠ 0 ∧ isIllegalVa dstva) ∧ k.procs.queue.remove cur = some q ∧ Procs.Picks
      (({ k.procs with queue := q }.setStatus cur .notRunnable).setRecving cur true) r.2.procs := by
  unfold sysIpcRecv at h
  split at h
  · exact .inl (ret_procs h)
  · rename_i hva
    obtain ⟨q, hq, hrest⟩ := Option.bind_eq_some_iff.1 h
    obtain ⟨k₁, hs, rfl⟩ := Option.map_eq_some_iff.1 hrest
    refine .inr ⟨q, hva, hq, ?_⟩
    have hpick := schedule_procs hs
    have hprocs : ({ (k.setEnv cur (fun v => v.startRecv dstva)).setSched q with
        ktf := (k.setEnv cur (fun v => v.startRecv dstva)).ktf.setReg 2 0 } : Kernel).procs =
        ({ k.procs with queue := q }.setStatus cur .notRunnable).setRecving cur true := by
      show { (k.setEnv cur (fun v => v.startRecv dstva)).procs with queue := q } = _
      rw [procs_setEnv]
      rfl
    rw [hprocs] at hpick
    exact hpick

theorem sysIpcTrySend_procs {k : Kernel} {cur : EnvIx} {envid value srcva perm : Word} {r : Sysret × Kernel}
    (h : sysIpcTrySend k cur envid value srcva perm = some r) :
    r.2.procs = k.procs ∨
    ∃ e q, ¬(srcva ≠ 0 ∧ isIllegalVa srcva) ∧ envid2env k cur envid false = some e ∧ k.procs.recving e = true ∧
      k.procs.queue.insertTail e = some q ∧
        r.2.procs = ({ k.procs with queue := q }.setStatus e .runnable).setRecving e false := by
  unfold sysIpcTrySend at h
  split at h
  · exact .inl (ret_procs h)
  · rename_i hva
    split at h
    · exact .inl (ret_procs h)
    · rename_i e he
      split at h
      · exact .inl (ret_procs h)
      · rename_i hr
        obtain ⟨q, hq, hrest⟩ := Option.bind_eq_some_iff.1 h
        refine .inr ⟨e, q, hva, he, by simpa [Kernel.procs] using hr, hq, ?_⟩
        have hprocs : ((k.setEnv e (fun v => v.deliver value (k.envs cur).envId perm)).setSched q).procs =
            ({ k.procs with queue := q }.setStatus e .runnable).setRecving e false := by
          show { (k.setEnv e (fun v => v.deliver value (k.envs cur).envId perm)).procs with queue := q } = _
          rw [procs_setEnv]
          rfl
        rw [← hprocs]
        split at hrest
        · exact ret_procs hrest
        · obtain ⟨l, -, hl⟩ := Option.bind_eq_some_iff.1 hrest
          cases l with
          | none => exact ret_procs hl
          | some l => exact insertBind_procs rfl hl

theorem destroyAndReturn_procs {k : Kernel} {cur e : EnvIx} {s : Sysret} {r : Sysret × Kernel}
    (h : destroyAndReturn k cur e s = some r) : k.procs.Destroys e r.2.procs := by
  unfold destroyAndReturn at h
  obtain ⟨k₁, h₁, rfl⟩ := Option.map_eq_some_iff.1 h
  exact envDestroy_procs h₁

/-- The environment `sys_env_destroy`, `sys_try_done_job_status` or `sys_kill_job` destroys. -/
def Syscall.victim (k : Kernel) (cur : EnvIx) : Syscall → Option EnvIx
  | .envDestroy envid => envid2env k cur envid true
  | .tryDoneJobStatus envid => envid2env k cur envid true
  | .killJob jobId =>
    if k.jobNum < jobId.toNat then none
    else (jobIx jobId).bind (fun i =>
      if (k.jobs i).flag = 1 then none else envid2env k cur (k.jobs i).envId false)
  | _ => none

theorem victim_live {k : Kernel} {cur e : EnvIx} {c : Syscall} (hcur : (k.envs cur).envStatus ≠ .free)
    (h : c.victim k cur = some e) : (k.envs e).envStatus ≠ .free := by
  unfold Syscall.victim at h
  split at h
  · exact envid2env_live hcur h
  · exact envid2env_live hcur h
  · split at h
    · cases h
    · obtain ⟨i, -, hi⟩ := Option.bind_eq_some_iff.1 h
      split at hi
      · cases hi
      · exact envid2env_live hcur hi
  · cases h

/-- **The calls that destroy** destroy the victim, or leave the process table alone. -/
theorem destroy_procs {k : Kernel} {cur : EnvIx} {c : Syscall} {envid : Word} {r : Sysret × Kernel}
    (hc : c = .envDestroy envid ∨ c = .tryDoneJobStatus envid ∨ c = .killJob envid)
    (h : syscallTable k cur c = some r) :
    r.2.procs = k.procs ∨ ∃ e, c.victim k cur = some e ∧ k.procs.Destroys e r.2.procs := by
  rcases hc with rfl | rfl | rfl
  · simp only [syscallTable, sysEnvDestroy] at h
    split at h
    · exact .inl (ret_procs h)
    · rename_i e he
      exact .inr ⟨e, he, destroyAndReturn_procs h⟩
  · obtain ⟨e, he, hd⟩ := Option.bind_eq_some_iff.1 h
    have hp := destroyAndReturn_procs hd
    exact .inr ⟨e, he, hp⟩
  · simp only [syscallTable, sysKillJob] at h
    split at h
    · cases h; exact .inl rfl
    · rename_i hn
      obtain ⟨i, hi, hrest⟩ := Option.bind_eq_some_iff.1 h
      split at hrest
      · cases hrest; exact .inl rfl
      · rename_i hflag
        obtain ⟨e, he, hd⟩ := Option.bind_eq_some_iff.1 hrest
        have hp := destroyAndReturn_procs hd
        refine .inr ⟨e, ?_, hp⟩
        simp only [Syscall.victim, hn, if_false, hi, Option.bind_some, if_neg hflag]
        exact he

/-! ## Steps on the process table -/

/-- **What a step can do to the process table.** -/
inductive Moves (k : Kernel) : Act → Procs → Prop where
  | quiet (a : Act) : Moves k a k.procs
  | tick (p : Procs) : k.procs.Picks p → Moves k .tick p
  | yield (v0 : Word) (p : Procs) : k.procs.Picks p → Moves k (.syscall .yield v0) p
  | destroy (cur e : EnvIx) (c : Syscall) (v0 : Word) (p : Procs) : k.curenv = some cur → c.victim k cur = some e →
      k.procs.Destroys e p → Moves k (.syscall c v0) p
  | exofork (cur e : EnvIx) (rest : List EnvIx) (v0 : Word) : k.curenv = some cur → k.procs.free = e :: rest →
      Moves k (.syscall .exofork v0) ({ k.procs with free := rest }.setStatus e .notRunnable)
  | setStatus (cur e : EnvIx) (envid status v0 : Word) (st : EnvStatus) (q : Tailq EnvIx) : k.curenv = some cur →
      envid2env k cur envid true = some e → statusOfWord status = some st →
      (if k.procs.status e ≠ st then relink k.procs.queue e st else some k.procs.queue) = some q →
      Moves k (.syscall (.setEnvStatus envid status) v0) ({ k.procs with queue := q }.setStatus e st)
  | recv (cur : EnvIx) (dstva v0 : Word) (q : Tailq EnvIx) (p : Procs) : k.curenv = some cur →
      ¬(dstva ≠ 0 ∧ isIllegalVa dstva) → k.procs.queue.remove cur = some q →
      Procs.Picks (({ k.procs with queue := q }.setStatus cur .notRunnable).setRecving cur true) p →
      Moves k (.syscall (.ipcRecv dstva) v0) p
  | send (cur e : EnvIx) (envid value srcva perm v0 : Word) (q : Tailq EnvIx) : k.curenv = some cur →
      ¬(srcva ≠ 0 ∧ isIllegalVa srcva) → envid2env k cur envid false = some e → k.procs.recving e = true →
        k.procs.queue.insertTail e = some q →
      Moves k (.syscall (.ipcTrySend envid value srcva perm) v0)
        (({ k.procs with queue := q }.setStatus e .runnable).setRecving e false)

theorem victim_congr {k k' : Kernel} (he : k'.envs = k.envs) (hj : k'.jobs = k.jobs) (hn : k'.jobNum = k.jobNum)
    (cur : EnvIx) (c : Syscall) : c.victim k' cur = c.victim k cur := by
  cases c <;> simp only [Syscall.victim, envid2env_congr he, hj, hn]

theorem syscall_moves {k k₁ : Kernel} {cur : EnvIx} {c : Syscall} {r : Sysret × Kernel} (v0 : Word)
    (hcur : k.curenv = some cur) (hp : k₁.procs = k.procs) (he : k₁.envs = k.envs) (hj : k₁.jobs = k.jobs)
    (hn : k₁.jobNum = k.jobNum) (h : syscallTable k₁ cur c = some r) : Moves k (.syscall c v0) r.2.procs := by
  have hquiet : r.2.procs = k₁.procs → Moves k (.syscall c v0) r.2.procs := by
    intro hr
    rw [hr, hp]
    exact .quiet _
  have hdestroy : (r.2.procs = k₁.procs ∨ ∃ e, c.victim k₁ cur = some e ∧ k₁.procs.Destroys e r.2.procs) →
      Moves k (.syscall c v0) r.2.procs := by
    rintro (hr | ⟨e, hv, hd⟩)
    · exact hquiet hr
    · rw [victim_congr he hj hn] at hv
      rw [hp] at hd
      exact .destroy cur e c v0 _ hcur hv hd
  cases c with
  | yield =>
    obtain ⟨k', hs, rfl⟩ := Option.map_eq_some_iff.1 h
    have hpick := schedule_procs hs
    rw [hp] at hpick
    exact .yield v0 _ hpick
  | envDestroy envid => exact hdestroy (destroy_procs (.inl rfl) h)
  | tryDoneJobStatus envid => exact hdestroy (destroy_procs (.inr (.inl rfl)) h)
  | killJob jobId => exact hdestroy (destroy_procs (.inr (.inr rfl)) h)
  | exofork =>
    rcases sysExofork_procs h with hr | ⟨e, rest, hfree, hr⟩
    · exact hquiet hr
    · rw [hp] at hfree hr
      rw [hr]
      exact .exofork cur e rest v0 hcur hfree
  | setEnvStatus envid status =>
    rcases sysSetEnvStatus_procs h with hr | ⟨e, st, q, hid, hst, hq, hr⟩
    · exact hquiet hr
    · rw [hp] at hq hr
      rw [envid2env_congr he] at hid
      rw [hr]
      exact .setStatus cur e envid status v0 st q hcur hid hst hq
  | ipcRecv dstva =>
    rcases sysIpcRecv_procs h with hr | ⟨q, hva, hq, hpick⟩
    · exact hquiet hr
    · rw [hp] at hq hpick
      exact .recv cur dstva v0 q _ hcur hva hq hpick
  | ipcTrySend envid value srcva perm =>
    rcases sysIpcTrySend_procs h with hr | ⟨e, q, hva, hid, hrecv, hq, hr⟩
    · exact hquiet hr
    · rw [hp] at hrecv hq hr
      rw [envid2env_congr he] at hid
      rw [hr]
      exact .send cur e envid value srcva perm v0 q hcur hva hid hrecv hq
  | _ => exact hquiet (quiet_procs rfl h)

/-- **Every step is one of the moves.** -/
theorem step_moves {k k' : Kernel} {a : Act} (h : step k a = some k') : Moves k a k'.procs := by
  cases a with
  | tick => exact .tick _ (schedule_procs h)
  | syscall c v0 =>
    obtain ⟨cur, hcur, hs⟩ := Option.bind_eq_some_iff.1 h
    obtain ⟨pm, r, hr, rfl⟩ := doSyscall_cases hs
    rw [procs_setV0]
    refine syscall_moves v0 hcur ?_ ?_ ?_ ?_ hr <;> rfl
  | exec tf =>
    obtain ⟨cur, -, hs⟩ := Option.bind_eq_some_iff.1 h
    cases hs
    exact .quiet _
  | miss va victim =>
    obtain ⟨cur, -, hs⟩ := Option.bind_eq_some_iff.1 h
    simp only [userStep] at hs
    split at hs
    · cases hs
    · obtain ⟨pm, -, rfl⟩ := Option.map_eq_some_iff.1 hs
      exact .quiet _
  | store va w =>
    obtain ⟨cur, -, hs⟩ := Option.bind_eq_some_iff.1 h
    obtain ⟨pm, -, rfl⟩ := Option.map_eq_some_iff.1 hs
    exact .quiet _
  | mod va =>
    obtain ⟨cur, -, hs⟩ := Option.bind_eq_some_iff.1 h
    simp only [userStep, doTlbMod] at hs
    obtain ⟨k₁, h₁, hrest⟩ := Option.bind_eq_some_iff.1 hs
    obtain ⟨pm, rfl⟩ := storeWords_eq h₁
    split at hrest
    · cases hrest
    · cases hrest
      exact .quiet _
  | noSys =>
    obtain ⟨cur, -, hs⟩ := Option.bind_eq_some_iff.1 h
    cases hs
    exact .quiet _

/-! ## Boot -/

theorem procs_insertHead (k : Kernel) (e : EnvIx) :
    (k.setSched (k.sched.insertHead e)).procs = { k.procs with queue := k.procs.queue.insertHead e } := rfl

/-- **`env_create` pops a free environment and puts it first in the list**, or leaves the process table alone. -/
theorem envCreate_procs {k k' : Kernel} {binary : Binary} {priority : Word}
    (h : envCreate k binary priority = some k') :
    k'.procs = k.procs ∨ ∃ e rest, k.procs.free = e :: rest ∧
      k'.procs = { k.procs.setStatus e .runnable with free := rest, queue := k.procs.queue.insertHead e } := by
  unfold envCreate at h
  rcases envAlloc_procs k 0 with ⟨i, k₁, he, -, hp⟩ | ⟨e, rest, k₁, he, hfree, hp⟩
  · rw [he] at h
    cases h
    exact .inl hp
  · rw [he] at h
    obtain ⟨k₂, h₂, rfl⟩ := Option.map_eq_some_iff.1 h
    refine .inr ⟨e, rest, hfree, ?_⟩
    unfold loadIcode at h₂
    obtain ⟨ehdr, -, h₃⟩ := Option.bind_eq_some_iff.1 h₂
    obtain ⟨pm, -, rfl⟩ := Option.map_eq_some_iff.1 h₃
    have hload : ∀ (k₀ : Kernel) (w : Word),
        ((k₀.setPm pm).setEnv e (fun v => { v with envTf := { v.envTf with cp0Epc := w } })).procs = k₀.procs :=
      fun k₀ w => procs_setEnv_same (k₀.setPm pm) e rfl rfl
    have hset : (k₁.setEnv e (fun v => { v with envPri := priority, envStatus := .runnable })).procs =
        { k.procs with free := rest }.setStatus e .runnable := by
      rw [procs_setEnv_status _ e rfl, hp]
    have hprocs := (hload _ ehdr.eEntry).trans hset
    rw [procs_insertHead, hprocs]
    rfl

end Mos
