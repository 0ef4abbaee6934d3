import Mos.Destroying
import Mos.Framed
/-!
# Contexts — the registers of an environment that does not run

An environment's registers are in the frame below `KSTACKTOP` while it runs, and in its record otherwise.  Whatever else
runs in between, `env_run` loads what was saved: only the environment itself and its parent change its context.
-/
namespace Mos

/-- The registers of `e`, wherever the kernel has them. -/
def Kernel.context (k : Kernel) (e : EnvIx) : Trapframe :=
  if k.curenv = some e then k.ktf else (k.envs e).envTf

/-- The contexts that a call of `cur` writes. -/
def Syscall.writesContext (k : Kernel) (cur : EnvIx) (e : EnvIx) : Syscall → Prop
  | .setTrapframe envid _ _ => e = cur ∨ envid2env k cur envid true = some e
  | _ => e = cur

/-- The step writes the registers of `e`. -/
def WritesContext (k : Kernel) (e : EnvIx) : Act → Prop
  | .tick | .miss .. | .store .. => False
  | .exec _ | .mod _ | .noSys => k.curenv = some e
  | .syscall c _ => ∃ cur, k.curenv = some cur ∧ c.writesContext k cur e

namespace Kernel

variable {k k' : Kernel} {e x : EnvIx}

theorem context_congr (hc : k'.curenv = k.curenv) (hk : k'.ktf = k.ktf) (he : (k'.envs e).envTf = (k.envs e).envTf) :
    k'.context e = k.context e := by
  unfold context
  simp [hc, hk, he]

@[simp] theorem context_setPm (k : Kernel) (pm : Pmap) (e : EnvIx) : (k.setPm pm).context e = k.context e := rfl

@[simp] theorem context_setSched (k : Kernel) (q : Tailq EnvIx) (e : EnvIx) :
    (k.setSched q).context e = k.context e :=
  rfl

theorem context_setEnv (k : Kernel) (x e : EnvIx) {f : Env → Env} (hf : (f (k.envs x)).envTf = (k.envs x).envTf) :
    (k.setEnv x f).context e = k.context e := context_congr rfl rfl (k.setEnv_field x e hf)

theorem context_setEnv_ne (k : Kernel) (f : Env → Env) (h : e ≠ x) : (k.setEnv x f).context e = k.context e := by
  have he : ((k.setEnv x f).envs e).envTf = (k.envs e).envTf := by rw [setEnv_ne _ _ h]
  exact context_congr rfl rfl he

theorem context_ktf (k : Kernel) (tf : Trapframe) (h : k.curenv ≠ some e) :
    ({ k with ktf := tf } : Kernel).context e = k.context e := by
  unfold context
  simp [h]

end Kernel

open Kernel

variable {k k₁ k' : Kernel} {e x cur : EnvIx}

/-! ## Switching -/

theorem saveTf_context (k : Kernel) (e : EnvIx) : ((saveTf k).envs e).envTf = k.context e := by
  unfold saveTf Kernel.context
  cases hc : k.curenv with
  | none => simp
  | some c =>
    by_cases h : c = e
    · simp [h]
    · simp [h, Kernel.setEnv_ne k _ (Ne.symm h)]

/-- **`env_run` keeps every context.** -/
theorem envRun_context (h : envRun k x = some k') (e : EnvIx) : k'.context e = k.context e := by
  unfold envRun at h
  split at h
  · cases h
    have hsaved : (((saveTf k).setEnv x fun v => { v with envRuns := v.envRuns + 1 }).envs e).envTf = k.context e := by
      rw [← saveTf_context k e]
      exact (saveTf k).setEnv_field x e rfl
    rw [← hsaved]
    unfold Kernel.context
    by_cases hx : x = e
    · simp [hx]
    · simp [hx]
  · cases h

theorem schedule_context {yield : Bool} (h : schedule k yield = some k') (e : EnvIx) : k'.context e = k.context e := by
  unfold schedule at h
  split at h
  · obtain ⟨q, -, hrest⟩ := Option.bind_eq_some_iff.1 h
    split at hrest
    · cases hrest
    · rw [envRun_context hrest e]
      rfl
  · split at h
    · cases h
    · rw [envRun_context h e]
      rfl

theorem envFree_context (h : envFree k x = some k') (e : EnvIx) : k'.context e = k.context e := by
  obtain ⟨pm, -, hrest⟩ := Option.bind_eq_some_iff.1 h
  obtain ⟨q, -, rfl⟩ := Option.map_eq_some_iff.1 hrest
  rw [context_setSched, context_setEnv _ _ _ rfl]
  rfl

theorem envDestroy_context (h : envDestroy k x = some k') (he : k.curenv = some x → e ≠ x) :
    k'.context e = k.context e := by
  obtain ⟨k₁, hf, hrest⟩ := Option.bind_eq_some_iff.1 h
  have hcur : k₁.curenv = k.curenv := by
    obtain ⟨q, -, hp⟩ := envFree_procs hf
    exact congrArg Procs.running hp
  rw [← envFree_context hf e]
  split at hrest
  · rename_i hself
    rw [schedule_context hrest e]
    unfold Kernel.context
    simp [hself, (he (hcur ▸ hself)).symm]
  · cases hrest
    rfl

theorem destroyAndReturn_context {r : Sysret} {o : Sysret × Kernel} (h : destroyAndReturn k cur x r = some o)
    (hc : k.curenv = some cur) (he : e ≠ cur) : o.2.context e = k.context e := by
  obtain ⟨k₁, h₁, rfl⟩ := Option.map_eq_some_iff.1 h
  apply envDestroy_context h₁
  intro hx
  rwa [Option.some.inj (hx.symm.trans hc)]

theorem envAlloc_context_ne {parentId : Word} {r : Except Int EnvIx} (h : envAlloc k parentId = (r, k'))
    (he : ∀ rest, k.envFreeList ≠ e :: rest) : k'.context e = k.context e := by
  have hktf : k'.ktf = k.ktf := by
    unfold envAlloc at h
    split at h
    · cases h
      rfl
    · split at h
      · cases h
        rfl
      · rename_i k₁ hs
        obtain ⟨⟨pp, pm₁⟩, -, rfl⟩ := Option.map_eq_some_iff.1 hs
        dsimp only at h
        split at h <;> (cases h; rfl)
  rcases envAlloc_inv h with ⟨-, -, rfl⟩ | ⟨x, rest, pp, pm₁, hf, ha, -⟩
  · rfl
  · apply context_congr ha.curenv hktf
    have hne : e ≠ x := fun hc => he rest (hc ▸ hf)
    rw [ha.other e hne]

/-! ## Calls -/

theorem touchRange_context {va : Word} {len : Nat} (h : k.touchRange cur va len = some k') (e : EnvIx) :
    k'.context e = k.context e := by
  obtain ⟨pm, rfl⟩ := touchRange_eq h
  rfl

/-- **A call keeps the contexts it does not write.** -/
theorem call_context {c : Syscall} {r : Sysret × Kernel} (hal : k.procs.Alive) (hc : k.curenv = some cur)
    (hlive : (k.envs e).envStatus ≠ .free) (hw : ¬c.writesContext k cur e) (hs : syscallTable k cur c = some r) :
    r.2.context e = k.context e := by
  have hret : ∀ {i : Int} {k₁ : Kernel}, k₁.context e = k.context e → ret i k₁ = some r →
      r.2.context e = k.context e := by
    intro i k₁ hk hr
    rw [ret_eq hr]
    exact hk
  have hpm : ∀ {o : Option (Int × Pmap)}, o.bind (fun r => ret r.1 (k.setPm r.2)) = some r →
      r.2.context e = k.context e := by
    intro o ho
    obtain ⟨⟨i, pm⟩, -, hr⟩ := Option.bind_eq_some_iff.1 ho
    exact hret (context_setPm k pm e) hr
  cases c with
  | putchar => cases hs; rfl
  | printCons s num =>
    simp only [syscallTable, sysPrintCons] at hs
    split at hs
    · exact hret rfl hs
    · obtain ⟨k₁, h₁, h₂⟩ := Option.bind_eq_some_iff.1 hs
      exact hret (touchRange_context h₁ e) h₂
  | getenvid => exact hret rfl hs
  | yield =>
    obtain ⟨k₁, h₁, rfl⟩ := Option.map_eq_some_iff.1 hs
    exact schedule_context h₁ e
  | envDestroy envid =>
    simp only [syscallTable, sysEnvDestroy] at hs
    split at hs
    · exact hret rfl hs
    · exact destroyAndReturn_context hs hc hw
  | setTlbModEntry envid func =>
    simp only [syscallTable, sysSetTlbModEntry] at hs
    split at hs
    · exact hret rfl hs
    · exact hret (context_setEnv k _ e rfl) hs
  | memAlloc envid va perm =>
    simp only [syscallTable, sysMemAlloc] at hs
    split at hs
    · exact hret rfl hs
    · split at hs
      · exact hret rfl hs
      · split at hs
        · exact hret rfl hs
        · exact hpm hs
  | memMap srcid srcva dstid dstva perm =>
    simp only [syscallTable, sysMemMap] at hs
    split at hs
    · exact hret rfl hs
    · split at hs
      · exact hret rfl hs
      · split at hs
        · exact hret rfl hs
        · obtain ⟨l, -, hl⟩ := Option.bind_eq_some_iff.1 hs
          cases l with
          | none => exact hret rfl hl
          | some l => exact hpm hl
  | memUnmap envid va =>
    simp only [syscallTable, sysMemUnmap] at hs
    split at hs
    · exact hret rfl hs
    · split at hs
      · exact hret rfl hs
      · obtain ⟨pm, -, h₂⟩ := Option.bind_eq_some_iff.1 hs
        exact hret (context_setPm k pm e) h₂
  | exofork =>
    have hfree : ∀ rest, k.envFreeList ≠ e :: rest := by
      intro rest hf
      exact hlive (hal.free e (by simp [Kernel.procs, hf]))
    simp only [syscallTable, sysExofork] at hs
    split at hs
    · rename_i ha
      exact hret (envAlloc_context_ne ha hfree) hs
    · rename_i x k₁ ha
      have hne : e ≠ x := by
        rintro rfl
        rcases envAlloc_inv ha with ⟨i, hi, -⟩ | ⟨y, rest, -, -, hf, -, hr⟩
        · cases hi
        · rcases hr with ⟨i, hi⟩ | hi
          · cases hi
          · cases hi
            exact hfree rest hf
      apply hret _ hs
      rw [context_setEnv_ne _ _ hne]
      exact envAlloc_context_ne ha hfree
  | setEnvStatus envid status =>
    simp only [syscallTable, sysSetEnvStatus] at hs
    split at hs
    · exact hret rfl hs
    · split at hs
      · exact hret rfl hs
      · obtain ⟨q, -, h₂⟩ := Option.bind_eq_some_iff.1 hs
        exact hret ((context_setEnv (k.setSched q) _ e rfl).trans rfl) h₂
  | setTrapframe envid va tf =>
    simp only [syscallTable, sysSetTrapframe] at hs
    split at hs
    · exact hret rfl hs
    · split at hs
      · exact hret rfl hs
      · rename_i x hx
        obtain ⟨k₁, h₁, h₂⟩ := Option.bind_eq_some_iff.1 hs
        have hk₁ := touchRange_context h₁ e
        obtain ⟨pm, rfl⟩ := touchRange_eq h₁
        split at h₂
        · have hcur : (k.setPm pm).curenv ≠ some e := by
            intro hce
            exact hw (.inl (Option.some.inj (hce.symm.trans hc)))
          exact hret ((context_ktf _ tf hcur).trans hk₁) h₂
        · have hne : e ≠ x := fun hex => hw (.inr (hex ▸ hx))
          exact hret ((context_setEnv_ne _ _ hne).trans hk₁) h₂
  | panic => cases hs
  | ipcTrySend envid value srcva perm =>
    have hwoken : ∀ x q, (woken k cur x value perm q).context e = k.context e :=
      fun x q => (context_setSched _ q e).trans (context_setEnv k x e rfl)
    cases send_inv hs with
    | refused i _ hno => rfl
    | value x q he hrecv hq h0 => exact hwoken x q
    | lost x q he hrecv hq h0 hva => exact hwoken x q
    | page x q pp pte i pm he hrecv hq h0 hva => exact hwoken x q
  | ipcRecv dstva =>
    simp only [syscallTable, sysIpcRecv] at hs
    split at hs
    · exact hret rfl hs
    · obtain ⟨q, -, hrest⟩ := Option.bind_eq_some_iff.1 hs
      obtain ⟨k₁, h₁, rfl⟩ := Option.map_eq_some_iff.1 hrest
      have hcur : k.curenv ≠ some e := fun hce => hw (Option.some.inj (hce.symm.trans hc))
      have hstart : (k.setEnv cur fun v => v.startRecv dstva).context e = k.context e := context_setEnv k cur e rfl
      rw [schedule_context h₁ e,
        context_ktf ((k.setEnv cur fun v => v.startRecv dstva).setSched q) _ hcur, context_setSched,
        hstart]
  | cgetc ch => exact hret rfl hs
  | writeDev va pa len =>
    simp only [syscallTable, sysWriteDev] at hs
    split at hs
    · exact hret rfl hs
    · obtain ⟨k₁, h₁, h₂⟩ := Option.bind_eq_some_iff.1 hs
      exact hret (touchRange_context h₁ e) h₂
  | readDev va pa len w =>
    simp only [syscallTable, sysReadDev] at hs
    split at hs
    · exact hret rfl hs
    · obtain ⟨k₁, h₁, h₂⟩ := Option.bind_eq_some_iff.1 hs
      obtain ⟨pm, -, h₃⟩ := Option.bind_eq_some_iff.1 h₂
      obtain ⟨pm₁, rfl⟩ := touch_eq h₁
      exact hret (context_setPm _ pm e) h₃
  | getEnvParentId envid =>
    simp only [syscallTable, sysGetEnvParentId] at hs
    split at hs <;> exact hret rfl hs
  | addJob envid cmd =>
    simp only [syscallTable, sysAddJob] at hs
    split at hs
    · cases hs
      rfl
    · cases hs
  | printJobs => cases hs; rfl
  | tryDoneJobStatus envid =>
    obtain ⟨x, -, hd⟩ := Option.bind_eq_some_iff.1 hs
    rw [destroyAndReturn_context hd hc hw]
    rfl
  | killJob jobId =>
    simp only [syscallTable, sysKillJob] at hs
    split at hs
    · cases hs
      rfl
    · obtain ⟨i, -, hrest⟩ := Option.bind_eq_some_iff.1 hs
      split at hrest
      · cases hrest
        rfl
      · obtain ⟨x, -, hd⟩ := Option.bind_eq_some_iff.1 hrest
        rw [destroyAndReturn_context hd hc hw]
        rfl
  | getEnvidByJob jobId =>
    simp only [syscallTable, sysGetEnvidByJob] at hs
    split at hs
    · exact hret rfl hs
    · obtain ⟨i, -, hi⟩ := Option.bind_eq_some_iff.1 hs
      split at hi <;> exact hret rfl hi

theorem destroyAndReturn_curenv {s : Sysret} {r : Sysret × Kernel} (h : destroyAndReturn k cur x s = some r)
    (hc : k.curenv = some cur) (hr : r.1 ≠ .noret) : r.2.curenv = some cur := by
  obtain ⟨k₁, h₁, rfl⟩ := Option.map_eq_some_iff.1 h
  have hne : x ≠ cur := fun hx => hr (if_pos hx)
  generalize hp : k₁.procs = p at *
  cases hp ▸ envDestroy_procs h₁ with
  | other q _ _ => exact (congrArg Procs.running hp).trans hc
  | self q p' _ hself _ => exact absurd (Option.some.inj (hself.symm.trans hc)) hne

/-- **A call that returns, returns to its caller.** -/
theorem returned_curenv {c : Syscall} {r : Sysret × Kernel} (hc : k.curenv = some cur)
    (hs : syscallTable k cur c = some r) (hr : r.1 ≠ .noret) : r.2.curenv = some cur := by
  have hsame : ∀ {k₁ : Kernel}, k₁.procs = k.procs → k₁.curenv = some cur :=
    fun hp => (congrArg Procs.running hp).trans hc
  cases c with
  | yield =>
    obtain ⟨k₁, -, rfl⟩ := Option.map_eq_some_iff.1 hs
    exact absurd rfl hr
  | envDestroy envid =>
    simp only [syscallTable, sysEnvDestroy] at hs
    split at hs
    · exact hsame (ret_procs hs)
    · exact destroyAndReturn_curenv hs hc hr
  | tryDoneJobStatus envid =>
    obtain ⟨x, -, hd⟩ := Option.bind_eq_some_iff.1 hs
    exact destroyAndReturn_curenv hd hc hr
  | killJob jobId =>
    simp only [syscallTable, sysKillJob] at hs
    split at hs
    · cases hs
      exact hc
    · obtain ⟨i, -, hrest⟩ := Option.bind_eq_some_iff.1 hs
      split at hrest
      · cases hrest
        exact hc
      · obtain ⟨x, -, hd⟩ := Option.bind_eq_some_iff.1 hrest
        exact destroyAndReturn_curenv hd hc hr
  | exofork =>
    rcases sysExofork_procs hs with hp | ⟨x, rest, -, hp⟩
    · exact hsame hp
    · exact (congrArg Procs.running hp).trans hc
  | setEnvStatus envid status =>
    rcases sysSetEnvStatus_procs hs with hp | ⟨x, st, q, -, -, -, hp⟩
    · exact hsame hp
    · exact (congrArg Procs.running hp).trans hc
  | ipcRecv dstva =>
    simp only [syscallTable, sysIpcRecv] at hs
    split at hs
    · exact hsame (ret_procs hs)
    · obtain ⟨q, -, hrest⟩ := Option.bind_eq_some_iff.1 hs
      obtain ⟨k₁, -, rfl⟩ := Option.map_eq_some_iff.1 hrest
      exact absurd rfl hr
  | ipcTrySend envid value srcva perm =>
    rcases sysIpcTrySend_procs hs with hp | ⟨x, q, -, -, -, -, hp⟩
    · exact hsame hp
    · exact (congrArg Procs.running hp).trans hc
  | _ => exact hsame (quiet_procs rfl hs)

/-! ## Steps and runs -/

theorem writesContext_congr (h : k₁.envs = k.envs) (cur e : EnvIx) (c : Syscall) :
    c.writesContext k₁ cur e ↔ c.writesContext k cur e := by
  cases c with
  | setTrapframe envid va tf => simp only [Syscall.writesContext, envid2env_congr h]
  | _ => exact Iff.rfl

/-- **A step keeps the contexts it does not write.** -/
theorem step_context {a : Act} (hal : k.procs.Alive) (hlive : (k.envs e).envStatus ≠ .free) (hw : ¬WritesContext k e a)
    (hs : step k a = some k') : k'.context e = k.context e := by
  cases a with
  | tick => exact schedule_context hs e
  | exec tf =>
    obtain ⟨cur, -, hu⟩ := Option.bind_eq_some_iff.1 hs
    cases hu
    exact context_ktf k _ hw
  | miss va victim =>
    obtain ⟨cur, -, hu⟩ := Option.bind_eq_some_iff.1 hs
    simp only [userStep] at hu
    split at hu
    · cases hu
    · obtain ⟨pm, -, rfl⟩ := Option.map_eq_some_iff.1 hu
      rfl
  | store va w =>
    obtain ⟨cur, -, hu⟩ := Option.bind_eq_some_iff.1 hs
    obtain ⟨pm, -, rfl⟩ := Option.map_eq_some_iff.1 hu
    rfl
  | mod va =>
    obtain ⟨cur, -, hu⟩ := Option.bind_eq_some_iff.1 hs
    simp only [userStep, doTlbMod] at hu
    obtain ⟨k₁, hst, hrest⟩ := Option.bind_eq_some_iff.1 hu
    obtain ⟨pm, rfl⟩ := storeWords_eq hst
    split at hrest
    · cases hrest
    · cases hrest
      exact context_ktf k _ hw
  | syscall c v0 =>
    obtain ⟨cur, hc, hu⟩ := Option.bind_eq_some_iff.1 hs
    obtain ⟨k₁, r, hargs, hcall, rfl⟩ := doSyscall_inv hu
    obtain ⟨pm, rfl⟩ := readArgs_eq hargs
    have hne : e ≠ cur := by
      rintro rfl
      refine hw ⟨e, hc, ?_⟩
      cases c with
      | setTrapframe envid va tf => exact .inl rfl
      | _ => rfl
    have hnot : k.curenv ≠ some e := fun hce => hne (Option.some.inj (hce.symm.trans hc))
    have hw₁ : ¬c.writesContext k cur e := fun h => hw ⟨cur, hc, h⟩
    have hr := call_context (k := { k with ktf := k.ktf.nextInstr }.setPm pm) hal hc hlive
      (mt (writesContext_congr rfl cur e c).1 hw₁) hcall
    rw [context_setPm, context_ktf k _ hnot] at hr
    -- the value is returned in the frame, which is the caller's
    have hback : r.1 ≠ .noret → r.2.curenv ≠ some e := by
      intro hn hce
      exact hne (Option.some.inj (hce.symm.trans (returned_curenv (by exact hc) hcall hn)))
    obtain ⟨_ | _ | _, k₂⟩ := r
    · exact (context_ktf k₂ _ (hback (by simp))).trans hr
    · exact (context_ktf k₂ _ (hback (by simp))).trans hr
    · exact hr
  | noSys =>
    obtain ⟨cur, -, hu⟩ := Option.bind_eq_some_iff.1 hs
    cases hu
    exact context_ktf k _ hw

theorem owns_of_writesContext {a : Act} (hid : ∀ e, IdAt e (k.envs e)) (hw : WritesContext k e a) :
    ∃ cur, k.curenv = some cur ∧ Owns k cur e := by
  cases a with
  | tick => exact hw.elim
  | miss => exact hw.elim
  | store => exact hw.elim
  | exec tf => exact ⟨e, hw, .inl rfl⟩
  | mod va => exact ⟨e, hw, .inl rfl⟩
  | noSys => exact ⟨e, hw, .inl rfl⟩
  | syscall c v0 =>
    obtain ⟨cur, hc, hwc⟩ := hw
    refine ⟨cur, hc, ?_⟩
    cases c with
    | setTrapframe envid va tf =>
      rcases hwc with rfl | hx
      · exact .inl rfl
      · exact owns_of_checkperm hid hx
    | _ => exact .inl hwc

/-- A step that interrupts `e` and lets it live: a tick, or a step of an environment that is neither `e` nor its
parent. -/
def Interrupts (e : EnvIx) (k : Kernel) (a : Act) : Prop :=
  (a = .tick ∨ ∀ cur, k.curenv = some cur → ¬Owns k cur e) ∧ ∀ k', step k a = some k' → ¬Frees k k' e

/-- **An interrupted environment goes on where it was**: while others run, its registers stay as they were, and when it
runs again they are the ones it was interrupted with. -/
theorem interruption_transparent (k : Kernel) (h : Reachable k) (e : EnvIx) (hlive : (k.envs e).envStatus ≠ .free)
    (k' : Kernel) (hr : Run (· = k) step (Interrupts e) k') :
    (k'.envs e).envStatus ≠ .free ∧ k'.context e = k.context e ∧
      (k.curenv = some e → k'.curenv = some e → k'.ktf = k.ktf) := by
  have hall : Reachable k' ∧ (k'.envs e).envStatus ≠ .free ∧ k'.context e = k.context e := by
    refine Run.invariant
      (fun k' => Reachable k' ∧ (k'.envs e).envStatus ≠ .free ∧ k'.context e = k.context e) ?_ ?_ k' hr
    · rintro s rfl
      exact ⟨h, hlive, rfl⟩
    · intro s a s' ⟨hreach, hl, hsame⟩ ⟨hint, hkeep⟩ hs
      obtain ⟨hal, hid⟩ := reachable_idAt hreach
      refine ⟨.next s a s' hreach trivial hs, fun hfree => hkeep s' hs ⟨hl, hfree⟩, ?_⟩
      rw [step_context hal hl ?_ hs, hsame]
      intro hw
      rcases hint with rfl | hno
      · exact hw
      · obtain ⟨cur, hc, ho⟩ := owns_of_writesContext hid hw
        exact hno cur hc ho
  refine ⟨hall.2.1, hall.2.2, fun hc hc' => ?_⟩
  have hsame := hall.2.2
  unfold Kernel.context at hsame
  rwa [if_pos hc, if_pos hc'] at hsame

/-- A check that implies `Interrupts`. -/
def interruptsB (e : EnvIx) (k : Kernel) (a : Act) : Bool :=
  (match a with
    | .tick => true
    | _ => k.curenv.all fun cur => decide (e ≠ cur ∧ (k.envs e).envParentId ≠ (k.envs cur).envId)) &&
  (step k a).all fun k' => decide ((k'.envs e).envStatus ≠ .free)

theorem interrupts_of_interruptsB {e : EnvIx} (k : Kernel) (a : Act) (h : interruptsB e k a = true) :
    Interrupts e k a := by
  unfold interruptsB at h
  rw [Bool.and_eq_true] at h
  refine ⟨?_, fun k' hs hf => ?_⟩
  · have hown : ∀ b : Act,
        (k.curenv.all fun cur => decide (e ≠ cur ∧ (k.envs e).envParentId ≠ (k.envs cur).envId)) = true →
        b = .tick ∨ ∀ cur, k.curenv = some cur → ¬Owns k cur e := by
      intro b hb
      refine .inr fun cur hc ho => ?_
      rw [hc, Option.all_some, decide_eq_true_eq] at hb
      exact ho.elim hb.1 hb.2
    cases a with
    | tick => exact .inl rfl
    | _ => exact hown _ h.1
  · have hl := h.2
    rw [hs, Option.all_some, decide_eq_true_eq] at hl
    exact hl hf.2

/-- Two environments take turns, and the second one leaves other registers behind. -/
theorem interruption_transparent_turns : ∃ k k' : Kernel, k.curenv = some 1 ∧ k'.curenv = some 1 ∧ k'.ktf = k.ktf := by
  obtain ⟨k, hk, hp⟩ := exists_reachable [emptyProgram, emptyProgram] [.tick, .exec stackFrame]
    (fun k => decide (k.curenv = some 1 ∧ (k.envs 1).envStatus ≠ .free) &&
      ((exec step (interruptsB 1) [.tick, .exec (stackFrame.setReg 4 7), .tick]) k).any fun k' : Kernel =>
      decide (k'.curenv = some 1))
    (by decide +kernel)
  simp only [Bool.and_eq_true, decide_eq_true_eq] at hp
  obtain ⟨⟨hc, hl⟩, hp⟩ := hp
  obtain ⟨k', he, hc'⟩ := (Option.any_eq_true _ _).1 hp
  have hrun : Run (· = k) step (Interrupts 1) k' := Run.of_exec interrupts_of_interruptsB _ k k' (.start k rfl) he
  have hback := of_decide_eq_true hc'
  exact ⟨k, k', hc, hback, (interruption_transparent k hk 1 hl k' hrun).2.2 hc hback⟩

end Mos
