import Mos.Destroying
import Mos.Ids
/-!
# Jobs — the table of jobs over a run

`jobs` is filled by `sys_add_job`, with whatever id it is given, and an entry is marked done by
`sys_try_done_job_status` for the caller and by `sys_kill_job` for the entry it kills, and by nothing else.  `JobSafe`
is the condition under which that is enough: the table has room, the id is that of a live environment, the number of a
job is not 0, no other unfinished job is of the environment that a call destroys, and `sys_try_done_job_status` gets
an id that `envid2env` finds.
-/
namespace Mos

/-- An environment is live and has this id. -/
def Kernel.Live (k : Kernel) (id : Word) : Prop := ∃ e, (k.envs e).envStatus ≠ .free ∧ (k.envs e).envId = id

/-- No unfinished job is of the environment with this id. -/
def Kernel.Unrecorded (k : Kernel) (id : Word) : Prop := ∀ i < k.jobNum, (k.jobs i).flag = 0 → (k.jobs i).envId ≠ id

/-- **The table is sound**: it is inside the array, and an unfinished job is of a live environment. -/
structure Kernel.JobTable (k : Kernel) : Prop where
  size : k.jobNum ≤ njobs
  live : ∀ i < k.jobNum, (k.jobs i).flag = 0 → k.Live (k.jobs i).envId

/-- What is read for this number is an entry of the table, if anything is. -/
def Kernel.ReadsJob (k : Kernel) (jobId : Word) : Prop := k.jobNum < jobId.toNat ∨ ∃ i < k.jobNum, jobIx jobId = some i

/-- **`sys_kill_job` destroys what the entry records**: nothing else, and nothing when it is not there any more; the
pointer it destroys is set. -/
structure KillsRecorded (k : Kernel) (cur : EnvIx) (jobId : Word) : Prop where
  set : ¬(Syscall.killJob jobId).Unset k cur
  only : ∀ r e, sysKillJob k cur jobId = some r → Frees k r.2 e →
    ∃ i < k.jobNum, jobIx jobId = some i ∧ (k.envs e).envId = (k.jobs i).envId
  spares : ∀ i < k.jobNum, jobIx jobId = some i → ¬k.Live (k.jobs i).envId →
    ∃ r, sysKillJob k cur jobId = some r ∧ r.2.procs = k.procs

/-- What a call does with the table: what it writes and reads is in there, and what it destroys is an environment. -/
def Syscall.JobSound (k : Kernel) (cur : EnvIx) : Syscall → Prop
  | .addJob _ cmd => k.jobNum + 1 ≤ njobs ∧ commandFits k.jobNum cmd
  | .killJob jobId => k.ReadsJob jobId ∧ KillsRecorded k cur jobId
  | .getEnvidByJob jobId => k.ReadsJob jobId
  | .tryDoneJobStatus envid => ¬(Syscall.tryDoneJobStatus envid).Unset k cur
  | _ => True

/-- The table is sound, and so is what the step `a` does with it. -/
structure JobsSound (k : Kernel) (a : Act) : Prop where
  table : k.JobTable
  call : ∀ cur k₁ c v0, a = .syscall c v0 → k.curenv = some cur → readArgs k cur = some k₁ → c.JobSound k₁ cur

/-- **The condition on a call.** -/
def Syscall.JobSafe (k : Kernel) (cur : EnvIx) : Syscall → Prop
  | .addJob envid cmd => commandFits k.jobNum cmd ∧ envid ≠ 0 ∧ k.Live envid
  | .getEnvidByJob jobId => jobId ≠ 0
  | .killJob jobId => jobId ≠ 0 ∧ ∀ i < k.jobNum, jobIx jobId = some i → (k.jobs i).flag = 0 →
      ∀ j < k.jobNum, j ≠ i → (k.jobs j).flag = 0 → (k.jobs j).envId ≠ (k.jobs i).envId
  | .envDestroy envid => ∀ e, envid2env k cur envid true = some e → k.Unrecorded (k.envs e).envId
  | .tryDoneJobStatus envid => ∃ e, envid2env k cur envid true = some e ∧ (e = cur ∨ k.Unrecorded (k.envs e).envId)
  | _ => True

/-- The condition on a step. -/
def JobSafe (k : Kernel) : Act → Prop
  | .syscall c _ => ∀ cur, k.curenv = some cur → c.JobSafe k cur
  | _ => True

/-! ## What leaves the table and the ids alone -/

/-- The states have the same ids and the same jobs. -/
structure SameJobs (k k' : Kernel) : Prop where
  ids : ∀ e, (k'.envs e).envId = (k.envs e).envId
  jobs : k'.jobs = k.jobs
  jobNum : k'.jobNum = k.jobNum

namespace SameJobs

variable {k k₁ k' : Kernel} {cur e : EnvIx} {r : Sysret × Kernel}

theorem of_eq (he : k'.envs = k.envs) (hj : k'.jobs = k.jobs) (hn : k'.jobNum = k.jobNum) : SameJobs k k' :=
  ⟨fun e => by rw [he], hj, hn⟩

theorem refl (k : Kernel) : SameJobs k k := of_eq rfl rfl rfl

theorem trans (h : SameJobs k k₁) (h' : SameJobs k₁ k') : SameJobs k k' :=
  ⟨fun e => (h'.ids e).trans (h.ids e), h'.jobs.trans h.jobs, h'.jobNum.trans h.jobNum⟩

theorem setEnv (k : Kernel) (e : EnvIx) {f : Env → Env} (hf : (f (k.envs e)).envId = (k.envs e).envId) :
    SameJobs k (k.setEnv e f) :=
  ⟨fun x => k.setEnv_field e x hf, rfl, rfl⟩

theorem ret {i : Int} (h : SameJobs k k₁) (hr : Mos.ret i k₁ = some r) : SameJobs k r.2 := by
  rw [ret_eq hr]
  exact h

theorem retPm {o : Option (Int × Pmap)} (h : o.bind (fun r => Mos.ret r.1 (k.setPm r.2)) = some r) :
    SameJobs k r.2 := by
  obtain ⟨⟨i, pm⟩, -, hret⟩ := Option.bind_eq_some_iff.1 h
  exact (of_eq rfl rfl rfl : SameJobs k (k.setPm pm)).ret hret

theorem touchRange {va : Word} {len : Nat} (h : k.touchRange cur va len = some k') : SameJobs k k' := by
  obtain ⟨pm, rfl⟩ := touchRange_eq h
  exact of_eq rfl rfl rfl

theorem envRun (h : Mos.envRun k e = some k') : SameJobs k k' := by
  unfold Mos.envRun at h
  split at h
  · cases h
    have hsave : SameJobs k (saveTf k) := by
      unfold saveTf
      split
      · exact setEnv k _ rfl
      · exact refl k
    have hrun := hsave.trans (setEnv (saveTf k) e (f := fun v => { v with envRuns := v.envRuns + 1 }) rfl)
    exact hrun.trans (of_eq rfl rfl rfl)
  · cases h

theorem schedule {yield : Bool} (h : Mos.schedule k yield = some k') : SameJobs k k' := by
  unfold Mos.schedule at h
  split at h
  · obtain ⟨q, -, hrest⟩ := Option.bind_eq_some_iff.1 h
    cases hf : q.first with
    | none => rw [hf] at hrest; cases hrest
    | some e =>
      rw [hf] at hrest
      have hsame : SameJobs k { k with sched := q, count := (k.envs e).envPri.toInt - 1 } := of_eq rfl rfl rfl
      exact hsame.trans (envRun hrest)
  · split at h
    · cases h
    · have hsame : SameJobs k { k with count := k.count - 1 } := of_eq rfl rfl rfl
      exact hsame.trans (envRun h)

theorem envDestroy (h : Mos.envDestroy k e = some k') : SameJobs k k' := by
  obtain ⟨k₁, hf, hrest⟩ := Option.bind_eq_some_iff.1 h
  have hfree : SameJobs k k₁ := by
    obtain ⟨-, -, hids, -⟩ := envFree_ids hf
    obtain ⟨pm, -, hq⟩ := Option.bind_eq_some_iff.1 hf
    obtain ⟨q, -, rfl⟩ := Option.map_eq_some_iff.1 hq
    exact ⟨hids, rfl, rfl⟩
  split at hrest
  · have hidle : SameJobs k { k₁ with curenv := none } := hfree.trans (of_eq rfl rfl rfl)
    exact hidle.trans (schedule hrest)
  · cases hrest
    exact hfree

theorem destroyAndReturn {s : Sysret} (h : Mos.destroyAndReturn k cur e s = some r) : SameJobs k r.2 := by
  obtain ⟨k₁, h₁, rfl⟩ := Option.map_eq_some_iff.1 h
  exact envDestroy h₁

theorem woken (k : Kernel) (cur e : EnvIx) (value perm : Word) (q : Tailq EnvIx) :
    SameJobs k (Mos.woken k cur e value perm q) :=
  (setEnv k e (f := fun v => v.deliver value (k.envs cur).envId perm) rfl).trans (of_eq rfl rfl rfl)

theorem send {envid value srcva perm : Word} (h : sysIpcTrySend k cur envid value srcva perm = some r) :
    SameJobs k r.2 := by
  cases send_inv h with
  | refused => exact refl k
  | value e q => exact woken k cur e value perm q
  | lost e q => exact woken k cur e value perm q
  | page e q pp pte i pm => exact (woken k cur e value perm q).trans (of_eq rfl rfl rfl)

/-- **A call that makes no environment and is not about jobs.** -/
theorem call {c : Syscall} (hfork : c ≠ .exofork) (hadd : ∀ envid cmd, c ≠ .addJob envid cmd)
    (hdone : ∀ envid, c ≠ .tryDoneJobStatus envid) (hkill : ∀ jobId, c ≠ .killJob jobId)
    (h : syscallTable k cur c = some r) : SameJobs k r.2 := by
  cases c with
  | putchar => cases h; exact refl k
  | printCons s num =>
    simp only [syscallTable, sysPrintCons] at h
    split at h
    · exact (refl k).ret h
    · obtain ⟨k₂, h₂, hret⟩ := Option.bind_eq_some_iff.1 h
      exact (touchRange h₂).ret hret
  | getenvid => exact (refl k).ret h
  | yield =>
    obtain ⟨k₂, h₂, rfl⟩ := Option.map_eq_some_iff.1 h
    exact schedule h₂
  | envDestroy envid =>
    simp only [syscallTable, sysEnvDestroy] at h
    split at h
    · exact (refl k).ret h
    · exact destroyAndReturn h
  | setTlbModEntry envid func =>
    simp only [syscallTable, sysSetTlbModEntry] at h
    split at h
    · exact (refl k).ret h
    · rename_i e _
      exact (setEnv k e (f := fun v => { v with envUserTlbModEntry := func }) rfl).ret h
  | memAlloc envid va perm =>
    simp only [syscallTable, sysMemAlloc] at h
    split at h
    · exact (refl k).ret h
    · split at h
      · exact (refl k).ret h
      · split at h
        · exact (refl k).ret h
        · exact retPm h
  | memMap srcid srcva dstid dstva perm =>
    simp only [syscallTable, sysMemMap] at h
    split at h
    · exact (refl k).ret h
    · split at h
      · exact (refl k).ret h
      · split at h
        · exact (refl k).ret h
        · obtain ⟨l, -, hl⟩ := Option.bind_eq_some_iff.1 h
          cases l with
          | none => exact (refl k).ret hl
          | some l => exact retPm hl
  | memUnmap envid va =>
    simp only [syscallTable, sysMemUnmap] at h
    split at h
    · exact (refl k).ret h
    · split at h
      · exact (refl k).ret h
      · obtain ⟨pm, -, hret⟩ := Option.bind_eq_some_iff.1 h
        exact (of_eq rfl rfl rfl : SameJobs k (k.setPm pm)).ret hret
  | exofork => exact absurd rfl hfork
  | setEnvStatus envid status =>
    simp only [syscallTable, sysSetEnvStatus] at h
    split at h
    · exact (refl k).ret h
    · rename_i st _
      split at h
      · exact (refl k).ret h
      · rename_i e _
        obtain ⟨q, -, hret⟩ := Option.bind_eq_some_iff.1 h
        rw [ret_eq hret]
        exact (setEnv k e (f := fun v => { v with envStatus := st }) rfl).trans (of_eq rfl rfl rfl)
  | setTrapframe envid va tf =>
    simp only [syscallTable, sysSetTrapframe] at h
    split at h
    · exact (refl k).ret h
    · split at h
      · exact (refl k).ret h
      · rename_i e _
        obtain ⟨k₂, h₂, hret⟩ := Option.bind_eq_some_iff.1 h
        split at hret
        · have hregs : SameJobs k { k₂ with ktf := tf } := (touchRange h₂).trans (of_eq rfl rfl rfl)
          exact hregs.ret hret
        · exact ((touchRange h₂).trans (setEnv k₂ e (f := fun v => { v with envTf := tf }) rfl)).ret hret
  | panic => cases h
  | ipcTrySend envid value srcva perm => exact send h
  | ipcRecv dstva =>
    simp only [syscallTable, sysIpcRecv] at h
    split at h
    · exact (refl k).ret h
    · obtain ⟨q, -, hrest⟩ := Option.bind_eq_some_iff.1 h
      obtain ⟨k₂, h₂, rfl⟩ := Option.map_eq_some_iff.1 hrest
      have hset : SameJobs k (k.setEnv cur fun v => v.startRecv dstva) := setEnv k cur rfl
      refine SameJobs.trans (hset.trans ?_) (schedule h₂)
      exact of_eq rfl rfl rfl
  | cgetc ch => exact (refl k).ret h
  | writeDev va pa len =>
    simp only [syscallTable, sysWriteDev] at h
    split at h
    · exact (refl k).ret h
    · obtain ⟨k₂, h₂, hret⟩ := Option.bind_eq_some_iff.1 h
      exact (touchRange h₂).ret hret
  | readDev va pa len w =>
    simp only [syscallTable, sysReadDev] at h
    split at h
    · exact (refl k).ret h
    · obtain ⟨k₂, h₂, hrest⟩ := Option.bind_eq_some_iff.1 h
      obtain ⟨pm, -, hret⟩ := Option.bind_eq_some_iff.1 hrest
      obtain ⟨pm₂, rfl⟩ := touch_eq h₂
      exact (of_eq rfl rfl rfl : SameJobs k ((k.setPm pm₂).setPm pm)).ret hret
  | getEnvParentId envid =>
    simp only [syscallTable, sysGetEnvParentId] at h
    split at h <;> exact (refl k).ret h
  | addJob envid cmd => exact absurd rfl (hadd envid cmd)
  | printJobs => cases h; exact refl k
  | tryDoneJobStatus envid => exact absurd rfl (hdone envid)
  | killJob jobId => exact absurd rfl (hkill jobId)
  | getEnvidByJob jobId =>
    simp only [syscallTable, sysGetEnvidByJob] at h
    split at h
    · exact (refl k).ret h
    · obtain ⟨i, -, hi⟩ := Option.bind_eq_some_iff.1 h
      split at hi <;> exact (refl k).ret hi

theorem step {a : Act} (ha : ∀ c v0, a ≠ .syscall c v0) (h : Mos.step k a = some k') : SameJobs k k' := by
  cases a with
  | tick => exact schedule h
  | exec tf =>
    obtain ⟨cur, -, hu⟩ := Option.bind_eq_some_iff.1 h
    cases hu
    exact of_eq rfl rfl rfl
  | miss va victim =>
    obtain ⟨cur, -, hu⟩ := Option.bind_eq_some_iff.1 h
    simp only [userStep] at hu
    split at hu
    · cases hu
    · obtain ⟨pm, -, rfl⟩ := Option.map_eq_some_iff.1 hu
      exact of_eq rfl rfl rfl
  | store va w =>
    obtain ⟨cur, -, hu⟩ := Option.bind_eq_some_iff.1 h
    obtain ⟨pm, -, rfl⟩ := Option.map_eq_some_iff.1 hu
    exact of_eq rfl rfl rfl
  | mod va =>
    obtain ⟨cur, -, hu⟩ := Option.bind_eq_some_iff.1 h
    simp only [userStep, doTlbMod] at hu
    obtain ⟨k₁, hw, hrest⟩ := Option.bind_eq_some_iff.1 hu
    obtain ⟨pm, rfl⟩ := storeWords_eq hw
    split at hrest
    · cases hrest
    · cases hrest
      exact of_eq rfl rfl rfl
  | syscall c v0 => exact absurd rfl (ha c v0)
  | noSys =>
    obtain ⟨cur, -, hu⟩ := Option.bind_eq_some_iff.1 h
    cases hu
    exact of_eq rfl rfl rfl

end SameJobs

theorem envAlloc_jobs {k k' : Kernel} {parentId : Word} {r : Except Int EnvIx} (h : envAlloc k parentId = (r, k')) :
    k'.jobs = k.jobs ∧ k'.jobNum = k.jobNum := by
  unfold envAlloc at h
  split at h
  · cases h
    exact ⟨rfl, rfl⟩
  · split at h
    · cases h
      exact ⟨rfl, rfl⟩
    · rename_i k₁ hs
      obtain ⟨⟨pp, pm₁⟩, -, rfl⟩ := Option.map_eq_some_iff.1 hs
      dsimp only at h
      split at h <;> cases h <;> exact ⟨rfl, rfl⟩

theorem sysExofork_jobs {k : Kernel} {cur : EnvIx} {r : Sysret × Kernel} (hal : k.procs.Alive)
    (h : sysExofork k cur = some r) :
    r.2.jobs = k.jobs ∧ r.2.jobNum = k.jobNum ∧ ∀ e, (k.envs e).envStatus ≠ .free →
    (r.2.envs e).envId = (k.envs e).envId := by
  have hids : ∀ {res : Except Int EnvIx} {k' : Kernel}, envAlloc k (k.envs cur).envId = (res, k') →
      ∀ e, (k.envs e).envStatus ≠ .free → (k'.envs e).envId = (k.envs e).envId := by
    intro res k' ha e hlive
    rcases envAlloc_ids ha with ⟨-, rfl⟩ | ⟨x, rest, hf, hn, -⟩
    · rfl
    · have hfree : k.procs.status x = .free :=
        hal.free x (by rw [show k.procs.free = _ from hf]; exact List.mem_cons_self)
      exact hn.other e fun he => hlive (he ▸ hfree)
  unfold sysExofork at h
  split at h
  · rename_i i k₁ ha
    obtain ⟨hj, hn⟩ := envAlloc_jobs ha
    rw [ret_eq h]
    exact ⟨hj, hn, hids ha⟩
  · rename_i x k₁ ha
    obtain ⟨hj, hn⟩ := envAlloc_jobs ha
    rw [ret_eq h]
    refine ⟨hj, hn, fun e hlive => ?_⟩
    have hset : ((k₁.setEnv x fun v => { v with envTf := k₁.ktf.setReg 2 0, envStatus := .notRunnable
                                                envPri := (k₁.envs cur).envPri }).envs e).envId = (k₁.envs e).envId :=
      k₁.setEnv_field x e rfl
    exact hset.trans (hids ha e hlive)

/-! ## What a call does with the jobs -/

/-- What a run whose steps are safe keeps: an unfinished job has a proper id. -/
structure JobInv (k : Kernel) : Prop extends k.JobTable where
  flags : ∀ i < k.jobNum, (k.jobs i).flag = 0 ∨ (k.jobs i).flag = 1
  named : ∀ i < k.jobNum, (k.jobs i).flag = 0 → (k.jobs i).envId ≠ 0

theorem readsJob_of_ne {k : Kernel} {jobId : Word} (h : jobId ≠ 0) : k.ReadsJob jobId := by
  by_cases hn : k.jobNum < jobId.toNat
  · exact .inl hn
  · have hpos : jobId.toNat ≠ 0 := fun h0 => h (BitVec.eq_of_toNat_eq h0)
    exact .inr ⟨jobId.toNat - 1, by omega, if_neg h⟩

theorem envid2env_id {k : Kernel} {cur e : EnvIx} {envid : Word} {checkperm : Bool} (h0 : envid ≠ 0)
    (h : envid2env k cur envid checkperm = some e) : (k.envs e).envStatus ≠ .free ∧ (k.envs e).envId = envid := by
  unfold envid2env at h
  rw [if_neg h0] at h
  dsimp only at h
  split at h
  · cases h
  · rename_i hb
    rw [not_or, not_not] at hb
    split at h
    · cases h
    · cases h
      exact hb

theorem envid2env_of_live {k : Kernel} {cur : EnvIx} {envid : Word} (hid : ∀ e, IdAt e (k.envs e)) (h0 : envid ≠ 0)
    (h : k.Live envid) : envid2env k cur envid false ≠ none := by
  obtain ⟨e, hlive, he⟩ := h
  have hx : envx envid = e := by
    rcases hid e with hz | hx
    · exact absurd (he.symm.trans hz) h0
    · rw [← he, hx]
  unfold envid2env
  rw [if_neg h0]
  dsimp only
  rw [hx, if_neg (by rw [not_or, not_not]; exact ⟨hlive, he⟩)]
  simp

namespace JobInv

variable {k k' : Kernel} {cur e : EnvIx} {r : Sysret × Kernel}

/-- The jobs are the same, and what is freed has none that is unfinished. -/
theorem of_live (h : JobInv k) (hj : k'.jobs = k.jobs) (hn : k'.jobNum = k.jobNum)
    (hids : ∀ e, (k.envs e).envStatus ≠ .free → (k'.envs e).envId = (k.envs e).envId)
    (hfree : ∀ e, Frees k k' e → k.Unrecorded (k.envs e).envId) : JobInv k' := by
  refine ⟨⟨hn ▸ h.size, fun i hi hf => ?_⟩, fun i hi => ?_, fun i hi => ?_⟩
  · rw [hn] at hi
    rw [hj] at hf ⊢
    obtain ⟨e, hlive, hid⟩ := h.live i hi hf
    refine ⟨e, fun hdead => ?_, (hids e hlive).trans hid⟩
    exact hfree e ⟨hlive, hdead⟩ i hi hf hid.symm
  · rw [hj]
    exact h.flags i (hn ▸ hi)
  · rw [hj]
    exact h.named i (hn ▸ hi)

theorem same (h : JobInv k) (hs : SameJobs k k') (hfree : ∀ e, Frees k k' e → k.Unrecorded (k.envs e).envId) :
    JobInv k' :=
  h.of_live hs.jobs hs.jobNum (fun e _ => hs.ids e) hfree

theorem mark (h : JobInv k) (he : k'.envs = k.envs) (hn : k'.jobNum = k.jobNum)
    (hjobs : ∀ i, k'.jobs i = k.jobs i ∨ k'.jobs i = (k.jobs i).done) : JobInv k' := by
  have hsame : ∀ i, (k'.jobs i).flag = 0 → k'.jobs i = k.jobs i := by
    intro i hf
    rcases hjobs i with hi | hi
    · exact hi
    · rw [hi] at hf
      cases hf
  refine ⟨⟨hn ▸ h.size, fun i hi hf => ?_⟩, fun i hi => ?_, fun i hi hf => ?_⟩
  · have hi' := hsame i hf
    rw [hi'] at hf ⊢
    obtain ⟨e, hlive, hid⟩ := h.live i (hn ▸ hi) hf
    exact ⟨e, by rwa [he], by rwa [he]⟩
  · rcases hjobs i with hi' | hi'
    · rw [hi']
      exact h.flags i (hn ▸ hi)
    · rw [hi']
      exact .inr rfl
  · have hi' := hsame i hf
    rw [hi'] at hf ⊢
    exact h.named i (hn ▸ hi) hf

theorem destroy {s : Sysret} (h : JobInv k) (hd : destroyAndReturn k cur e s = some r)
    (hun : k.Unrecorded (k.envs e).envId) :
    JobInv r.2 := by
  refine h.same (.destroyAndReturn hd) fun x ⟨hlive, hdead⟩ => ?_
  have hst : r.2.procs.status x = .free := hdead
  rw [(destroyAndReturn_procs hd).status, Function.update_apply] at hst
  split at hst
  · rename_i hx
    rwa [hx]
  · exact absurd hst hlive

/-- The entries of the table after `sys_add_job`: those before are the same, whatever runs on behind the new one. -/
theorem added_jobs (k : Kernel) (cmd : List (BitVec 8)) (job : Job) {i : Nat} (hi : i < k.jobNum + 1) :
    i < k.jobNum ∧ Function.update (strcpyCommand k.jobs k.jobNum cmd) k.jobNum job i = k.jobs i ∨
    Function.update (strcpyCommand k.jobs k.jobNum cmd) k.jobNum job i = job := by
  by_cases he : i = k.jobNum
  · rw [he, Function.update_self]
    exact .inr rfl
  · refine .inl ⟨by omega, ?_⟩
    rw [Function.update_of_ne he]
    exact if_neg (by omega)

/-- **`sys_add_job` of a live environment**, while there is room. -/
theorem add (h : JobInv k) {envid : Word} {cmd : List (BitVec 8)} (h0 : envid ≠ 0) (hlive : k.Live envid)
    (hs : sysAddJob k envid cmd = some r) : JobInv r.2 := by
  unfold sysAddJob at hs
  split at hs
  · rename_i hroom
    cases hs
    have hjob : ∀ i < k.jobNum + 1, _ := fun i hi =>
      added_jobs k cmd ⟨BitVec.ofNat 32 (k.jobNum + 1), 0, envid, cmd⟩ hi
    refine ⟨⟨hroom.1, fun i hi hf => ?_⟩, fun i hi => ?_, fun i hi hf => ?_⟩
    · rcases hjob i hi with ⟨hlt, he⟩ | he
      · simp only [he] at hf ⊢
        exact h.live i hlt hf
      · simp only [he]
        exact hlive
    · rcases hjob i hi with ⟨hlt, he⟩ | he
      · simp only [he]
        exact h.flags i hlt
      · simp only [he]
        exact .inl trivial
    · rcases hjob i hi with ⟨hlt, he⟩ | he
      · simp only [he] at hf ⊢
        exact h.named i hlt hf
      · simp only [he]
        exact h0
  · cases hs

/-- **`sys_try_done_job_status`** marks the jobs of the caller. -/
theorem tryDone (h : JobInv k) {envid : Word} (hsafe : (Syscall.tryDoneJobStatus envid).JobSafe k cur)
    (hs : sysTryDoneJobStatus k cur envid = some r) : JobInv r.2 := by
  obtain ⟨e, hfound, hd⟩ := Option.bind_eq_some_iff.1 hs
  have he : envid2env k cur envid true = some e := by
    rw [← hfound]
    exact (envid2env_congr rfl _ _ _).symm
  refine destroy ?_ hd fun i hi hf hid => ?_
  · refine h.mark rfl rfl fun i => ?_
    dsimp only
    split
    · exact .inr rfl
    · exact .inl rfl
  · dsimp only at hf hid
    split at hf
    · cases hf
    · rename_i hother
      rw [if_neg hother] at hid
      obtain ⟨e', he', hown⟩ := hsafe
      cases he.symm.trans he'
      rcases hown with rfl | hun
      · exact hother ⟨hi, hid.symm, hf⟩
      · exact hun i hi hf hid

/-- **`sys_kill_job`** marks the job it kills. -/
theorem kill (h : JobInv k) {jobId : Word} (hsafe : (Syscall.killJob jobId).JobSafe k cur)
    (hs : sysKillJob k cur jobId = some r) : JobInv r.2 := by
  unfold sysKillJob at hs
  split at hs
  · cases hs
    exact h
  · rename_i hn
    obtain ⟨i, hix, hrest⟩ := Option.bind_eq_some_iff.1 hs
    have hi : i < k.jobNum := by
      obtain ⟨j, hj, hjx⟩ := (readsJob_of_ne (k := k) hsafe.1).resolve_left hn
      cases hix.symm.trans hjx
      exact hj
    split at hrest
    · cases hrest
      exact h
    · rename_i hflag
      have hf := (h.flags i hi).resolve_right hflag
      obtain ⟨e, hfound, hd⟩ := Option.bind_eq_some_iff.1 hrest
      have he : envid2env k cur (k.jobs i).envId false = some e := by
        rw [← hfound]
        exact (envid2env_congr rfl _ _ _).symm
      have hid := (envid2env_id (h.named i hi hf) he).2
      refine destroy ?_ hd fun j hj hfj hidj => ?_
      · refine h.mark rfl rfl fun j => ?_
        by_cases hji : j = i
        · exact .inr (by rw [hji]; exact Function.update_self _ _ _)
        · exact .inl (Function.update_of_ne hji _ _)
      · by_cases hji : j = i
        · rw [hji] at hfj
          simp only [Function.update_self] at hfj
          cases hfj
        · simp only [Function.update_of_ne hji] at hfj hidj
          exact hsafe.2 i hi hix hf j hj hji hfj (hidj.trans hid)

/-- **A call keeps the table.** -/
theorem call (h : JobInv k) (hal : k.procs.Alive) (hcur : k.curenv = some cur) {c : Syscall} (hsafe : c.JobSafe k cur)
    (hs : syscallTable k cur c = some r) : JobInv r.2 := by
  by_cases hfork : c = .exofork
  · subst hfork
    obtain ⟨hj, hn, hids⟩ := sysExofork_jobs hal hs
    refine h.of_live hj hn hids fun e ⟨hlive, hdead⟩ => ?_
    obtain ⟨cur', c, v0, hc, -, hv⟩ := moves_frees (syscall_moves 0 hcur rfl rfl rfl rfl hs) hlive hdead
    cases hc
    cases hv
  cases c with
  | addJob envid cmd => exact h.add hsafe.2.1 hsafe.2.2 hs
  | tryDoneJobStatus envid => exact h.tryDone hsafe hs
  | killJob jobId => exact h.kill hsafe hs
  | _ =>
    refine h.same (.call hfork nofun nofun nofun hs) fun e ⟨hlive, hdead⟩ => ?_
    obtain ⟨cur', c, v0, hc, hcur', hv⟩ := moves_frees (syscall_moves 0 hcur rfl rfl rfl rfl hs) hlive hdead
    cases hc
    -- only `sys_env_destroy` is left to destroy
    first
      | cases hv
      | cases hcur.symm.trans hcur'
        exact hsafe e hv

theorem args (h : JobInv k) {k₁ : Kernel} (hargs : readArgs k cur = some k₁) : JobInv k₁ := by
  obtain ⟨pm, rfl⟩ := readArgs_eq hargs
  exact h.same (.of_eq rfl rfl rfl) fun e ⟨hlive, hdead⟩ => absurd hdead hlive

theorem step (h : JobInv k) (hal : k.procs.Alive) {a : Act} (hsafe : JobSafe k a) (hs : Mos.step k a = some k') :
    JobInv k' := by
  cases a with
  | syscall c v0 =>
    obtain ⟨cur, hcur, hu⟩ := Option.bind_eq_some_iff.1 hs
    obtain ⟨k₁, r, hargs, hc, rfl⟩ := doSyscall_inv hu
    have h₁ := h.args hargs
    obtain ⟨pm, rfl⟩ := readArgs_eq hargs
    have hcall := h₁.call hal hcur (hsafe cur hcur) hc
    refine hcall.same ?_ fun e ⟨hlive, hdead⟩ => ?_
    · obtain ⟨_ | _ | _, k₂⟩ := r <;> exact .of_eq rfl rfl rfl
    · have hst := congrFun (congrArg Procs.status (procs_setV0 v0 r)) e
      exact absurd (hst.symm.trans hdead) hlive
  | _ =>
    refine h.same (.step (fun _ _ hc => by cases hc) hs) fun e ⟨hlive, hdead⟩ => ?_
    obtain ⟨cur, c, v0, hc, -, -⟩ := moves_frees (step_moves hs) hlive hdead
    cases hc

/-- **`sys_kill_job` on a sound table.** -/
theorem kills (h : JobInv k) (hid : ∀ e, IdAt e (k.envs e)) {jobId : Word} (h0 : jobId ≠ 0) :
    KillsRecorded k cur jobId := by
  refine ⟨fun ⟨hn, hun⟩ => ?_, ?_, ?_⟩
  · obtain ⟨i, hi, hix⟩ := (readsJob_of_ne (k := k) h0).resolve_left (Nat.not_lt.2 hn)
    obtain ⟨hflag, hnone⟩ := hun i hix
    have hf := (h.flags i hi).resolve_right hflag
    exact (envid2env_of_live hid (h.named i hi hf) (h.live i hi hf)) hnone
  · intro r e hs ⟨hlive, hdead⟩
    unfold sysKillJob at hs
    split at hs
    · cases hs
      exact absurd hdead hlive
    · rename_i hn
      obtain ⟨i, hi, hix⟩ := (readsJob_of_ne (k := k) h0).resolve_left hn
      refine ⟨i, hi, hix, ?_⟩
      rw [hix, Option.bind_some] at hs
      split at hs
      · cases hs
        exact absurd hdead hlive
      · rename_i hflag
        obtain ⟨x, hfound, hd⟩ := Option.bind_eq_some_iff.1 hs
        have hst : r.2.procs.status e = .free := hdead
        rw [(destroyAndReturn_procs hd).status, Function.update_apply] at hst
        split at hst
        · rename_i hx
          rw [hx]
          exact (envid2env_id (h.named i hi ((h.flags i hi).resolve_right hflag)) hfound).2
        · exact absurd hst hlive
  · intro i hi hix hgone
    have hflag : (k.jobs i).flag = 1 := (h.flags i hi).resolve_left fun hf => hgone (h.live i hi hf)
    unfold sysKillJob
    split
    · exact ⟨_, rfl, rfl⟩
    · rw [hix, Option.bind_some, if_pos hflag]
      exact ⟨_, rfl, rfl⟩

end JobInv

/-! ## Runs -/

theorem envCreate_jobNum {k k' : Kernel} {binary : Binary} {priority : Word}
    (h : envCreate k binary priority = some k') :
    k'.jobNum = k.jobNum := by
  unfold envCreate at h
  cases ha : envAlloc k 0 with
  | mk res k₁ =>
    have hn := (envAlloc_jobs ha).2
    rw [ha] at h
    cases res with
    | error i =>
      cases h
      exact hn
    | ok e =>
      obtain ⟨k₂, h₂, rfl⟩ := Option.map_eq_some_iff.1 h
      obtain ⟨ehdr, -, h₃⟩ := Option.bind_eq_some_iff.1 h₂
      obtain ⟨pm, -, rfl⟩ := Option.map_eq_some_iff.1 h₃
      exact hn

theorem booted_jobNum {k : Kernel} (h : Booted k) : k.jobNum = 0 := by
  obtain ⟨b, programs, hb⟩ := h
  obtain ⟨⟨pages, pm⟩, -, h₁⟩ := Option.bind_eq_some_iff.1 hb
  obtain ⟨k₀, hk₀, hfold⟩ := Option.bind_eq_some_iff.1 h₁
  have hw : k₀.jobNum = 0 := by
    obtain ⟨⟨pp, pm₁⟩, -, h₂⟩ := Option.bind_eq_some_iff.1 hk₀
    obtain ⟨pm₂, -, h₃⟩ := Option.bind_eq_some_iff.1 h₂
    obtain ⟨pm₃, -, rfl⟩ := Option.map_eq_some_iff.1 h₃
    rfl
  clear hk₀ hb h₁
  induction programs generalizing k₀ with
  | nil => cases hfold; exact hw
  | cons pr prs ih =>
    obtain ⟨k₁, hc, hrest⟩ := Option.bind_eq_some_iff.1 hfold
    exact ih k₁ hrest ((envCreate_jobNum hc).trans hw)

theorem jobInv_booted {k : Kernel} (h : Booted k) : JobInv k := by
  have h0 := booted_jobNum h
  exact ⟨⟨by omega, fun i hi => by omega⟩, fun i hi => by omega, fun i hi => by omega⟩

theorem jobInv_run {k : Kernel} (h : Run Booted step JobSafe k) : k.procs.Alive ∧ JobInv k :=
  Run.invariant (fun k => k.procs.Alive ∧ JobInv k) (fun _ hb => ⟨booted_alive hb, jobInv_booted hb⟩)
    (fun _ _ _ hi hsafe hs => ⟨alive_of_moves hi.1 (step_moves hs), hi.2.step hi.1 hsafe hs⟩) k h

/-- **The table of jobs is sound in every run whose steps are safe**: every entry that is read or written is in the
table, which stays inside its array, `sys_kill_job` destroys the environment of its entry and no other, and a job that
is not done is of a live environment. -/
theorem jobs_sound (k : Kernel) (h : Run Booted step JobSafe k) (a : Act) (ha : JobSafe k a) : JobsSound k a := by
  have hinv := (jobInv_run h).2
  have hid := (reachable_idAt (h.mono fun _ _ _ => trivial)).2
  refine ⟨hinv.toJobTable, fun cur k₁ c v0 hact hcur hargs => ?_⟩
  subst hact
  have hsafe := ha cur hcur
  have hinv₁ := hinv.args hargs
  obtain ⟨pm, rfl⟩ := readArgs_eq hargs
  cases c with
  | addJob envid cmd => exact ⟨hsafe.1.1, hsafe.1⟩
  | killJob jobId => exact ⟨readsJob_of_ne hsafe.1, hinv₁.kills hid hsafe.1⟩
  | getEnvidByJob jobId => exact readsJob_of_ne hsafe
  | tryDoneJobStatus envid =>
    obtain ⟨e, he, -⟩ := hsafe
    exact fun hnone => nomatch he.symm.trans hnone
  | _ => trivial

/-- `JobSafe`, computed, for the calls of the run below. -/
def jobSafeB (k : Kernel) : Act → Bool
  | .syscall (.addJob envid cmd) _ => decide (commandFits k.jobNum cmd ∧ envid ≠ 0 ∧
      (k.envs (envx envid)).envStatus ≠ .free ∧ (k.envs (envx envid)).envId = envid)
  | .syscall (.getEnvidByJob jobId) _ => decide (jobId ≠ 0)
  | .syscall (.killJob jobId) _ => decide (jobId ≠ 0 ∧ k.jobNum ≤ 1)
  | .syscall .. => false
  | _ => true

theorem jobSafe_of_jobSafeB (k : Kernel) (a : Act) (h : jobSafeB k a = true) : JobSafe k a := by
  cases a with
  | syscall c v0 =>
    intro cur _
    cases c with
    | addJob envid cmd =>
      obtain ⟨hroom, h0, hlive, hid⟩ := of_decide_eq_true h
      exact ⟨hroom, h0, envx envid, hlive, hid⟩
    | getEnvidByJob jobId =>
      have h0 : jobId ≠ 0 := of_decide_eq_true h
      exact h0
    | killJob jobId =>
      obtain ⟨h0, hone⟩ := of_decide_eq_true h
      exact ⟨h0, fun i hi _ _ j hj hji => absurd (show j = i by omega) hji⟩
    | _ => cases h
  | _ => trivial

/-- A job is made of another environment, and killed. -/
theorem jobs_sound_killed : ∃ k, k.jobNum = 1 ∧ (k.jobs 0).envId = (k.envs 0).envId ∧ (k.envs 0).envStatus = .free ∧
    JobsSound k (.syscall (.killJob 1) 0) := by
  obtain ⟨k, hr, hk⟩ := exists_run jobSafe_of_jobSafeB [emptyProgram, emptyProgram]
    [.tick, .exec stackFrame, .syscall (.addJob 2048 []) 0, .syscall (.getEnvidByJob 1) 0, .syscall (.killJob 1) 0]
    (fun k => decide (k.jobNum = 1 ∧ (k.jobs 0).envId = (k.envs 0).envId ∧ (k.envs 0).envStatus = .free))
    (by decide +kernel)
  obtain ⟨hn, hid, hfree⟩ := of_decide_eq_true hk
  refine ⟨k, hn, hid, hfree, jobs_sound k hr _ (jobSafe_of_jobSafeB k _ ?_)⟩
  simp only [jobSafeB, hn]
  decide

/-- **A job of nobody**: what `spawn` returned was an error, and the job is there, not done, of an environment that
never was. -/
theorem jobs_sound_fails : ¬∀ k, Reachable k → ∀ a, JobsSound k a := by
  obtain ⟨k, hr, hk⟩ := exists_reachable [emptyProgram]
    [.tick, .exec stackFrame, .syscall (.addJob (-1) []) 0]
    (fun k => decide (k.jobNum = 1 ∧ (k.jobs 0).flag = 0 ∧ (k.jobs 0).envId = -1 ∧ (k.envs 1023).envStatus = .free))
    (by decide +kernel)
  obtain ⟨hn, hf, hid, hfree⟩ := of_decide_eq_true hk
  intro hall
  obtain ⟨e, hlive, he⟩ := (hall k hr .tick).table.live 0 (by omega) hf
  rw [hid] at he
  rcases (reachable_idAt hr).2 e with h0 | hx
  · rw [he] at h0
    exact absurd h0 (by decide)
  · rw [he] at hx
    have hlast : e = 1023 := hx.symm.trans (by decide)
    exact hlive (hlast ▸ hfree)

end Mos
