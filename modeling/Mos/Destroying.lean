import Mos.Edits
/-!
# Destroying — which environments a call may destroy

`envid2env` with `checkperm` lets a call name its caller and the caller's children only.  `sys_env_destroy` and
`sys_try_done_job_status` ask for that; `sys_kill_job` takes the id that an earlier call of anybody left in the table of
jobs, and does not.  The two calls on jobs do not look at what `envid2env` returns: when it refuses, they destroy
through a pointer that was never set (`Act.Unset`).
-/
namespace Mos

/-- `env_free` ran on `e`. -/
def Frees (k k' : Kernel) (e : EnvIx) : Prop := (k.envs e).envStatus ≠ .free ∧ (k'.envs e).envStatus = .free

/-- `e` is `cur` or its child. -/
def Owns (k : Kernel) (cur e : EnvIx) : Prop := e = cur ∨ (k.envs e).envParentId = (k.envs cur).envId

/-- The step calls `env_destroy` with a pointer that was never set. -/
def Act.Unset (k : Kernel) : Act → Prop
  | .syscall c _ => ∃ cur k₁, k.curenv = some cur ∧ readArgs k cur = some k₁ ∧ c.Unset k₁ cur
  | _ => False

/-- **The step frees nobody but the caller and its children**: the pointer it destroys is set, and what is freed is the
caller's own. -/
structure DestroysOwn (k : Kernel) (a : Act) : Prop where
  set : ¬a.Unset k
  own : ∀ k', step k a = some k' → ∀ e, Frees k k' e → ∃ cur, k.curenv = some cur ∧ Owns k cur e

/-- What `sys_try_done_job_status` destroys, and what `sys_kill_job` destroys while the job is not done, is found by
`envid2env` with `checkperm`; the number of the job is not 0. -/
def JobChecked (k : Kernel) : Act → Prop
  | .syscall (.tryDoneJobStatus envid) _ => ∀ cur, k.curenv = some cur → envid2env k cur envid true ≠ none
  | .syscall (.killJob jobId) _ => ∀ cur, k.curenv = some cur → jobId.toNat ≤ k.jobNum →
      ∃ i, jobIx jobId = some i ∧ ((k.jobs i).flag ≠ 1 → envid2env k cur (k.jobs i).envId true ≠ none)
  | _ => True

/-! ## Ids -/

theorem envx_mkenvid (i : Word) (e : EnvIx) : envx (mkenvid i e) = e := by
  have he : e.val < 1024 := e.isLt
  have hlow : (mkenvid i e &&& 0x3FF).toNat = e.val := by
    have hand : mkenvid i e &&& 0x3FF = BitVec.ofNat 32 e.val := by
      apply BitVec.eq_of_getLsbD_eq
      intro j hj
      have hbig : ∀ n, 10 ≤ n → e.val.testBit n = false := fun n hn =>
        Nat.testBit_lt_two_pow (Nat.lt_of_lt_of_le he (Nat.pow_le_pow_right (by decide) hn : 2 ^ 10 ≤ 2 ^ n))
      have hmask : ∀ n, n < 32 → (0x3FF : Word).getLsbD n = decide (n < 10) := by decide
      simp only [mkenvid, log2nenv, BitVec.getLsbD_and, BitVec.getLsbD_or, BitVec.getLsbD_shiftLeft,
        BitVec.getLsbD_ofNat,
        hmask j hj, hj, decide_true, Bool.true_and]
      by_cases hj10 : j < 10
      · simp [hj10, Nat.lt_of_lt_of_le hj10 (by decide : 10 ≤ 11)]
      · simp [hj10, hbig j (by omega)]
    rw [hand, BitVec.toNat_ofNat]
    omega
  exact Fin.ext hlow

/-- An id that was given out is at its own index. -/
def IdAt (e : EnvIx) (v : Env) : Prop := v.envId = 0 ∨ envx v.envId = e

theorem idAt_alloc (e : EnvIx) (v v' : Env) (h : AllocEdit e v v') (hid : IdAt e v) : IdAt e v' := by
  cases h with
  | id i => exact .inr (envx_mkenvid i e)
  | _ => exact hid

theorem idAt_rule (k : Kernel) (a : Act) : EditRule IdAt (fun _ => True) k a where
  edit e v v' h hid := by
    cases h with
    | alloc _ h => exact idAt_alloc e v v' h hid
    | _ => exact hid
  load _ _ _ _ := trivial
  regs _ _ _ _ := trivial
  context _ _ _ _ _ _ _ _ _ _ := trivial

theorem reachable_idAt {k : Kernel} (h : Reachable k) : k.procs.Alive ∧ ∀ e, IdAt e (k.envs e) := by
  have hinv := Run.invariant (fun k => k.procs.Alive ∧ Held IdAt (fun _ => True) k)
    (fun k hb => ⟨booted_alive hb, booted_held (fun _ => .inl rfl) idAt_alloc (fun _ _ _ _ _ _ hid => hid) hb⟩)
    (fun k a k' hi _ hs => ⟨alive_of_moves hi.1 (step_moves hs), hi.2.step hi.1 (idAt_rule k a) hs⟩) k h
  exact ⟨hinv.1, hinv.2.envs⟩

/-- **What `envid2env` finds with `checkperm`** is the caller or its child. -/
theorem owns_of_checkperm {k : Kernel} {cur e : EnvIx} {envid : Word} (hid : ∀ e, IdAt e (k.envs e))
    (h : envid2env k cur envid true = some e) : Owns k cur e := by
  unfold envid2env at h
  split at h
  · cases h
    exact .inl rfl
  · rename_i h0
    dsimp only at h
    split at h
    · cases h
    · rename_i hlive
      rw [not_or, not_not] at hlive
      split at h
      · cases h
      · rename_i hperm
        cases h
        rw [not_and_or, not_and_or, not_not, not_not] at hperm
        rcases hperm with hp | hself | hparent
        · exact absurd rfl hp
        · left
          have hcur : (k.envs cur).envId = envid := hself.symm.trans hlive.2
          rcases hid cur with hz | hx
          · exact absurd (hcur.symm.trans hz) h0
          · rw [← hx, hcur]
        · exact .inr hparent

/-- With and without `checkperm`, `envid2env` finds the same environment. -/
theorem envid2env_unchecked {k : Kernel} {cur e : EnvIx} {envid : Word} (h : envid2env k cur envid true = some e) :
    envid2env k cur envid false = some e := by
  unfold envid2env at h ⊢
  split at h
  · rename_i h0
    rw [if_pos h0]
    exact h
  · rename_i h0
    rw [if_neg h0]
    dsimp only at h ⊢
    split at h
    · cases h
    · rename_i hlive
      rw [if_neg hlive]
      split at h
      · cases h
      · simpa using h

theorem checkperm_of_owns {k : Kernel} {cur e : EnvIx} {envid : Word} (h : envid2env k cur envid false = some e)
    (ho : Owns k cur e) : envid2env k cur envid true = some e := by
  unfold envid2env at h ⊢
  split at h
  · rename_i h0
    rw [if_pos h0]
    exact h
  · rename_i h0
    rw [if_neg h0]
    dsimp only at h ⊢
    split at h
    · cases h
    · rename_i hlive
      rw [if_neg hlive]
      have he : envx envid = e := by simpa using h
      rw [he, if_neg]
      rintro ⟨-, hself, hparent⟩
      rcases ho with rfl | hp
      · exact hself rfl
      · exact hparent hp

/-! ## What a step frees -/

namespace Procs

theorem Picks.status {p p' : Procs} (h : p.Picks p') : p'.status = p.status := by
  cases h <;> rfl

theorem Destroys.status {p p' : Procs} {e : EnvIx} (h : p.Destroys e p') :
    p'.status = Function.update p.status e .free := by
  cases h with
  | other q hq hr => rfl
  | self q _ hq hr hp => exact hp.status

end Procs

/-- **Only a call that destroys frees, and only its victim.** -/
theorem moves_frees {k : Kernel} {a : Act} {p : Procs} {e : EnvIx} (h : Moves k a p) (hlive : k.procs.status e ≠ .free)
    (hfree : p.status e = .free) : ∃ cur c v0, a = .syscall c v0 ∧ k.curenv = some cur ∧ c.victim k cur = some e := by
  cases h with
  | quiet => exact absurd hfree hlive
  | tick _ hp => exact absurd (by rwa [hp.status] at hfree) hlive
  | yield v0 _ hp => exact absurd (by rwa [hp.status] at hfree) hlive
  | destroy cur d c v0 _ hcur hv hd =>
    rw [hd.status, Function.update_apply] at hfree
    split at hfree
    · rename_i hed
      exact ⟨cur, c, v0, rfl, hcur, hed ▸ hv⟩
    · exact absurd hfree hlive
  | exofork cur d rest v0 hcur hf =>
    rw [Procs.setStatus_status] at hfree
    split at hfree
    · cases hfree
    · exact absurd hfree hlive
  | setStatus cur d envid status v0 st q hcur hid hst hq =>
    rw [Procs.setStatus_status] at hfree
    split at hfree
    · exact absurd hfree (statusOfWord_ne_free hst)
    · exact absurd hfree hlive
  | recv cur dstva v0 q _ hcur hva hq hp =>
    rw [hp.status] at hfree
    change ({ k.procs with queue := q }.setStatus cur .notRunnable).status e = .free at hfree
    rw [Procs.setStatus_status] at hfree
    split at hfree
    · cases hfree
    · exact absurd hfree hlive
  | send cur d envid value srcva perm v0 q hcur hva hid hr hq =>
    change ({ k.procs with queue := q }.setStatus d .runnable).status e = .free at hfree
    rw [Procs.setStatus_status] at hfree
    split at hfree
    · cases hfree
    · exact absurd hfree hlive

/-- **`sys_kill_job` frees its victim.** -/
theorem killJob_frees {k : Kernel} {cur e : EnvIx} {jobId : Word} {r : Sysret × Kernel}
    (hv : (Syscall.killJob jobId).victim k cur = some e) (h : syscallTable k cur (.killJob jobId) = some r) :
    r.2.procs.status e = .free := by
  simp only [syscallTable, sysKillJob] at h
  simp only [Syscall.victim] at hv
  split at hv
  · cases hv
  · rename_i hn
    rw [if_neg hn] at h
    obtain ⟨i, hi, hrest⟩ := Option.bind_eq_some_iff.1 hv
    obtain ⟨i', hi', hcall⟩ := Option.bind_eq_some_iff.1 h
    obtain rfl : i = i' := by simpa using hi.symm.trans hi'
    split at hrest
    · cases hrest
    · rename_i hflag
      rw [if_neg hflag] at hcall
      obtain ⟨e', he', hd⟩ := Option.bind_eq_some_iff.1 hcall
      obtain rfl : e = e' := by simpa using hrest.symm.trans he'
      rw [(destroyAndReturn_procs hd).status]
      simp

theorem unset_readArgs {k k₁ : Kernel} {cur : EnvIx} (c : Syscall) (h : readArgs k cur = some k₁) :
    c.Unset k₁ cur ↔ c.Unset k cur := by
  obtain ⟨pm, rfl⟩ := readArgs_eq h
  cases c <;> exact Iff.rfl

theorem not_unset_of_some {k : Kernel} {cur : EnvIx} {c : Syscall} {r : Sysret × Kernel}
    (h : syscallTable k cur c = some r) : ¬c.Unset k cur := by
  intro hun
  cases c with
  | tryDoneJobStatus envid =>
    obtain ⟨e, he, -⟩ := Option.bind_eq_some_iff.1 h
    have hnone : envid2env k cur envid true = none := hun
    cases hnone.symm.trans he
  | killJob jobId =>
    obtain ⟨hn, hun⟩ := hun
    simp only [syscallTable, sysKillJob, if_neg (Nat.not_lt.2 hn)] at h
    obtain ⟨i, hi, hrest⟩ := Option.bind_eq_some_iff.1 h
    obtain ⟨hflag, hnone⟩ := hun i hi
    rw [if_neg hflag] at hrest
    obtain ⟨e, he, -⟩ := Option.bind_eq_some_iff.1 hrest
    have he' : envid2env k cur (k.jobs i).envId false = some e := he
    cases hnone.symm.trans he'
  | _ => exact hun

/-- **A call whose environment is found with `checkperm`** destroys no pointer that was never set. -/
theorem JobChecked.set {k : Kernel} {a : Act} (h : JobChecked k a) : ¬a.Unset k := by
  intro hun
  cases a with
  | syscall c v0 =>
    obtain ⟨cur, k₁, hcur, hargs, hc⟩ := hun
    rw [unset_readArgs c hargs] at hc
    cases c with
    | tryDoneJobStatus envid => exact h cur hcur hc
    | killJob jobId =>
      obtain ⟨i, hi, hfound⟩ := h cur hcur hc.1
      obtain ⟨hflag, hnone⟩ := hc.2 i hi
      obtain ⟨e, he⟩ := Option.ne_none_iff_exists'.1 (hfound hflag)
      cases hnone.symm.trans (envid2env_unchecked he)
    | _ => exact hc
  | _ => exact hun

/-! ## Runs -/

/-- **A step of a run frees nobody but the caller and its children, exactly when what it destroys passes `checkperm`.**
A step that panics is left out. -/
theorem destroys_own_iff (k : Kernel) (h : Reachable k) (a : Act) (hs : (step k a).isSome ∨ a.Unset k) :
    DestroysOwn k a ↔ JobChecked k a := by
  obtain ⟨hal, hid⟩ := reachable_idAt h
  constructor
  · intro hown
    obtain ⟨k', hs⟩ := Option.isSome_iff_exists.1 (hs.resolve_right hown.set)
    cases a with
    | syscall c v0 =>
      obtain ⟨cur', hcur', hu⟩ := Option.bind_eq_some_iff.1 hs
      obtain ⟨k₁, r, hargs, hr, rfl⟩ := doSyscall_inv hu
      have hset := mt (unset_readArgs c hargs).2 (not_unset_of_some hr)
      obtain ⟨pm, rfl⟩ := readArgs_eq hargs
      cases c with
      | tryDoneJobStatus envid =>
        intro cur hcur
        obtain rfl : cur = cur' := by simpa using hcur.symm.trans hcur'
        exact hset
      | killJob jobId =>
        intro cur hcur hn
        obtain rfl : cur = cur' := by simpa using hcur.symm.trans hcur'
        have hix : ∃ i, jobIx jobId = some i := by
          by_contra hno
          exact hset ⟨hn, fun i hi => absurd ⟨i, hi⟩ hno⟩
        obtain ⟨i, hi⟩ := hix
        refine ⟨i, hi, fun hflag hnone => ?_⟩
        have hfound : envid2env k cur (k.jobs i).envId false ≠ none := by
          refine fun hno => hset ⟨hn, fun j hj => ?_⟩
          cases hi.symm.trans hj
          exact ⟨hflag, hno⟩
        obtain ⟨e, he⟩ := Option.ne_none_iff_exists'.1 hfound
        have hv : (Syscall.killJob jobId).victim k cur = some e := by
          simp only [Syscall.victim, if_neg (Nat.not_lt.2 hn), hi, Option.bind_some, if_neg hflag]
          exact he
        have hv₁ : (Syscall.killJob jobId).victim ({ k with ktf := k.ktf.nextInstr }.setPm pm) cur = some e :=
          (victim_congr rfl rfl rfl cur _).trans hv
        have hfree := killJob_frees hv₁ hr
        rw [← procs_setV0 v0 r] at hfree
        obtain ⟨cur₂, hcur₂, ho⟩ := hown.own _ hs e ⟨victim_live (hal.running cur hcur) hv, hfree⟩
        obtain rfl : cur = cur₂ := by simpa using hcur.symm.trans hcur₂
        rw [checkperm_of_owns he ho] at hnone
        cases hnone
      | _ => trivial
    | _ => trivial
  · intro hjob
    refine ⟨hjob.set, fun k' hs e hfrees => ?_⟩
    obtain ⟨hlive, hfree⟩ := hfrees
    obtain ⟨cur, c, v0, rfl, hcur, hv⟩ := moves_frees (step_moves hs) hlive hfree
    refine ⟨cur, hcur, ?_⟩
    unfold Syscall.victim at hv
    split at hv
    · exact owns_of_checkperm hid hv
    · exact owns_of_checkperm hid hv
    · rename_i jobId
      split at hv
      · cases hv
      · rename_i hn
        obtain ⟨i, hi, hrest⟩ := Option.bind_eq_some_iff.1 hv
        split at hrest
        · cases hrest
        · rename_i hflag
          obtain ⟨j, hj, hchecked⟩ := hjob cur hcur (Nat.not_lt.1 hn)
          obtain rfl : i = j := by simpa using hi.symm.trans hj
          obtain ⟨e', he'⟩ := Option.ne_none_iff_exists'.1 (hchecked hflag)
          obtain rfl : e = e' := by simpa using hrest.symm.trans (envid2env_unchecked he')
          exact owns_of_checkperm hid he'
    · cases hv

/-- An environment destroys its child. -/
theorem destroys_own_child : ∃ k k' : Kernel, Frees k k' 1 ∧
    DestroysOwn k (.syscall (.envDestroy 4097) 0) := by
  obtain ⟨k, hr, hk⟩ := exists_reachable [emptyProgram]
    [.tick, .exec stackFrame, .syscall .exofork 0, .syscall (.setEnvStatus 4097 1) 0]
    (fun k => decide ((k.envs 1).envStatus ≠ .free) &&
      (step k (.syscall (.envDestroy 4097) 0)).any (fun k' : Kernel => decide ((k'.envs 1).envStatus = .free)))
      (by decide +kernel)
  rw [Bool.and_eq_true, decide_eq_true_eq] at hk
  obtain ⟨k', hs, hfree⟩ := (Option.any_eq_true _ _).1 hk.2
  exact ⟨k, k', ⟨hk.1, of_decide_eq_true hfree⟩,
    (destroys_own_iff k hr _ (.inl (Option.isSome_iff_exists.2 ⟨k', hs⟩))).2 trivial⟩

/-- **An environment destroys another one that is not its child**: it makes a job of its id, and kills the job. -/
theorem destroys_own_fails : ¬∀ k, Reachable k → ∀ a k', step k a = some k' → ∀ e, Frees k k' e →
    ∃ cur, k.curenv = some cur ∧ Owns k cur e := by
  obtain ⟨k, hr, hk⟩ := exists_reachable [emptyProgram, emptyProgram]
    [.tick, .exec stackFrame, .syscall (.addJob 2048 []) 0]
    (fun k => decide (k.curenv = some 1 ∧ (k.envs 0).envStatus ≠ .free ∧ (k.envs 0).envParentId ≠ (k.envs 1).envId) &&
      (step k (.syscall (.killJob 1) 0)).any (fun k' : Kernel => decide ((k'.envs 0).envStatus = .free)))
      (by decide +kernel)
  rw [Bool.and_eq_true, decide_eq_true_eq] at hk
  obtain ⟨⟨hcur, hlive, hparent⟩, hk'⟩ := hk
  obtain ⟨k', hs, hfree⟩ := (Option.any_eq_true _ _).1 hk'
  intro hall
  obtain ⟨cur, hc, ho⟩ := hall k hr _ k' hs 0 ⟨hlive, of_decide_eq_true hfree⟩
  obtain rfl : 1 = cur := by simpa using hcur.symm.trans hc
  rcases ho with h | h
  · cases h
  · exact hparent h

end Mos
