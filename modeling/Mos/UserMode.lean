import Mos.Edits
/-!
# UserMode — what `RESTORE_ALL` loads into `cp0_status`

A return from an exception loads the status register from the frame below `KSTACKTOP`, and `env_pop_tf` from the
environment's own record.  `env_alloc` puts `STATUS_UM` in; `sys_set_trapframe` copies whatever its caller has in
memory.
-/
namespace Mos

def statusUm : Word := 0x10

/-- The context resumes in user mode. -/
def Trapframe.UserMode (tf : Trapframe) : Prop := tf.cp0Status &&& statusUm ≠ 0

instance (tf : Trapframe) : Decidable tf.UserMode := inferInstanceAs (Decidable (_ ≠ _))

/-- **Every context that can be restored resumes in user mode**: those in the environments, and the one of the
environment that runs. -/
structure UserMode (k : Kernel) : Prop where
  envs : ∀ e, (k.envs e).envStatus ≠ .free → (k.envs e).envTf.UserMode
  ktf : ∀ c, k.curenv = some c → k.ktf.UserMode

/-- A context that `sys_set_trapframe` copies has `STATUS_UM`. -/
def ContextSafe (k : Kernel) : Act → Prop
  | .syscall (.setTrapframe envid va tf) _ => ∀ cur e, k.curenv = some cur →
      isIllegalVaRange va (BitVec.ofNat 32 sizeofTrapframe) = false → envid2env k cur envid true = some e → tf.UserMode
  | _ => True

theorem userMode_of_status {tf : Trapframe} (h : tf.cp0Status = statusUser) : tf.UserMode := by
  unfold Trapframe.UserMode
  rw [h]
  decide

/-! ## Steps -/

/-- What the records have: a free one is not restored before `env_alloc` writes its context. -/
def LiveUserMode (_ : EnvIx) (v : Env) : Prop := v.envStatus ≠ .free → v.envTf.UserMode

theorem userMode_iff_held (k : Kernel) : UserMode k ↔ Held LiveUserMode Trapframe.UserMode k :=
  ⟨fun h => ⟨h.envs, h.ktf⟩, fun h => ⟨h.envs, h.ktf⟩⟩

theorem liveUserMode_alloc (e : EnvIx) (v v' : Env) (h : AllocEdit e v v') (hum : LiveUserMode e v) :
    LiveUserMode e v' := by
  cases h with
  | context asid parentId => exact fun _ => userMode_of_status rfl
  | _ => exact hum

theorem userMode_rule {k : Kernel} {a : Act} (hsafe : ContextSafe k a) :
    EditRule LiveUserMode Trapframe.UserMode k a where
  edit e v v' h hum := by
    cases h with
    | alloc _ h => exact liveUserMode_alloc e v v' h hum
    | fork tf pri htf => exact fun _ => htf
    | save tf htf => exact fun _ => htf
    | free => exact fun h => absurd rfl h
    | status st hlive => exact fun _ => hum hlive
    | recv dstva hlive => exact fun _ => hum hlive
    | deliver value src perm hlive _ => exact fun _ => hum hlive
    | _ => exact hum
  load e v hrun hum := hum (by rw [hrun]; simp)
  regs tf tf' hst htf := by
    unfold Trapframe.UserMode
    rw [hst]
    exact htf
  context envid va tf v0 cur e ha hcur hva he := by
    subst ha
    exact hsafe cur e hcur hva he

theorem userMode_step {k k' : Kernel} {a : Act} (hal : k.procs.Alive) (h : UserMode k) (hsafe : ContextSafe k a)
    (hs : step k a = some k') : UserMode k' :=
  (userMode_iff_held k').2 (((userMode_iff_held k).1 h).step hal (userMode_rule hsafe) hs)

/-- **A context without `STATUS_UM` is restored as it is.** -/
theorem contextSafe_of_userMode {k k' : Kernel} {a : Act} (hal : k.procs.Alive) (h : UserMode k')
    (hs : step k a = some k') : ContextSafe k a := by
  cases a with
  | syscall c v0 =>
    cases c with
    | setTrapframe envid va tf =>
      intro cur e hcur hva he
      obtain ⟨cur', hcur', hu⟩ := Option.bind_eq_some_iff.1 hs
      obtain rfl : cur = cur' := by simpa using hcur.symm.trans hcur'
      obtain ⟨pm, r, hr, rfl⟩ := doSyscall_cases hu
      have he₁ : envid2env ({ k with ktf := k.ktf.nextInstr }.setPm pm) cur envid true = some e := he
      simp only [syscallTable, sysSetTrapframe, hva, Bool.false_eq_true, if_false, he₁] at hr
      obtain ⟨k₁, h₁, hret⟩ := Option.bind_eq_some_iff.1 hr
      obtain ⟨pm₁, rfl⟩ := touchRange_eq h₁
      split at hret
      · rw [ret_eq hret] at h
        exact h.ktf cur hcur
      · rw [ret_eq hret] at h
        have hlive : (k.envs e).envStatus ≠ .free := envid2env_live (hal.running cur hcur) he
        have hum := h.envs e
        simp only [setV0, Kernel.setEnv_self] at hum
        exact hum hlive
    | _ => trivial
  | _ => trivial

/-! ## Runs -/

theorem booted_userMode {k : Kernel} (h : Booted k) : UserMode k :=
  (userMode_iff_held k).2 (booted_held (fun _ h => absurd rfl h) liveUserMode_alloc
    (fun _ _ _ _ _ htf _ _ => userMode_of_status htf) h)

/-- A check that implies `ContextSafe`. -/
def contextSafeB (_ : Kernel) : Act → Bool
  | .syscall (.setTrapframe _ _ tf) _ => decide tf.UserMode
  | _ => true

theorem contextSafe_of_contextSafeB (k : Kernel) (a : Act) (h : contextSafeB k a = true) : ContextSafe k a := by
  cases a with
  | syscall c v0 =>
    cases c with
    | setTrapframe envid va tf => exact fun _ _ _ _ _ => of_decide_eq_true h
    | _ => trivial
  | _ => trivial

/-- A context in user mode, with the stack pointer in the stack page. -/
def userFrame : Trapframe := { stackFrame with cp0Status := statusUser }

end Mos
