import Mos.SchedList
/-!
# Receiving — the receiving flag

`env_ipc_recving` says that an environment is blocked in `sys_ipc_recv`, and `sys_ipc_try_send` believes it.
`env_alloc` hands out a slot with the flag of its last environment, and `sys_set_env_status` wakes a blocked child
without clearing it.  The kernel is tracked here together with the set of environments that wait: those that called
`sys_ipc_recv` and have been blocked since.
-/
namespace Mos

/-- The kernel, and of every environment whether it called `sys_ipc_recv` and has been blocked in it since. -/
structure Tracked where
  kernel : Kernel
  waiting : EnvIx → Bool

/-- The step is `e`'s call of `sys_ipc_recv`, with an argument it accepts. -/
def receives (k : Kernel) (e : EnvIx) : Act → Bool
  | .syscall (.ipcRecv dstva) _ => decide (k.curenv = some e ∧ ¬(dstva ≠ 0 ∧ isIllegalVa dstva))
  | _ => false

namespace Tracked

def Booted (t : Tracked) : Prop := Mos.Booted t.kernel ∧ ∀ e, t.waiting e = false

def step (t : Tracked) (a : Act) : Option Tracked :=
  (Mos.step t.kernel a).map (fun k =>
    { kernel := k
      waiting := fun e => decide ((k.envs e).envStatus = .notRunnable) && (t.waiting e || receives t.kernel e a) })

/-- **A flag that is set belongs to an environment that waits**, and is not in the scheduler's list. -/
def FlagExact (t : Tracked) : Prop :=
  ∀ e, (t.kernel.envs e).envStatus ≠ .free → (t.kernel.envs e).envIpcRecving ≠ 0 →
    t.waiting e = true ∧ (t.kernel.envs e).envStatus = .notRunnable ∧
      ∃ xs, t.kernel.sched.Links xs ∧ e ∉ xs

/-- **What a send would wake waits**, and is not in the scheduler's list. -/
def SendExact (t : Tracked) : Prop :=
  ∀ cur e envid, t.kernel.curenv = some cur → envid2env t.kernel cur envid false = some e →
    (t.kernel.envs e).envIpcRecving ≠ 0 → t.waiting e = true ∧ ∃ xs, t.kernel.sched.Links xs ∧ e ∉ xs

/-- **Slots that `env_alloc` hands out have no flag left, no call wakes a flagged environment but a send, and removals
are safe.** -/
def RecvSafe (t : Tracked) : Act → Prop
  | .syscall .exofork _ => ∀ e ∈ t.kernel.envFreeList.head?, (t.kernel.envs e).envIpcRecving = 0
  | .syscall (.setEnvStatus envid status) _ =>
    ∀ cur e, t.kernel.curenv = some cur → envid2env t.kernel cur envid true = some e →
      statusOfWord status = some .runnable → (t.kernel.envs e).envIpcRecving = 0
  | .syscall (.ipcTrySend ..) _ => True
  | a => ListSafe t.kernel a

/-- What holds between two steps. -/
structure Inv (t : Tracked) : Prop where
  procs : t.kernel.procs.Wf
  flag : ∀ e, t.kernel.procs.status e ≠ .free → t.kernel.procs.recving e = true →
    t.waiting e = true ∧ t.kernel.procs.status e = .notRunnable

theorem flagExact_of_inv {t : Tracked} (h : t.Inv) : t.FlagExact := by
  intro e hlive hr
  obtain ⟨hw, hst⟩ := h.flag e hlive (by simpa [Kernel.procs] using hr)
  obtain ⟨xs, hl, hm⟩ := h.procs.exact
  refine ⟨hw, hst, xs, hl, fun he => ?_⟩
  rw [hm e, hst] at he
  cases he

theorem sendExact_of_inv {t : Tracked} (h : t.Inv) : t.SendExact := by
  intro cur e envid hc hid hr
  obtain ⟨hw, -, hout⟩ := flagExact_of_inv h e (envid2env_live (h.procs.running cur hc) hid) hr
  exact ⟨hw, hout⟩

theorem listSafe_of_recvSafe {t : Tracked} {a : Act} (h : t.Inv) (hs : t.RecvSafe a) : ListSafe t.kernel a := by
  cases a with
  | syscall c v0 =>
    cases c with
    | exofork => intro cur e hc hv; cases hv
    | setEnvStatus envid status => intro cur e hc hv; cases hv
    | ipcTrySend envid value srcva perm =>
      intro _ cur e hc hid hr
      rw [(h.flag e (envid2env_live (h.procs.running cur hc) hid) hr).2]
      simp
    | _ => exact hs
  | _ => exact hs

/-! ## Flags and moves -/

theorem picks_flags {p p' : Procs} (h : p.Picks p') : p'.status = p.status ∧ p'.recving = p.recving := by
  cases h <;> exact ⟨rfl, rfl⟩

theorem destroys_flags {p p' : Procs} {e : EnvIx} (h : p.Destroys e p') :
    p'.status = (p.setStatus e .free).status ∧ p'.recving = p.recving := by
  cases h with
  | other q hq hr => exact ⟨rfl, rfl⟩
  | self q _ hq hr hp =>
    obtain ⟨hst, hre⟩ := picks_flags hp
    exact ⟨hst, hre⟩

/-- **What a step does to a flagged environment**: it was flagged before and keeps its status, or it is the one that
now receives. -/
theorem flag_of_moves {t : Tracked} {a : Act} {p : Procs} (h : t.Inv) (hs : t.RecvSafe a) (hm : Moves t.kernel a p)
    {e : EnvIx} (hlive : p.status e ≠ .free) (hr : p.recving e = true) :
    p.status e = .notRunnable ∧ (t.waiting e = true ∨ receives t.kernel e a = true) := by
  have hold : p.status e = t.kernel.procs.status e → p.recving e = t.kernel.procs.recving e →
      p.status e = .notRunnable ∧ (t.waiting e = true ∨ receives t.kernel e a = true) := by
    intro hst hre
    obtain ⟨hw, hn⟩ := h.flag e (hst ▸ hlive) (hre ▸ hr)
    exact ⟨hst.trans hn, .inl hw⟩
  cases hm with
  | quiet => exact hold rfl rfl
  | tick _ hp =>
    obtain ⟨hst, hre⟩ := picks_flags hp
    exact hold (congrFun hst e) (congrFun hre e)
  | yield _ _ hp =>
    obtain ⟨hst, hre⟩ := picks_flags hp
    exact hold (congrFun hst e) (congrFun hre e)
  | destroy cur d c v0 _ hc hv hd =>
    obtain ⟨hst, hre⟩ := destroys_flags hd
    have hed : e ≠ d := by
      intro hed
      rw [hst, Procs.setStatus_status, if_pos hed] at hlive
      exact hlive rfl
    refine hold ?_ (congrFun hre e)
    rw [hst, Procs.setStatus_status, if_neg hed]
  | exofork cur d rest v0 hc hf =>
    by_cases hed : e = d
    · have hclear := hs d (by show d ∈ t.kernel.procs.free.head?; simp [hf])
      have hflag : t.kernel.procs.recving e = true := hr
      simp [hed, Kernel.procs, hclear] at hflag
    · refine hold ?_ rfl
      rw [Procs.setStatus_status, if_neg hed]
  | setStatus cur d envid status v0 st q hc hid hst hq =>
    by_cases hed : e = d
    · subst hed
      have hflag : t.kernel.procs.recving e = true := hr
      cases st with
      | free => exact absurd rfl (statusOfWord_ne_free hst)
      | runnable =>
        have hclear := hs cur e hc hid hst
        simp [Kernel.procs, hclear] at hflag
      | notRunnable =>
        have hd := envid2env_live (h.procs.running cur hc) hid
        refine ⟨by rw [Procs.setStatus_status, if_pos rfl], .inl (h.flag e hd hflag).1⟩
    · refine hold ?_ rfl
      rw [Procs.setStatus_status, if_neg hed]
  | recv cur dstva v0 q _ hc hva hq hp =>
    obtain ⟨hst, hre⟩ := picks_flags hp
    have hstatus : p.status e = ({ t.kernel.procs with queue := q }.setStatus cur .notRunnable).status e :=
      congrFun hst e
    by_cases hec : e = cur
    · refine ⟨by rw [hstatus, Procs.setStatus_status, if_pos hec], .inr ?_⟩
      simp only [receives, decide_eq_true_eq]
      exact ⟨hec ▸ hc, hva⟩
    · refine hold ?_ ?_
      · rw [hstatus, Procs.setStatus_status, if_neg hec]
      · rw [congrFun hre e]
        simp [Procs.setRecving, Procs.setStatus, Function.update_of_ne hec]
  | send cur d envid value srcva perm v0 q hc hva hid hrecv hq =>
    by_cases hed : e = d
    · simp [Procs.setRecving, hed] at hr
    · refine hold ?_ ?_
      · show ({ t.kernel.procs with queue := q }.setStatus d .runnable).status e = _
        rw [Procs.setStatus_status, if_neg hed]
      · simp [Procs.setRecving, Procs.setStatus, Function.update_of_ne hed]

/-! ## Runs -/

theorem booted_recving {k : Kernel} (h : Mos.Booted k) : ∀ e, k.procs.recving e = false :=
  booted_procs (fun p => ∀ e, p.recving e = false) (fun _ => rfl) (fun _ _ _ hp _ => hp) h

theorem inv_booted (t : Tracked) (h : t.Booted) : t.Inv := by
  refine ⟨booted_wf h.1, fun e _ hr => ?_⟩
  rw [booted_recving h.1 e] at hr
  cases hr

theorem inv_step (t : Tracked) (a : Act) (t' : Tracked) (h : t.Inv) (hs : t.RecvSafe a) (hstep : t.step a = some t') :
    t'.Inv := by
  obtain ⟨k', hk', rfl⟩ := Option.map_eq_some_iff.1 hstep
  have hm := step_moves hk'
  refine ⟨wf_of_moves h.procs (listSafe_of_recvSafe h hs) hm, fun e hlive hr => ?_⟩
  obtain ⟨hst, hw⟩ := flag_of_moves h hs hm hlive hr
  refine ⟨?_, hst⟩
  have hn : (k'.envs e).envStatus = .notRunnable := hst
  simp only [hn, decide_true, Bool.true_and, Bool.or_eq_true]
  exact hw

/-- **The receiving flag means waiting** in every state of every run that meets `RecvSafe`, and what a send would wake
waits outside the scheduler's list. -/
theorem recving_exact (t : Tracked) (h : Run Booted step RecvSafe t) : t.FlagExact ∧ t.SendExact := by
  have hinv := Run.invariant Inv inv_booted inv_step t h
  exact ⟨flagExact_of_inv hinv, sendExact_of_inv hinv⟩

/-- The small machine, nobody waiting. -/
def small (programs : List Program) : Option Tracked :=
  (mipsInit smallBoard programs).map (fun k => { kernel := k, waiting := fun _ => false })

theorem booted_small {programs : List Program} (t : Tracked) (h : small programs = some t) : t.Booted := by
  obtain ⟨k, hk, rfl⟩ := Option.map_eq_some_iff.1 h
  exact ⟨⟨smallBoard, programs, hk⟩, fun _ => rfl⟩

/-- A check that implies `RecvSafe`, for steps of a runnable environment that destroy nothing. -/
def recvSafeB (t : Tracked) : Act → Bool
  | .syscall .exofork _ => t.kernel.envFreeList.head?.all (fun e => decide ((t.kernel.envs e).envIpcRecving = 0))
  | .syscall (.setEnvStatus envid _) _ =>
    t.kernel.curenv.all (fun cur => (envid2env t.kernel cur envid true).all (fun e =>
      decide ((t.kernel.envs e).envIpcRecving = 0)))
  | .syscall (.ipcTrySend ..) _ => true
  | a => listSafeB t.kernel a

theorem recvSafe_of_recvSafeB (t : Tracked) (a : Act) (h : t.recvSafeB a = true) : t.RecvSafe a := by
  cases a with
  | syscall c v0 =>
    cases c with
    | exofork =>
      intro e he
      have hhead : t.kernel.envFreeList.head? = some e := he
      simpa [recvSafeB, hhead] using h
    | setEnvStatus envid status =>
      intro cur e hc hid _
      simpa [recvSafeB, hc, hid] using h
    | ipcTrySend envid value srcva perm => trivial
    | yield => exact listSafe_of_listSafeB t.kernel (.syscall .yield v0) h
    | ipcRecv dstva => exact listSafe_of_listSafeB t.kernel (.syscall (.ipcRecv dstva) v0) h
    | _ => cases h
  | tick => exact listSafe_of_listSafeB t.kernel .tick h
  | exec tf => trivial
  | _ => cases h

/-- A child receives, its parent sends to it. -/
theorem recving_exact_child : ∃ t : Tracked, (t.kernel.envs 1).envIpcValue = 7 ∧ t.FlagExact ∧ t.SendExact := by
  obtain ⟨t, hr, ht⟩ := @Run.exists_of_exec Tracked Act Booted step RecvSafe recvSafeB recvSafe_of_recvSafeB
    [.tick, .exec stackFrame, .syscall .exofork 0, .syscall (.setEnvStatus 4097 1) 0, .syscall .yield 0,
      .syscall (.ipcRecv 0) 0, .syscall (.ipcTrySend 4097 7 0 0) 0]
    (small [emptyProgram]) booted_small (fun t => decide ((t.kernel.envs 1).envIpcValue = 7)) (by decide +kernel)
  exact ⟨t, of_decide_eq_true ht, recving_exact t hr⟩

/-- **A reused slot has the flag of its last environment**: the new environment never called `sys_ipc_recv`. -/
theorem recving_exact_fails : ¬∀ t, Reach Booted step t → t.FlagExact ∧ t.SendExact := by
  obtain ⟨t, hr, ht⟩ := @Run.exists_of_exec Tracked Act Booted step (fun _ _ => True) (fun _ _ => true)
    (fun _ _ _ => trivial)
    [.tick, .exec stackFrame, .syscall .exofork 0, .syscall (.setEnvStatus 4097 1) 0, .syscall .yield 0,
      .syscall (.ipcRecv 0) 0, .syscall (.envDestroy 4097) 0, .syscall .exofork 0]
    (small [emptyProgram]) booted_small
    (fun t => decide ((t.kernel.envs 1).envStatus = .notRunnable ∧ (t.kernel.envs 1).envIpcRecving = 1 ∧
      t.waiting 1 = false)) (by decide +kernel)
  obtain ⟨hst, hre, hw⟩ := of_decide_eq_true ht
  intro hall
  obtain ⟨hwait, -⟩ := (hall t hr).1 1 (by simp [hst]) (by simp [hre])
  rw [hw] at hwait
  cases hwait

end Tracked

end Mos
