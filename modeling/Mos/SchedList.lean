import Mos.Alive
/-!
# SchedList — the scheduler's list is the runnable environments

`kern/env.c` says of `env_sched_list` that an environment is in it iff it is runnable.  `env_free`, `schedule` and
`sys_ipc_recv` take an environment out without asking whether it is in, so what they write depends on the links it was
left with.  `RemoveSafe` is the condition under which they take out the right one, `ListSafe` asks it of a step, and
`exact_of_run` is the invariant over every run of such steps.
-/
namespace Mos

namespace Procs

/-- **The list is exactly the runnable environments**, each once, and its links agree in both directions. -/
def Exact (p : Procs) : Prop := ∃ xs, p.queue.Links xs ∧ ∀ e, e ∈ xs ↔ p.status e = .runnable

/-- What holds of the process table between two steps. -/
structure Wf (p : Procs) : Prop extends p.Alive where
  exact : p.Exact

/-- **Taking `e` out of the list takes out nothing else**: it is in the list, or the links it was left with are
inert. -/
def RemoveSafe (p : Procs) (e : EnvIx) : Prop :=
  p.status e = .runnable ∨ p.queue.Inert (fun x => p.status x = .runnable) e

/-! ## Taking out and putting in -/

/-- **A removal from outside the list leaves it as it is exactly when it is safe.** -/
theorem removeSafe_iff {p : Procs} {e : EnvIx} {q : Tailq EnvIx} {xs : List EnvIx} (hl : p.queue.Links xs)
    (hm : ∀ x, x ∈ xs ↔ p.status x = .runnable) (hr : p.status e ≠ .runnable) (hq : p.queue.remove e = some q) :
    p.RemoveSafe e ↔ q.Links xs := by
  constructor
  · intro hs
    obtain ⟨q', hq', hl'⟩ := Tailq.remove_of_inert hl ((hs.resolve_left hr).congr (fun x => (hm x).symm))
    obtain rfl : q' = q := by simpa using hq'.symm.trans hq
    exact hl'
  · intro hl'
    exact .inr ((Tailq.inert_of_keeps hl hq hl').congr hm)

/-- **A safe removal leaves the other runnable environments.** -/
theorem remove_exact {p : Procs} {e : EnvIx} {q : Tailq EnvIx} (h : p.Exact) (hs : p.RemoveSafe e)
    (hq : p.queue.remove e = some q) : ∃ xs, q.Links xs ∧ ∀ x, x ∈ xs ↔ p.status x = .runnable ∧ x ≠ e := by
  obtain ⟨xs, hl, hm⟩ := h
  by_cases hr : p.status e = .runnable
  · obtain ⟨q', hq', hl'⟩ := Tailq.remove_links hl ((hm e).2 hr)
    obtain rfl : q' = q := by simpa using hq'.symm.trans hq
    refine ⟨_, hl', fun x => ?_⟩
    rw [hl.1.mem_erase_iff, hm x, and_comm]
  · refine ⟨xs, (removeSafe_iff hl hm hr hq).1 hs, fun x => ?_⟩
    rw [hm x]
    exact ⟨fun hx => ⟨hx, fun hxe => hr (hxe ▸ hx)⟩, fun hx => hx.1⟩

theorem insertTail_exact {q q' : Tailq EnvIx} {st : EnvIx → EnvStatus} {e : EnvIx}
    (h : ∃ xs, q.Links xs ∧ ∀ x, x ∈ xs ↔ st x = .runnable ∧ x ≠ e) (hq : q.insertTail e = some q') :
    ∃ xs, q'.Links xs ∧ ∀ x, x ∈ xs ↔ st x = .runnable ∨ x = e := by
  obtain ⟨xs, hl, hm⟩ := h
  obtain ⟨q'', hq'', hl'⟩ := Tailq.insertTail_links hl (fun hx => ((hm e).1 hx).2 rfl)
  obtain rfl : q'' = q' := by simpa using hq''.symm.trans hq
  refine ⟨_, hl', fun x => ?_⟩
  rw [List.mem_append, hm x, List.mem_singleton]
  by_cases hx : x = e <;> simp [hx]

/-! ## Scheduling -/

theorem requeue_exact {p : Procs} {q : Tailq EnvIx} (h : p.Exact) (hs : ∀ e, p.running = some e → p.RemoveSafe e)
    (hq : p.requeue = some q) : { p with queue := q }.Exact := by
  unfold requeue at hq
  cases hr : p.running with
  | none =>
    rw [hr] at hq
    cases hq
    exact h
  | some e =>
    rw [hr] at hq
    obtain ⟨q₁, hq₁, hrest⟩ := Option.bind_eq_some_iff.1 hq
    have hout := remove_exact h (hs e hr) hq₁
    split at hrest
    · rename_i hrun
      obtain ⟨xs, hl, hm⟩ := insertTail_exact hout hrest
      refine ⟨xs, hl, fun x => ?_⟩
      rw [hm x]
      exact ⟨fun hx => hx.elim id (fun hx => hx ▸ hrun), .inl⟩
    · rename_i hrun
      cases hrest
      obtain ⟨xs, hl, hm⟩ := hout
      refine ⟨xs, hl, fun x => ?_⟩
      rw [hm x]
      exact ⟨And.left, fun hx => ⟨hx, fun hxe => hrun (hxe ▸ hx)⟩⟩

/-- **`schedule` keeps the list exact.** -/
theorem picks_exact {p p' : Procs} (h : p.Exact) (hs : ∀ e, p.running = some e → p.RemoveSafe e) (hp : p.Picks p') :
    p'.Exact := by
  cases hp with
  | stay e hr hrun => exact h
  | switch q e hq hf hrun => exact requeue_exact h hs hq

/-- **`env_destroy` keeps the list exact.** -/
theorem destroys_exact {p p' : Procs} {e : EnvIx} (h : p.Exact) (hs : p.RemoveSafe e) (hd : p.Destroys e p') :
    p'.Exact := by
  have hfreed : ∀ q, p.queue.remove e = some q → (p.freed e q).Exact := by
    intro q hq
    obtain ⟨xs, hl, hm⟩ := remove_exact h hs hq
    refine ⟨xs, hl, fun x => ?_⟩
    show _ ↔ (p.setStatus e .free).status x = .runnable
    rw [hm x, setStatus_status]
    by_cases hx : x = e <;> simp [hx]
  cases hd with
  | other q hq hr => exact hfreed q hq
  | self q _ hq hr hpick =>
    have hex := hfreed q hq
    exact @picks_exact { p.freed e q with running := none } p' hex (fun x hx => by cases hx) hpick

/-- An environment that is not in the list changes between the states outside it. -/
theorem exact_setStatus {p : Procs} {e : EnvIx} {st : EnvStatus} (h : p.Exact) (hout : p.status e ≠ .runnable)
    (hst : st ≠ .runnable) : (p.setStatus e st).Exact := by
  obtain ⟨xs, hl, hm⟩ := h
  refine ⟨xs, hl, fun x => ?_⟩
  rw [hm x, setStatus_status]
  split
  · rename_i hx
    simp [hx, hout, hst]
  · rfl

theorem setStatus_exact {p : Procs} {e : EnvIx} {st : EnvStatus} {q : Tailq EnvIx} (h : p.Exact)
    (hlive : p.status e ≠ .free) (hst : st ≠ .free)
    (hq : (if p.status e ≠ st then relink p.queue e st else some p.queue) = some q) :
    ({ p with queue := q }.setStatus e st).Exact := by
  obtain ⟨xs, hl, hm⟩ := id h
  split at hq
  · rename_i hne
    cases st with
    | free => exact absurd rfl hst
    | runnable =>
      have hout : ∃ xs, p.queue.Links xs ∧ ∀ x, x ∈ xs ↔ p.status x = .runnable ∧ x ≠ e :=
        ⟨xs, hl, fun x => by rw [hm x]; exact ⟨fun hx => ⟨hx, fun hxe => hne (hxe ▸ hx)⟩, And.left⟩⟩
      obtain ⟨ys, hl', hm'⟩ := insertTail_exact hout hq
      refine ⟨ys, hl', fun x => ?_⟩
      rw [hm' x, setStatus_status]
      by_cases hx : x = e <;> simp [hx]
    | notRunnable =>
      have hrun : p.status e = .runnable := by
        cases hc : p.status e with
        | free => exact absurd hc hlive
        | runnable => rfl
        | notRunnable => exact absurd hc hne
      obtain ⟨ys, hl', hm'⟩ := remove_exact h (.inl hrun) hq
      refine ⟨ys, hl', fun x => ?_⟩
      rw [hm' x, setStatus_status]
      by_cases hx : x = e <;> simp [hx]
  · rename_i heq
    cases hq
    refine ⟨xs, hl, fun x => ?_⟩
    rw [hm x, setStatus_status]
    split
    · rename_i hx
      rw [hx, not_not.1 heq]
    · rfl

/-- **`sys_ipc_recv` keeps the list exact**: the removal in `schedule` repeats the one before it. -/
theorem recv_exact {p p' : Procs} {cur : EnvIx} {q : Tailq EnvIx} (h : p.Exact) (hr : p.running = some cur)
    (hs : p.RemoveSafe cur) (hq : p.queue.remove cur = some q)
    (hp : Picks (({ p with queue := q }.setStatus cur .notRunnable).setRecving cur true) p') : p'.Exact := by
  obtain ⟨xs, hl, hm⟩ := remove_exact h hs hq
  refine @picks_exact (({ p with queue := q }.setStatus cur .notRunnable).setRecving cur true) p'
    ⟨xs, hl, fun x => ?_⟩ ?_ hp
  · show _ ↔ ({ p with queue := q }.setStatus cur .notRunnable).status x = .runnable
    rw [hm x, setStatus_status]
    by_cases hx : x = cur <;> simp [hx]
  · intro x hx
    obtain rfl : cur = x := by simpa using hr.symm.trans hx
    exact .inr (Tailq.inert_of_remove _ hq)

end Procs

/-! ## Runs -/

/-- **What a step takes out of the list, it takes out safely, and what a send puts in is not in.** -/
def ListSafe (k : Kernel) : Act → Prop
  | .tick => ∀ cur, k.curenv = some cur → k.procs.RemoveSafe cur
  | .syscall .yield _ => ∀ cur, k.curenv = some cur → k.procs.RemoveSafe cur
  | .syscall (.ipcRecv dstva) _ =>
    ¬(dstva ≠ 0 ∧ isIllegalVa dstva) → ∀ cur, k.curenv = some cur → k.procs.RemoveSafe cur
  | .syscall (.ipcTrySend envid _ srcva _) _ =>
    ¬(srcva ≠ 0 ∧ isIllegalVa srcva) → ∀ cur e, k.curenv = some cur → envid2env k cur envid false = some e →
      k.procs.recving e = true → k.procs.status e ≠ .runnable
  | .syscall c _ => ∀ cur e, k.curenv = some cur → c.victim k cur = some e → k.procs.RemoveSafe e
  | _ => True

/-- **A step that meets `ListSafe` keeps the list exact.** -/
theorem exact_of_moves {k : Kernel} {a : Act} {p : Procs} (h : k.procs.Wf) (hs : ListSafe k a) (hm : Moves k a p) :
    p.Exact := by
  cases hm with
  | quiet => exact h.exact
  | tick _ hp => exact Procs.picks_exact h.exact hs hp
  | yield _ _ hp => exact Procs.picks_exact h.exact hs hp
  | destroy cur e c v0 _ hc hv hd =>
    have hsafe : k.procs.RemoveSafe e := by
      cases c <;> first | cases hv | exact hs cur e hc hv
    exact Procs.destroys_exact h.exact hsafe hd
  | exofork cur e rest v0 hc hf =>
    have he : k.procs.status e = .free := h.free e (by simp [hf])
    exact @Procs.exact_setStatus { k.procs with free := rest } e _ h.exact (by simp [he]) (by simp)
  | setStatus cur e envid status v0 st q hc hid hst hq =>
    exact Procs.setStatus_exact h.exact (envid2env_live (h.running cur hc) hid) (statusOfWord_ne_free hst) hq
  | recv cur dstva v0 q _ hc hva hq hp => exact Procs.recv_exact h.exact hc (hs hva cur hc) hq hp
  | send cur e envid value srcva perm v0 q hc hva hid hr hq =>
    have hout := hs hva cur e hc hid hr
    have hrelink : (if k.procs.status e ≠ .runnable then relink k.procs.queue e .runnable else some k.procs.queue) =
        some q := by
      rw [if_pos hout]
      exact hq
    exact Procs.setStatus_exact h.exact (envid2env_live (h.running cur hc) hid) (by simp) hrelink

theorem wf_of_moves {k : Kernel} {a : Act} {p : Procs} (h : k.procs.Wf) (hs : ListSafe k a) (hm : Moves k a p) :
    p.Wf :=
  ⟨alive_of_moves h.toAlive hm, exact_of_moves h hs hm⟩

/-- **Boot leaves an exact list.** -/
theorem booted_wf {k : Kernel} (h : Booted k) : k.procs.Wf := by
  refine ⟨booted_alive h, (booted_procs (fun p => p.Alive ∧ p.Exact) ?_ ?_ h).2⟩
  · exact ⟨alive_init _, [], Tailq.links_init _, by simp⟩
  · rintro p e rest ⟨hal, xs, hl, hm⟩ hf
    have he : p.status e = .free := hal.free e (by simp [hf])
    have hnot : e ∉ xs := fun hx => by have := (hm e).1 hx; simp [he] at this
    refine ⟨alive_create hal hf, e :: xs, Tailq.insertHead_links hl hnot, fun x => ?_⟩
    show _ ↔ (p.setStatus e .runnable).status x = .runnable
    rw [List.mem_cons, hm x, Procs.setStatus_status]
    by_cases hx : x = e <;> simp [hx]

theorem wf_of_run {k : Kernel} (h : Run Booted step ListSafe k) : k.procs.Wf :=
  Run.invariant (fun k => k.procs.Wf) (fun _ => booted_wf)
    (fun _ _ _ hw hs hstep => wf_of_moves hw hs (step_moves hstep)) k h

/-- **The scheduler's list is exactly the runnable environments** in every state of every run whose steps take
environments out of the list safely. -/
theorem sched_list_exact (k : Kernel) (h : Run Booted step ListSafe k) : k.procs.Exact :=
  (wf_of_run h).exact

/-- A check that implies `ListSafe`, for steps of a runnable environment that destroy and send nothing. -/
def listSafeB (k : Kernel) : Act → Bool
  | .tick | .syscall .yield _ | .syscall (.ipcRecv _) _ =>
    k.curenv.all (fun cur => decide ((k.envs cur).envStatus = .runnable))
  | .exec _ | .syscall .exofork _ | .syscall (.setEnvStatus ..) _ => true
  | _ => false

theorem listSafe_of_listSafeB (k : Kernel) (a : Act) (h : listSafeB k a = true) : ListSafe k a := by
  have hcur : k.curenv.all (fun cur => decide ((k.envs cur).envStatus = .runnable)) = true →
      ∀ cur, k.curenv = some cur → k.procs.RemoveSafe cur := by
    intro hall cur hc
    rw [hc] at hall
    exact .inl (of_decide_eq_true hall)
  cases a with
  | tick => exact hcur h
  | exec tf => trivial
  | syscall c v0 =>
    cases c with
    | yield => exact hcur h
    | ipcRecv dstva => exact fun _ => hcur h
    | exofork => intro cur e hc hv; cases hv
    | setEnvStatus envid status => intro cur e hc hv; cases hv
    | _ => cases h
  | _ => cases h

/-- An environment makes a child runnable, yields to it, and the child blocks. -/
theorem sched_list_exact_child :
    ∃ k : Kernel, (k.curenv = some 0 ∧ (k.envs 1).envStatus = .notRunnable) ∧ k.procs.Exact := by
  obtain ⟨k, hr, hk⟩ := exists_run listSafe_of_listSafeB [emptyProgram]
    [.tick, .exec stackFrame, .syscall .exofork 0, .syscall (.setEnvStatus 4097 1) 0, .syscall .yield 0,
      .syscall (.ipcRecv 0) 0]
    (fun k => decide (k.curenv = some 0 ∧ (k.envs 1).envStatus = .notRunnable)) (by decide +kernel)
  exact ⟨k, of_decide_eq_true hk, sched_list_exact k hr⟩

/-- **The list is not exact in every reachable state**: two children block one after the other, and destroying the first
links the second in again. -/
theorem sched_list_exact_fails : ¬∀ k, Reachable k → k.procs.Exact := by
  obtain ⟨k, hr, hk⟩ := exists_reachable [emptyProgram]
    [.tick, .exec stackFrame, .syscall .exofork 0, .syscall .exofork 0, .syscall (.setEnvStatus 4097 1) 0,
      .syscall (.setEnvStatus 6146 1) 0, .syscall .yield 0, .syscall (.ipcRecv 0) 0, .syscall (.ipcRecv 0) 0,
      .syscall (.envDestroy 4097) 0]
    (fun k => decide (k.sched.first = some 2 ∧ (k.envs 2).envStatus = .notRunnable)) (by decide +kernel)
  obtain ⟨hfirst, hstatus⟩ := of_decide_eq_true hk
  intro hall
  obtain ⟨xs, hl, hm⟩ := hall k hr
  have hrun : (k.envs 2).envStatus = .runnable := (hm 2).1 (hl.mem_of_first hfirst)
  rw [hstatus] at hrun
  cases hrun

end Mos
