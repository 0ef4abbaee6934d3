import Mos.Insert
import Mos.Procs
/-!
# FailedSend — what a failing send leaves behind

`sys_ipc_try_send` wakes the receiver and hands over the value before it looks for the page to send and before it maps
it.  A send that fails at its first three checks leaves everything alone; one that fails at the last two has delivered.
`LateFailure` says of the state before the call when these two can fail, for any state of the page tables.
-/
namespace Mos

/-! ## The send -/

/-- **Nothing was delivered**: the records of all environments, the scheduler's list, the page tables and the
reference counts are as before. -/
structure Undelivered (k k' : Kernel) : Prop where
  value : ∀ e, (k'.envs e).envIpcValue = (k.envs e).envIpcValue
  from_ : ∀ e, (k'.envs e).envIpcFrom = (k.envs e).envIpcFrom
  perm : ∀ e, (k'.envs e).envIpcPerm = (k.envs e).envIpcPerm
  recving : ∀ e, (k'.envs e).envIpcRecving = (k.envs e).envIpcRecving
  status : ∀ e, (k'.envs e).envStatus = (k.envs e).envStatus
  sched : k'.sched = k.sched
  mem : k'.pm.mem = k.pm.mem
  ppRef : k'.pm.ppRef = k.pm.ppRef
  freeList : k'.pm.pageFreeList = k.pm.pageFreeList

/-- **The send fails after it has delivered**: it gets to a receiver with a page to send, but the page is not there or
cannot be mapped. -/
def LateFailure (k : Kernel) (cur : EnvIx) (envid srcva : Word) : Prop :=
  srcva ≠ 0 ∧ isIllegalVa srcva = false ∧ ∃ e, envid2env k cur envid false = some e ∧ (k.envs e).envIpcRecving ≠ 0 ∧
    k.sched.last ≠ none ∧
    (pageLookup k.pm (k.envs cur).envPgdir srcva = some none ∨
      ∃ pp pte, pageLookup k.pm (k.envs cur).envPgdir srcva = some (some (pp, pte)) ∧
        NoTable k.pm (k.envs e).envPgdir (k.envs e).envIpcDstva pp)

theorem undelivered_refl (k : Kernel) : Undelivered k k :=
  ⟨fun _ => rfl, fun _ => rfl, fun _ => rfl, fun _ => rfl, fun _ => rfl, rfl, rfl, rfl, rfl⟩

theorem insertTail_last {q q' : Tailq EnvIx} {e : EnvIx} (h : q.insertTail e = some q') : q.last ≠ none := by
  intro hn
  simp only [Tailq.insertTail, hn] at h
  cases h

theorem insertTail_of_last {q : Tailq EnvIx} (e : EnvIx) (h : q.last ≠ none) : ∃ q', q.insertTail e = some q' := by
  obtain ⟨c, hc⟩ := Option.ne_none_iff_exists'.1 h
  refine Option.ne_none_iff_exists'.1 ?_
  simp [Tailq.insertTail, hc]

/-- The states in which the send looks for its page: the receiver is woken. -/
def woken (k : Kernel) (cur e : EnvIx) (value perm : Word) (q : Tailq EnvIx) : Kernel :=
  (k.setEnv e (fun v => v.deliver value (k.envs cur).envId perm)).setSched q

theorem woken_field {α : Type} (k : Kernel) (cur e x : EnvIx) (value perm : Word) (q : Tailq EnvIx) {f : Env → α}
    (hf : ∀ v, f (v.deliver value (k.envs cur).envId perm) = f v) :
    f ((woken k cur e value perm q).envs x) = f (k.envs x) :=
  @Kernel.setEnv_field α f k e x (fun v => v.deliver value (k.envs cur).envId perm) (hf _)

/-- A send to a receiver with a page to send: `page_lookup` in the sender, `page_insert` in the receiver. -/
theorem send_page {k : Kernel} {cur e : EnvIx} {envid value srcva perm : Word} (h0 : srcva ≠ 0)
    (hva : isIllegalVa srcva = false) (hid : envid2env k cur envid false = some e)
    (hr : (k.envs e).envIpcRecving ≠ 0) : sysIpcTrySend k cur envid value srcva perm =
      (k.sched.insertTail e).bind (fun q => (pageLookup k.pm (k.envs cur).envPgdir srcva).bind (fun l =>
        match l with
        | none => ret (-eInval) (woken k cur e value perm q)
        | some (pp, _) =>
          (pageInsert k.pm (k.envs e).envPgdir (k.envs e).envAsid pp (k.envs e).envIpcDstva perm).bind (fun r =>
            ret r.1 ((woken k cur e value perm q).setPm r.2)))) := by
  have hva' : ¬(srcva ≠ 0 ∧ isIllegalVa srcva = true) := by simp [hva]
  unfold sysIpcTrySend
  rw [if_neg hva', hid]
  dsimp only
  rw [if_neg hr]
  refine congrArg (Option.bind (k.sched.insertTail e)) (funext (fun q => ?_))
  rw [if_neg h0]
  have hpg : ∀ x, ((woken k cur e value perm q).envs x).envPgdir = (k.envs x).envPgdir :=
    fun x => woken_field k cur e x value perm q (fun _ => rfl)
  have has : ∀ x, ((woken k cur e value perm q).envs x).envAsid = (k.envs x).envAsid :=
    fun x => woken_field k cur e x value perm q (fun _ => rfl)
  have hdv : ∀ x, ((woken k cur e value perm q).envs x).envIpcDstva = (k.envs x).envIpcDstva :=
    fun x => woken_field k cur e x value perm q (fun _ => rfl)
  show (pageLookup k.pm ((woken k cur e value perm q).envs cur).envPgdir srcva).bind _ = _
  rw [hpg]
  refine congrArg _ (funext (fun l => ?_))
  cases l with
  | none => rfl
  | some l =>
    show (pageInsert k.pm ((woken k cur e value perm q).envs e).envPgdir ((woken k cur e value perm q).envs e).envAsid
      l.1 ((woken k cur e value perm q).envs e).envIpcDstva perm).bind _ = _
    rw [hpg, has, hdv]
    rfl

/-- The send gets past its three checks: it is to deliver to `e`. -/
def Reaches (k : Kernel) (cur : EnvIx) (envid srcva : Word) (e : EnvIx) : Prop :=
  (srcva = 0 ∨ isIllegalVa srcva = false) ∧ envid2env k cur envid false = some e ∧ (k.envs e).envIpcRecving ≠ 0

/-- **What a send does.** -/
inductive Sent (k : Kernel) (cur : EnvIx) (envid value srcva perm : Word) : Sysret × Kernel → Prop where
  | refused (i : Int) : i < 0 → (∀ e, ¬Reaches k cur envid srcva e) → Sent k cur envid value srcva perm (.ret i, k)
  | value (e : EnvIx) (q : Tailq EnvIx) : envid2env k cur envid false = some e → (k.envs e).envIpcRecving ≠ 0 →
      k.sched.insertTail e = some q → srcva = 0 → Sent k cur envid value srcva perm (.ret 0, woken k cur e value perm q)
  | lost (e : EnvIx) (q : Tailq EnvIx) : envid2env k cur envid false = some e → (k.envs e).envIpcRecving ≠ 0 →
      k.sched.insertTail e = some q → srcva ≠ 0 → isIllegalVa srcva = false →
      pageLookup k.pm (k.envs cur).envPgdir srcva = some none →
      Sent k cur envid value srcva perm (.ret (-eInval), woken k cur e value perm q)
  | page (e : EnvIx) (q : Tailq EnvIx) (pp : Nat) (pte : PtePtr) (i : Int) (pm : Pmap) :
      envid2env k cur envid false = some e → (k.envs e).envIpcRecving ≠ 0 → k.sched.insertTail e = some q → srcva ≠ 0 →
      isIllegalVa srcva = false → pageLookup k.pm (k.envs cur).envPgdir srcva = some (some (pp, pte)) →
      pageInsert k.pm (k.envs e).envPgdir (k.envs e).envAsid pp (k.envs e).envIpcDstva perm = some (i, pm) →
      Sent k cur envid value srcva perm (.ret i, (woken k cur e value perm q).setPm pm)

theorem send_inv {k : Kernel} {cur : EnvIx} {envid value srcva perm : Word} {r : Sysret × Kernel}
    (h : sysIpcTrySend k cur envid value srcva perm = some r) : Sent k cur envid value srcva perm r := by
  by_cases hva : srcva ≠ 0 ∧ isIllegalVa srcva = true
  · unfold sysIpcTrySend at h
    rw [if_pos hva] at h
    cases h
    exact .refused _ (by decide) (fun e hd => hd.1.elim hva.1 (fun hl => by rw [hl] at hva; cases hva.2))
  cases hid : envid2env k cur envid false with
  | none =>
    unfold sysIpcTrySend at h
    rw [if_neg hva, hid] at h
    cases h
    exact .refused _ (by decide) (fun e hd => by cases hid.symm.trans hd.2.1)
  | some e =>
    by_cases hr : (k.envs e).envIpcRecving = 0
    · unfold sysIpcTrySend at h
      rw [if_neg hva, hid] at h
      dsimp only at h
      rw [if_pos hr] at h
      cases h
      refine .refused _ (by decide) (fun e' hd => ?_)
      obtain rfl : e = e' := by simpa using hid.symm.trans hd.2.1
      exact hd.2.2 hr
    by_cases h0 : srcva = 0
    · unfold sysIpcTrySend at h
      rw [if_neg hva, hid] at h
      dsimp only at h
      rw [if_neg hr] at h
      obtain ⟨q, hq, hret⟩ := Option.bind_eq_some_iff.1 h
      rw [if_pos h0] at hret
      cases hret
      exact .value e q hid hr hq h0
    · have hlegal : isIllegalVa srcva = false := by
        cases hi : isIllegalVa srcva with
        | false => rfl
        | true => exact absurd ⟨h0, hi⟩ hva
      rw [send_page h0 hlegal hid hr] at h
      obtain ⟨q, hq, hrest⟩ := Option.bind_eq_some_iff.1 h
      obtain ⟨l, hl, hrest⟩ := Option.bind_eq_some_iff.1 hrest
      cases l with
      | none =>
        cases hrest
        exact .lost e q hid hr hq h0 hlegal hl
      | some l =>
        obtain ⟨⟨i, pm⟩, hins, hret⟩ := Option.bind_eq_some_iff.1 hrest
        cases hret
        exact .page e q l.1 l.2 i pm hid hr hq h0 hlegal hl hins

theorem not_undelivered_woken {k : Kernel} {cur e : EnvIx} {value perm : Word} {q : Tailq EnvIx} {k' : Kernel}
    (hr : (k.envs e).envIpcRecving ≠ 0) (hk : k'.envs = (woken k cur e value perm q).envs) : ¬Undelivered k k' := by
  intro h
  have hsame := h.recving e
  rw [hk] at hsame
  have hzero : ((woken k cur e value perm q).envs e).envIpcRecving = 0 := by
    show ((k.setEnv e (fun v => v.deliver value (k.envs cur).envId perm)).envs e).envIpcRecving = 0
    rw [Kernel.setEnv_self]
    rfl
  exact hr (hsame.symm.trans hzero)

/-- **A failing send has delivered nothing, exactly when it is no late failure**: for every state and all arguments. -/
theorem failed_send_undelivered_iff (k : Kernel) (cur : EnvIx) (envid value srcva perm : Word) :
    (∀ r k', sysIpcTrySend k cur envid value srcva perm = some (.ret r, k') → r < 0 → Undelivered k k') ↔
      ¬LateFailure k cur envid srcva := by
  constructor
  · rintro h ⟨h0, hva, e, hid, hr, hlast, hfail⟩
    obtain ⟨q, hq⟩ := insertTail_of_last e hlast
    rcases hfail with hl | ⟨pp, pte, hl, hnt⟩
    · have hcall : sysIpcTrySend k cur envid value srcva perm = some (.ret (-eInval), woken k cur e value perm q) := by
        rw [send_page h0 hva hid hr, hq, hl]
        rfl
      have hun : Undelivered k (woken k cur e value perm q) := h _ _ hcall (by decide)
      exact not_undelivered_woken hr rfl hun
    · obtain ⟨pm, hins⟩ := @pageInsert_noTable k.pm _ pp (k.envs e).envAsid _ perm hnt
      have hcall : sysIpcTrySend k cur envid value srcva perm =
          some (.ret (-eNoMem), (woken k cur e value perm q).setPm pm) := by
        rw [send_page h0 hva hid hr, hq, hl]
        simp only [Option.bind_some, hins]
        rfl
      have hun : Undelivered k ((woken k cur e value perm q).setPm pm) := h _ _ hcall (by decide)
      have henvs : ((woken k cur e value perm q).setPm pm).envs = (woken k cur e value perm q).envs := rfl
      exact not_undelivered_woken hr henvs hun
  · intro hno r k' hcall hneg
    cases send_inv hcall with
    | refused => exact undelivered_refl k
    | value => exact absurd hneg (by decide)
    | lost e q hid hr hq h0 hva hl => exact absurd ⟨h0, hva, e, hid, hr, insertTail_last hq, .inl hl⟩ hno
    | page e q pp pte i pm hid hr hq h0 hva hl hins =>
      exact absurd ⟨h0, hva, e, hid, hr, insertTail_last hq, .inr ⟨pp, pte, hl, pageInsert_neg hins hneg⟩⟩ hno

/-- **A failing send does deliver**: a child receives, and its parent sends a page it has not mapped. -/
theorem failed_send_undelivered_fails : ¬∀ k, Reachable k → ∀ cur, k.curenv = some cur →
    ∀ envid value srcva perm r k', sysIpcTrySend k cur envid value srcva perm = some (.ret r, k') → r < 0 →
      Undelivered k k' := by
  obtain ⟨k, hk, hc⟩ := exists_reachable [emptyProgram]
    [.tick, .exec stackFrame, .syscall .exofork 0, .syscall (.setEnvStatus 4097 1) 0, .syscall .yield 0,
      .syscall (.ipcRecv 0) 0]
    (fun k => decide (k.curenv = some 0 ∧ (k.envs 1).envIpcRecving = 1) &&
      (sysIpcTrySend k 0 4097 7 0x800000 0).any (fun (r : Sysret × Kernel) =>
        decide (r.1 = .ret (-eInval) ∧ (r.2.envs 1).envIpcRecving = 0 ∧ (r.2.envs 1).envIpcValue = 7)))
    (by decide +kernel)
  simp only [Bool.and_eq_true, decide_eq_true_eq] at hc
  obtain ⟨⟨hcur, hbefore⟩, hany⟩ := hc
  obtain ⟨⟨s, k'⟩, hcall, hafter⟩ := (Option.any_eq_true _ _).1 hany
  obtain ⟨rfl, hr, -⟩ := of_decide_eq_true hafter
  intro hall
  have hsame := (hall k hk 0 hcur 4097 7 0x800000 0 _ k' hcall (by decide)).recving 1
  rw [hbefore, hr] at hsame
  exact absurd hsame (by decide)

end Mos
