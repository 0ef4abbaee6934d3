import Mos.Message
/-!
# ArgumentPage — the page that comes with a message

`sys_ipc_try_send` sets `PTE_V` in the permission it leaves with the receiver, whether it sends a page or not.  The loop
of the file server takes that bit for the presence of an argument page.  So the bit says the truth exactly for the sends
that do transfer one: the sender names a page it has mapped, the receiver has room for the entry, and the permission
adds no bit to the frame number.
-/
namespace Mos

/-! ## The loop of the server -/

def maxFsreqno : Word := 7

inductive ServeBranch where
  | noArgument
  | badRequest
  | handler
deriving DecidableEq

/-- What the loop in `serve` decides for a message. -/
def serveBranch (m : Message) : ServeBranch :=
  if valid m.perm then if maxFsreqno ≤ m.value then .badRequest else .handler else .noArgument

/-- One turn of the loop in `serve`, on the state of the file system; `serveTable` has the handlers. -/
def serve {σ : Type} (serveTable : Nat → Word → σ → σ) (m : Message) (s : σ) : σ :=
  match serveBranch m with
  | .handler => serveTable m.value.toNat m.whom s
  | .badRequest => s
  | .noArgument => s

theorem serveBranch_noArgument {m : Message} (h : valid m.perm = false) : serveBranch m = .noArgument := by
  unfold serveBranch
  rw [h]
  rfl

/-! ## When a page arrives -/

/-- The page that the call of `cur` is to send. -/
def Syscall.sends (k : Kernel) (cur : EnvIx) : Syscall → Nat → Prop
  | .ipcTrySend _ _ srcva _ => fun pp => srcva ≠ 0 ∧ Installed k.pm (k.envs cur).envPgdir srcva pp
  | _ => fun _ => False

/-- There is a page table for `va`, or a frame to make one. -/
def HasRoom (k : Kernel) (e : EnvIx) (va : Word) : Prop :=
  k.pm.table ((k.envs e).envPgdir, pdx va) = none → k.pm.pageFreeList ≠ []

/-- **A send that gets to its receiver transfers a page exactly when** the sender has mapped one at `srcva`, there is
room for it, and the permission adds no bit to its frame number. -/
theorem transfers_iff {k : Kernel} {cur e : EnvIx} {envid value srcva perm : Word} {r : Sysret × Kernel}
    (hd : Reaches k cur envid srcva e) (hc : sysIpcTrySend k cur envid value srcva perm = some r)
    (hself : ¬SelfEntry k.pm (k.envs e).envPgdir (k.envs e).envIpcDstva) :
    (∃ pp, (Syscall.ipcTrySend envid value srcva perm).sends k cur pp ∧
      Installed r.2.pm (r.2.envs e).envPgdir (k.envs e).envIpcDstva pp) ↔
    ∃ pp, (Syscall.ipcTrySend envid value srcva perm).sends k cur pp ∧ HasRoom k e (k.envs e).envIpcDstva ∧
      pp ||| ppn perm = pp := by
  refine exists_congr (fun f => and_congr_right (fun hf => ?_))
  obtain ⟨h0, pte₀, hf⟩ := hf
  cases send_inv hc with
  | refused i _ hno => exact absurd hd (hno e)
  | value _ _ _ _ _ h0' => exact absurd h0' h0
  | lost _ _ _ _ _ _ _ hl =>
    rw [hl] at hf
    cases hf
  | page e' q pp pte i pm he' _ _ _ _ hl hi =>
    obtain rfl : e = e' := by simpa using hd.2.1.symm.trans he'
    obtain ⟨rfl, -⟩ : pp = f ∧ pte = pte₀ := by simpa using hl.symm.trans hf
    have hpg : (((woken k cur e value perm q).setPm pm).envs e).envPgdir = (k.envs e).envPgdir :=
      woken_field k cur e e value perm q (fun _ => rfl)
    rw [hpg, Kernel.setPm_pm]
    by_cases hroom : HasRoom k e (k.envs e).envIpcDstva
    · have hret : i = 0 := by
        refine (pageInsert_code hi).resolve_right (fun hneg => ?_)
        cases pageInsert_neg hi (by rw [hneg]; decide) with
        | missing ht hfree => exact hroom ht hfree
        | self ht hix => exact hself (.table hix ht)
      rw [hret] at hi
      obtain ⟨hlt, hpp⟩ := Installed.lt ⟨pte, hl⟩
      rw [insert_lookup hi hself hlt hpp]
      exact ⟨fun hp => ⟨hroom, hp⟩, And.right⟩
    · obtain ⟨ht, hfree⟩ : k.pm.table ((k.envs e).envPgdir, pdx (k.envs e).envIpcDstva) = none ∧
          k.pm.pageFreeList = [] := by
        simpa [HasRoom] using hroom
      rw [insert_noRoom ht hfree] at hi
      cases hi
      constructor
      · rintro ⟨pte', hpte⟩
        have hnone : (tlbInvalidate k.pm (k.envs e).envAsid (k.envs e).envIpcDstva).table
            ((k.envs e).envPgdir, pdx (k.envs e).envIpcDstva) = none := ht
        unfold pageLookup at hpte
        rw [walk_eq_none hnone] at hpte
        cases hpte
      · exact fun hc => absurd hc.1 hroom

/-! ## Completed receives -/

/-- The step completes a receive of `e` that waits for a page. -/
def Completes (k : Kernel) (a : Act) (e : EnvIx) : Prop := Delivers k a e ∧ (k.envs e).envIpcDstva ≠ 0

/-- The send of the step has transferred a page of the sender: it is mapped at the receiver's `env_ipc_dstva`. -/
def Transfers (k : Kernel) (a : Act) (k' : Kernel) (e : EnvIx) : Prop :=
  match a with
  | .syscall c _ => ∃ cur k₁, k.curenv = some cur ∧ readArgs k cur = some k₁ ∧ c.delivers k₁ cur e ∧
      ∃ pp, c.sends k₁ cur pp ∧ Installed k'.pm (k'.envs e).envPgdir (k₁.envs e).envIpcDstva pp
  | _ => False

/-- The send of the step brings a page that can be mapped as it is: the sender has it at `srcva`, the receiver has a
page table for it or gets one, and the permission adds no bit to the frame number. -/
def Carries (k : Kernel) (a : Act) (e : EnvIx) : Prop :=
  match a with
  | .syscall c _ => ∃ cur k₁, k.curenv = some cur ∧ readArgs k cur = some k₁ ∧ c.delivers k₁ cur e ∧
      ∃ pp, c.sends k₁ cur pp ∧ HasRoom k₁ e (k₁.envs e).envIpcDstva ∧ pp ||| ppn c.perm = pp
  | _ => False

/-- The directory of the receiver is its own table where the page goes. -/
def OwnTable (k : Kernel) (a : Act) (e : EnvIx) : Prop :=
  match a with
  | .syscall _ _ => ∃ cur k₁, k.curenv = some cur ∧ readArgs k cur = some k₁ ∧
      SelfEntry k₁.pm (k₁.envs e).envPgdir (k₁.envs e).envIpcDstva
  | _ => False

theorem transfers_delivers {k k' : Kernel} {a : Act} {e : EnvIx} (h : Transfers k a k' e) : Delivers k a e := by
  cases a with
  | syscall c v0 =>
    obtain ⟨cur, k₁, hcur, hargs, hd, -⟩ := h
    exact ⟨cur, k₁, hcur, hargs, hd⟩
  | _ => exact h.elim

/-- **A send that completes a receive marks the message with `PTE_V`**, and transfers a page exactly when it carries
one. -/
theorem completed_step {k k' : Kernel} {a : Act} {e : EnvIx} (hs : step k a = some k') (hd : Delivers k a e) :
    valid (ipcRecv (k'.envs e)).perm = true ∧ (¬OwnTable k a e → (Transfers k a k' e ↔ Carries k a e)) := by
  cases a with
  | syscall c v0 =>
    obtain ⟨cur, k₁, hcur, hargs, hdel⟩ := hd
    obtain ⟨cur', hcur', hu⟩ := Option.bind_eq_some_iff.1 hs
    obtain rfl : cur = cur' := by simpa using hcur.symm.trans hcur'
    obtain ⟨k₂, r, hargs', hc, rfl⟩ := doSyscall_inv hu
    obtain rfl : k₁ = k₂ := by simpa using hargs.symm.trans hargs'
    have hv0 : (setV0 v0 r).envs = r.2.envs ∧ (setV0 v0 r).pm = r.2.pm := by
      obtain ⟨_ | _ | _, k₂⟩ := r <;> exact ⟨rfl, rfl⟩
    cases c with
    | ipcTrySend envid value srcva perm =>
      have hreach : Reaches k₁ cur envid srcva e := hdel
      refine ⟨?_, fun hself => ?_⟩
      · rw [hv0.1, send_delivered hc hreach]
        show valid (pteV ||| perm) = true
        rw [BitVec.or_comm]
        exact valid_or_pteV perm
      · have hiff := transfers_iff hreach hc (fun h => hself ⟨cur, k₁, hcur, hargs, h⟩)
        constructor
        · rintro ⟨cur', k₂, hcur', hargs', -, pp, hp, hi⟩
          obtain rfl : cur = cur' := by simpa using hcur.symm.trans hcur'
          obtain rfl : k₁ = k₂ := by simpa using hargs.symm.trans hargs'
          rw [hv0.1, hv0.2] at hi
          exact ⟨cur, k₁, hcur, hargs, hdel, hiff.1 ⟨pp, hp, hi⟩⟩
        · rintro ⟨cur', k₂, hcur', hargs', -, hcarry⟩
          obtain rfl : cur = cur' := by simpa using hcur.symm.trans hcur'
          obtain rfl : k₁ = k₂ := by simpa using hargs.symm.trans hargs'
          obtain ⟨pp, hp, hi⟩ := hiff.2 hcarry
          rw [← hv0.1, ← hv0.2] at hi
          exact ⟨cur, k₁, hcur, hargs, hdel, pp, hp, hi⟩
    | _ => exact hdel.elim
  | _ => exact hd.elim

/-! ## Runs -/

/-- The kernel, the environments whose last completed receive was for a page, and those that were sent one then. -/
structure Received where
  kernel : Kernel
  completed : EnvIx → Prop
  transferred : EnvIx → Prop

namespace Received

def step (t : Received) (a : Act) : Option Received :=
  (Mos.step t.kernel a).map (fun k' =>
    { kernel := k'
      completed := fun e => Completes t.kernel a e ∨ ¬Delivers t.kernel a e ∧ t.completed e
      transferred := fun e => Transfers t.kernel a k' e ∨ ¬Delivers t.kernel a e ∧ t.transferred e })

def Booted (t : Received) : Prop := Mos.Booted t.kernel ∧ (∀ e, ¬t.completed e) ∧ ∀ e, ¬t.transferred e

/-- The permission has `PTE_V` iff the send that completed the receive transferred a page. -/
def AuthenticAt (t : Received) (e : EnvIx) : Prop := valid (ipcRecv (t.kernel.envs e)).perm = true ↔ t.transferred e

/-- **The bit says the truth.** -/
def Authentic (t : Received) : Prop := ∀ e, t.completed e → t.AuthenticAt e

/-- **The server runs a handler only when there is an argument page**, and leaves the file system alone when not. -/
def ServesAuthentic (t : Received) : Prop :=
  ∀ e, t.completed e → (serveBranch (ipcRecv (t.kernel.envs e)) = .handler → t.transferred e) ∧
    (¬t.transferred e → serveBranch (ipcRecv (t.kernel.envs e)) = .noArgument ∧
      ∀ (σ : Type) (serveTable : Nat → Word → σ → σ) (s : σ), serve serveTable (ipcRecv (t.kernel.envs e)) s = s)

/-- Every send that completes a receive for a page carries one, to a directory that is not its own table. -/
def PageSafe (t : Received) (a : Act) : Prop :=
  ∀ e, Completes t.kernel a e → Carries t.kernel a e ∧ ¬OwnTable t.kernel a e

theorem serves_of_authentic {t : Received} (h : t.Authentic) : t.ServesAuthentic := by
  intro e he
  constructor
  · intro hb
    refine (h e he).1 ?_
    by_contra hv
    rw [serveBranch_noArgument (Bool.eq_false_iff.2 hv)] at hb
    cases hb
  · intro hno
    have hv : valid (ipcRecv (t.kernel.envs e)).perm = false := Bool.eq_false_iff.2 (fun hv => hno ((h e he).1 hv))
    have hb := serveBranch_noArgument hv
    refine ⟨hb, fun σ serveTable s => ?_⟩
    unfold serve
    rw [hb]

theorem authenticAt_step {t t' : Received} {a : Act} (hs : t.step a = some t') {e : EnvIx} (hd : Delivers t.kernel a e)
    (hself : ¬OwnTable t.kernel a e) : t'.AuthenticAt e ↔ Carries t.kernel a e := by
  obtain ⟨k', hk', rfl⟩ := Option.map_eq_some_iff.1 hs
  obtain ⟨hv, hiff⟩ := completed_step hk' hd
  have htr : (Transfers t.kernel a k' e ∨ ¬Delivers t.kernel a e ∧ t.transferred e) ↔ Transfers t.kernel a k' e :=
    or_iff_left (fun hc => hc.1 hd)
  unfold AuthenticAt
  dsimp only
  rw [htr, hiff hself, hv]
  exact ⟨fun hc => hc.1 rfl, fun hc => ⟨fun _ => hc, fun _ => rfl⟩⟩

theorem authentic_booted (t : Received) (h : t.Booted) : t.Authentic := fun e he => absurd he (h.2.1 e)

theorem authentic_step (t : Received) (a : Act) (t' : Received) (hal : t.kernel.procs.Alive) (h : t.Authentic)
    (hsafe : t.PageSafe a) (hs : t.step a = some t') : t'.Authentic := by
  have hs₀ := hs
  obtain ⟨k', hk', rfl⟩ := Option.map_eq_some_iff.1 hs
  intro e he
  rcases he with hc | ⟨hno, hc⟩
  · obtain ⟨hcarry, hself⟩ := hsafe e hc
    exact (authenticAt_step hs₀ hc.1 hself).2 hcarry
  · have htr : (Transfers t.kernel a k' e ∨ ¬Delivers t.kernel a e ∧ t.transferred e) ↔ t.transferred e := by
      refine ⟨fun h => h.elim (fun ht => ?_) And.right, fun ht => .inr ⟨hno, ht⟩⟩
      exact absurd (transfers_delivers ht) hno
    unfold AuthenticAt
    dsimp only
    rw [htr, step_messages hal hk' hno]
    exact h e hc

/-- **Argument pages are authentic** in every state of every run that meets `PageSafe`, for the receiver and for the
server's loop; and from every such state the next send that completes a receive for a page keeps it so exactly when it
carries a page. -/
theorem argument_page_authentic (t : Received) (h : Run Booted step PageSafe t) : t.Authentic ∧ t.ServesAuthentic ∧
    ∀ a t', t.step a = some t' → ∀ e, Completes t.kernel a e → ¬OwnTable t.kernel a e →
      (t'.AuthenticAt e ↔ Carries t.kernel a e) := by
  have hstep : ∀ (t : Received) a t', t.kernel.procs.Alive ∧ t.Authentic → t.PageSafe a → t.step a = some t' →
      t'.kernel.procs.Alive ∧ t'.Authentic := by
    rintro t a t' ⟨hal, hau⟩ hsafe hs
    refine ⟨?_, authentic_step t a t' hal hau hsafe hs⟩
    obtain ⟨k', hk', rfl⟩ := Option.map_eq_some_iff.1 hs
    exact alive_of_moves hal (step_moves hk')
  have hauth := (Run.invariant (fun t : Received => t.kernel.procs.Alive ∧ t.Authentic)
    (fun t ht => ⟨booted_alive ht.1, authentic_booted t ht⟩) hstep t h).2
  exact ⟨hauth, serves_of_authentic hauth, fun a t' hs e hc hself => authenticAt_step hs hc.1 hself⟩

/-! ## The small machine -/

/-- The small machine, nobody having received. -/
def small : Option Received :=
  (mipsInit smallBoard [emptyProgram]).map
  (fun k => { kernel := k, completed := fun _ => False, transferred := fun _ => False })

theorem booted_small (t : Received) (h : small = some t) : t.Booted := by
  obtain ⟨k, hk, rfl⟩ := Option.map_eq_some_iff.1 h
  exact ⟨⟨smallBoard, [emptyProgram], hk⟩, fun _ h => h, fun _ h => h⟩

/-- A check that implies `PageSafe`, for receivers at an address whose table is not its directory. -/
def pageSafeB (t : Received) : Act → Bool
  | .syscall (.ipcTrySend envid _ srcva perm) _ =>
    t.kernel.curenv.any (fun cur => (readArgs t.kernel cur).any (fun k₁ => (envid2env k₁ cur envid false).any (fun e =>
      decide (srcva ≠ 0 ∧ ppn perm = 0 ∧ k₁.pm.pageFreeList ≠ [] ∧
        ptx (k₁.envs e).envIpcDstva ≠ pdx (k₁.envs e).envIpcDstva) &&
      (pageLookup k₁.pm (k₁.envs cur).envPgdir srcva).any (fun l => l.isSome))))
  | _ => true

theorem pageSafe_of_pageSafeB (t : Received) (a : Act) (h : t.pageSafeB a = true) : t.PageSafe a := by
  rintro e ⟨hd, -⟩
  cases a with
  | syscall c v0 =>
    obtain ⟨cur, k₁, hcur, hargs, hdel⟩ := hd
    cases c with
    | ipcTrySend envid value srcva perm =>
      have hreach : Reaches k₁ cur envid srcva e := hdel
      simp only [pageSafeB, hcur, hargs, hreach.2.1, Option.any_some, Bool.and_eq_true, decide_eq_true_eq] at h
      obtain ⟨⟨h0, hperm, hfree, hix⟩, hl⟩ := h
      obtain ⟨l, hl, hsome⟩ := (Option.any_eq_true _ _).1 hl
      obtain ⟨⟨pp, pte⟩, rfl⟩ := Option.isSome_iff_exists.1 hsome
      refine ⟨⟨cur, k₁, hcur, hargs, hdel, pp, ⟨h0, pte, hl⟩, fun _ => hfree, ?_⟩, ?_⟩
      · show pp ||| ppn perm = pp
        rw [hperm, Nat.or_zero]
      · rintro ⟨cur', k₂, hcur', hargs', hself⟩
        obtain rfl : cur = cur' := by simpa using hcur.symm.trans hcur'
        obtain rfl : k₁ = k₂ := by simpa using hargs.symm.trans hargs'
        cases hself with
        | table hi => exact hix hi
        | fresh _ hi => exact hix hi
    | _ => exact hdel.elim
  | _ => exact hd.elim

/-- A child waits for a page, and gets one. -/
theorem argument_page_authentic_child : ∃ t : Received, (t.kernel.envs 1).envIpcValue = 7 ∧ t.Authentic ∧
    t.ServesAuthentic := by
  obtain ⟨t, hr, ht⟩ := @Run.exists_of_exec Received Act Booted step PageSafe pageSafeB pageSafe_of_pageSafeB
    [.tick, .exec stackFrame, .syscall .exofork 0, .syscall (.setEnvStatus 4097 1) 0, .syscall .yield 0,
      .syscall (.ipcRecv 0x800000) 0, .syscall (.memAlloc 0 0x800000 pteD) 0,
        .syscall (.ipcTrySend 4097 7 0x800000 pteD) 0]
    small booted_small (fun t => decide ((t.kernel.envs 1).envIpcValue = 7)) (by decide +kernel)
  have hauth := argument_page_authentic t hr
  exact ⟨t, of_decide_eq_true ht, hauth.1, hauth.2.1⟩

/-- **A send without a page is taken for one with a page**: the child waits for a request, its parent sends 0. -/
theorem argument_page_authentic_fails : ¬∀ t, Reach Booted step t → t.Authentic ∧ t.ServesAuthentic := by
  obtain ⟨t, hr, ht⟩ := @Run.exists_of_exec Received Act Booted step (fun _ _ => True) (fun _ _ => true)
    (fun _ _ _ => trivial)
    [.tick, .exec stackFrame, .syscall .exofork 0, .syscall (.setEnvStatus 4097 1) 0, .syscall .yield 0,
      .syscall (.ipcRecv 0x800000) 0]
    small booted_small
    (fun t => decide (t.kernel.curenv = some 0 ∧ (t.kernel.envs 1).envIpcDstva = 0x800000) &&
      (Mos.step t.kernel (.syscall (.ipcTrySend 4097 0 0 0) 0)).isSome &&
      (readArgs t.kernel 0).any (fun k₁ => decide (envid2env k₁ 0 4097 false = some 1 ∧ (k₁.envs 1).envIpcRecving ≠ 0)))
    (by decide +kernel)
  simp only [Bool.and_eq_true, decide_eq_true_eq] at ht
  obtain ⟨⟨⟨hcur, hdst⟩, hsome⟩, hargs⟩ := ht
  obtain ⟨k₁, hk₁, hreach⟩ := (Option.any_eq_true _ _).1 hargs
  obtain ⟨hid, hrecv⟩ := of_decide_eq_true hreach
  have hd : Delivers t.kernel (.syscall (.ipcTrySend 4097 0 0 0) 0) 1 := ⟨0, k₁, hcur, hk₁, .inl rfl, hid, hrecv⟩
  obtain ⟨t', hs⟩ : ∃ t', t.step (.syscall (.ipcTrySend 4097 0 0 0) 0) = some t' := by
    rw [← Option.isSome_iff_exists, step, Option.isSome_map]
    exact hsome
  intro hall
  have hauth := (hall t' (.next t _ t' hr trivial hs)).1
  obtain ⟨k', hk', rfl⟩ := Option.map_eq_some_iff.1 hs
  rcases (hauth 1 (.inl ⟨hd, by rw [hdst]; decide⟩)).1 (completed_step hk' hd).1 with hsent | ⟨hno, -⟩
  · obtain ⟨-, -, -, -, -, pp, ⟨h0, -⟩, -⟩ := hsent
    exact h0 rfl
  · exact hno hd

end Received

end Mos
