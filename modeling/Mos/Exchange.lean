import Mos.Keeping
import Mos.Receiving
import Mos.ArgumentPage
/-!
# Exchange — every receive gets one message, and keeps it

`sys_ipc_recv` blocks the caller, `sys_ipc_try_send` completes the receive of a blocked environment.  The kernel is
tracked here together with what every environment has exchanged: its receives, and the sends to it that returned 0.
-/
namespace Mos

/-- A send that returned 0: what was sent, by whom, and the page that came with it. -/
structure Delivery where
  value : Word
  sender : Word
  page : Option Nat

inductive MailEvent where
  | received
  | sent (d : Delivery)

/-- **Receives and sends alternate**, the last event first; the flag says whether the last one is a receive. -/
inductive Exchanges : Bool → List MailEvent → Prop where
  | idle : Exchanges false []
  | received (l : List MailEvent) : Exchanges false l → Exchanges true (.received :: l)
  | sent (d : Delivery) (l : List MailEvent) : Exchanges true l → Exchanges false (.sent d :: l)

/-- `e` has the frame `f` mapped at its `env_ipc_dstva`. -/
def Holds (k : Kernel) (e : EnvIx) (f : Nat) : Prop := Installed k.pm (k.envs e).envPgdir (k.envs e).envIpcDstva f

/-- The frame that `page_lookup` finds at `va`. -/
def pageAt (k : Kernel) (e : EnvIx) (va : Word) : Option Nat :=
  (pageLookup k.pm (k.envs e).envPgdir va).bind (fun l => l.map Prod.fst)

/-- What the step has sent to `e`, when it is a send that returns 0. -/
def sentTo (k : Kernel) (e : EnvIx) : Act → Option Delivery
  | .syscall (.ipcTrySend envid value srcva perm) _ =>
    k.curenv.bind (fun cur => (readArgs k cur).bind (fun k₁ =>
      (sysIpcTrySend k₁ cur envid value srcva perm).bind (fun r =>
        if r.1 = .ret 0 ∧ envid2env k₁ cur envid false = some e then
          some { value := value, sender := (k₁.envs cur).envId
                 page := if srcva = 0 then none else pageAt k₁ cur srcva }
        else none)))
  | _ => none

/-- The kernel, and what every environment has exchanged. -/
structure Mailed where
  kernel : Kernel
  log : EnvIx → List MailEvent

namespace Mailed

/-- What the step adds. -/
def logged (t : Mailed) (a : Act) (e : EnvIx) : List MailEvent :=
  if receives t.kernel e a then .received :: t.log e
  else match sentTo t.kernel e a with
    | some d => .sent d :: t.log e
    | none => t.log e

def step (t : Mailed) (a : Act) : Option Mailed :=
  (Mos.step t.kernel a).map (fun k => { kernel := k, log := t.logged a })

/-- Any state of the machine in which nobody is receiving. -/
def Ready (t : Mailed) : Prop :=
  Run Linked Mos.step MapSafe t.kernel ∧
    (∀ e, (t.kernel.envs e).envStatus ≠ .free → (t.kernel.envs e).envIpcRecving = 0) ∧
    ∀ e, t.log e = []

/-- The send of `cur` has no page, or one it has mapped, for a legal address of the receiver and with memory for the
table. -/
def Sendable (k : Kernel) (cur : EnvIx) (envid srcva : Word) : Prop :=
  ∀ e, Reaches k cur envid srcva e → srcva = 0 ∨
    (∃ pp, Installed k.pm (k.envs cur).envPgdir srcva pp) ∧ isIllegalVa (k.envs e).envIpcDstva = false ∧
      HasRoom k e (k.envs e).envIpcDstva

/-- **The steps considered**: any receive, sends that are `Sendable`, any other call that changes no status and does not
map or unmap the page that came with the last message, and whatever is no call. -/
def InDomain (t : Mailed) (a : Act) : Prop :=
  match a with
  | .syscall (.ipcRecv _) _ => True
  | .syscall (.ipcTrySend envid _ srcva _) _ => ∀ cur k₁, t.kernel.curenv = some cur → readArgs t.kernel cur = some k₁ →
      Sendable k₁ cur envid srcva
  | .syscall c v0 => ∀ cur k₁ k', t.kernel.curenv = some cur → readArgs t.kernel cur = some k₁ →
      Mos.step t.kernel (.syscall c v0) = some k' →
      (∀ e, (k'.envs e).envStatus = (t.kernel.envs e).envStatus) ∧
      ∀ e d l, t.log e = .sent d :: l → d.page ≠ none → ¬c.remaps k₁ cur e (t.kernel.envs e).envIpcDstva
  | _ => True

/-- **Message integrity.** -/
structure Integrity (t : Mailed) : Prop where
  exchanges : ∀ e, (t.kernel.envs e).envStatus ≠ .free →
    Exchanges (decide ((t.kernel.envs e).envIpcRecving ≠ 0)) (t.log e)
  blocked : ∀ e, (t.kernel.envs e).envStatus ≠ .free → (t.kernel.envs e).envIpcRecving ≠ 0 →
    (t.kernel.envs e).envStatus = .notRunnable ∧ t.kernel.curenv ≠ some e
  message : ∀ e, (t.kernel.envs e).envStatus ≠ .free → ∀ d l, t.log e = .sent d :: l →
    (ipcRecv (t.kernel.envs e)).value = d.value ∧ (ipcRecv (t.kernel.envs e)).whom = d.sender ∧
      ∀ f, d.page = some f → Holds t.kernel e f
  refused : ∀ cur envid value srcva perm k',
    sysIpcTrySend t.kernel cur envid value srcva perm = some (.ret (-eIpcNotRecv), k') → k' = t.kernel

end Mailed

/-! ## Flags -/

theorem picks_running {p p' : Procs} (h : p.Picks p') : ∀ c, p'.running = some c → p'.status c = .runnable := by
  intro c hc
  cases h with
  | stay e hr hst =>
    obtain rfl : e = c := by simpa using hr.symm.trans hc
    exact hst
  | switch q e hq hf hst =>
    obtain rfl : e = c := by simpa using hc
    exact hst

/-- **What else than the two calls does to flags**: nothing, and whom it switches to is runnable. -/
theorem moves_flags {k : Kernel} {a : Act} {p : Procs} (h : Moves k a p)
    (hr : ∀ dstva v0, a ≠ .syscall (.ipcRecv dstva) v0)
    (hs : ∀ envid value srcva perm v0, a ≠ .syscall (.ipcTrySend envid value srcva perm) v0) :
    p.recving = k.procs.recving ∧ (p.running = k.procs.running ∨ ∀ c, p.running = some c → p.status c = .runnable) := by
  cases h with
  | quiet => exact ⟨rfl, .inl rfl⟩
  | tick p hp => exact ⟨(Tracked.picks_flags hp).2, .inr (picks_running hp)⟩
  | yield v0 p hp => exact ⟨(Tracked.picks_flags hp).2, .inr (picks_running hp)⟩
  | destroy cur d c v0 p hc hv hd =>
    refine ⟨(Tracked.destroys_flags hd).2, ?_⟩
    cases hd with
    | other q hq hne => exact .inl rfl
    | self q p hq hrun hp => exact .inr (picks_running hp)
  | exofork => exact ⟨rfl, .inl rfl⟩
  | setStatus => exact ⟨rfl, .inl rfl⟩
  | recv cur dstva v0 => exact absurd rfl (hr dstva v0)
  | send cur e envid value srcva perm v0 => exact absurd rfl (hs envid value srcva perm v0)

/-- **What `sys_ipc_recv` leaves when it blocks the caller.** -/
structure Blocks (k k' : Kernel) (cur : EnvIx) : Prop where
  spaces : SameSpaces k k'
  running : ∀ c, k'.curenv = some c → (k'.envs c).envStatus = .runnable
  status : (k'.envs cur).envStatus = .notRunnable
  recving : (k'.envs cur).envIpcRecving ≠ 0
  other : ∀ x, x ≠ cur → (k'.envs x).envStatus = (k.envs x).envStatus ∧
    ((k'.envs x).envIpcRecving ≠ 0 ↔ (k.envs x).envIpcRecving ≠ 0) ∧ (k'.envs x).envIpcDstva = (k.envs x).envIpcDstva

theorem recv_inv {k : Kernel} {cur : EnvIx} {dstva : Word} {r : Sysret × Kernel}
    (hlive : (k.envs cur).envStatus ≠ .free) (h : sysIpcRecv k cur dstva = some r) :
    (dstva ≠ 0 ∧ isIllegalVa dstva = true) ∧ r = (.ret (-eInval), k) ∨
      ¬(dstva ≠ 0 ∧ isIllegalVa dstva = true) ∧ ∃ k', r = (.noret, k') ∧ Blocks k k' cur := by
  unfold sysIpcRecv at h
  split at h
  · rename_i hill
    exact .inl ⟨hill, ret_eq h⟩
  · rename_i hlegal
    obtain ⟨q, -, hrest⟩ := Option.bind_eq_some_iff.1 h
    obtain ⟨k₃, hsch, rfl⟩ := Option.map_eq_some_iff.1 hrest
    obtain ⟨hsp, -, hdst⟩ := schedule_spaces hsch
    have hpick := schedule_procs hsch
    obtain ⟨hst, hre⟩ := Tracked.picks_flags hpick
    have hset : SameSpaces k (k.setEnv cur (fun v => v.startRecv dstva)) :=
      .setEnv k cur ⟨fun _ => hlive, fun _ => by simp [Env.startRecv]⟩ rfl
    have hself : (k.setEnv cur (fun v => v.startRecv dstva)).envs cur = (k.envs cur).startRecv dstva :=
      Kernel.setEnv_self _ _ _
    refine .inr ⟨hlegal, k₃, rfl, ⟨?_, picks_running hpick, ?_, ?_, fun x hx => ⟨?_, ?_, ?_⟩⟩⟩
    · exact hset.trans ⟨hsp.pm, hsp.base, hsp.status, hsp.pgdir⟩
    · refine (congrFun hst cur).trans ?_
      show ((k.setEnv cur (fun v => v.startRecv dstva)).envs cur).envStatus = _
      rw [hself]
      rfl
    · have hflag := congrFun hre cur
      have hone : ((k.setEnv cur (fun v => v.startRecv dstva)).envs cur).envIpcRecving ≠ 0 := by
        rw [hself]
        show (1 : Word) ≠ 0
        decide
      exact of_decide_eq_true (hflag.trans (decide_eq_true hone))
    all_goals have hne : (k.setEnv cur (fun v => v.startRecv dstva)).envs x = k.envs x := Kernel.setEnv_ne _ _ hx
    · exact (congrFun hst x).trans (congrArg Env.envStatus hne)
    · have hflag := decide_eq_decide.1 (congrFun hre x)
      rw [← hne]
      exact hflag
    · exact (hdst x).trans (congrArg Env.envIpcDstva hne)

/-! ## Pages -/

theorem Framed.installed_iff {k : Kernel} {g : Ledger} (h : Framed k g) {e : EnvIx} (he : (k.envs e).envStatus ≠ .free)
    {va : Word} (hva : va < utop) {f : Nat} : Installed k.pm (k.envs e).envPgdir va f ↔ k.frameOf e va = some f := by
  obtain ⟨l, hl, hf⟩ := h.sound.acct.lookup (h.mem he) (pdx_lt_utop.2 hva)
  have hf' : l.map Prod.fst = k.frameOf e va := hf
  rw [← hf']
  unfold Installed
  rw [hl]
  constructor
  · rintro ⟨pte, hpte⟩
    rw [Option.some.inj hpte]
    rfl
  · intro hsome
    obtain ⟨⟨f', pte⟩, rfl, rfl⟩ := Option.map_eq_some_iff.1 hsome
    exact ⟨pte, rfl⟩

/-- **A page that is mapped again** is at its new place, and nobody else's pages change. -/
theorem Framed.insert_places {k : Kernel} {g : Ledger} (h : Framed k g) {src dst : EnvIx} {srcva va perm asid : Word}
    {pp : Nat} {r : Int} {pm : Pmap} (hsrc : (k.envs src).envStatus ≠ .free) (hdst : (k.envs dst).envStatus ≠ .free)
    (hsva : srcva < utop) (hva : va < utop) (hf : k.frameOf src srcva = some pp) (hroom : HasRoom k dst va)
    (hsafe : FrameSafe k dst va perm pp) (hi : pageInsert k.pm (k.envs dst).envPgdir asid pp va perm = some (r, pm)) :
    r = 0 ∧ (k.setPm pm).frameOf dst va = some pp ∧
      ∀ e, (k.envs e).envStatus ≠ .free → e ≠ dst → ∀ va' < utop, (k.setPm pm).frameOf e va' = k.frameOf e va' := by
  have hslot := slotOf_mem (h.mem hsrc) (pdx_lt_utop.2 hsva)
  have hu := h.sound.acct.usable_of_frame hslot hf
  have hheld := h.sound.frame _ hslot pp hf
  rcases h.sound.insertPage (h.mem hdst) hva hu hheld hsafe.2 hsafe.1 hi with ⟨-, ht, hfree, -⟩ | ⟨rfl, hins, -⟩
  · exact absurd hfree (hroom ht)
  refine ⟨rfl, ?_, fun e he hne va' hva' => ?_⟩
  · show (pm.pte (slotOf (k.envs dst).envPgdir va)).map ppn = some pp
    rw [hins.pte _ (slotOf_mem (h.mem hdst) (pdx_lt_utop.2 hva)), if_pos rfl, Option.map_some,
      ppn_entryOf (Nat.lt_of_lt_of_le hu.lt h.sound.acct.npage_le), hsafe.1]
  · show (pm.pte (slotOf (k.envs e).envPgdir va')).map ppn = (k.pm.pte (slotOf (k.envs e).envPgdir va')).map ppn
    rw [hins.pte _ (slotOf_mem (h.mem he) (pdx_lt_utop.2 hva')), if_neg]
    exact fun hc => hne (h.inj e dst he hdst (congrArg Prod.fst hc))

theorem Framed.holds_iff {k : Kernel} {g : Ledger} (h : Framed k g) {e : EnvIx} (he : (k.envs e).envStatus ≠ .free)
    {f : Nat} :
    Holds k e f ↔ k.frameOf e (k.envs e).envIpcDstva = some f := h.installed_iff he (h.dst e)

theorem woken_ne (k : Kernel) (cur : EnvIx) {e x : EnvIx} (value perm : Word) (q : Tailq EnvIx) (hx : x ≠ e) :
    (woken k cur e value perm q).envs x = k.envs x :=
  Kernel.setEnv_ne k (fun v => v.deliver value (k.envs cur).envId perm) hx

/-! ## The invariant -/

namespace Mailed

/-- What holds between two steps. -/
structure Inv (t : Mailed) : Prop where
  accounted : Accounted t.kernel
  exchanges : ∀ e, (t.kernel.envs e).envStatus ≠ .free →
    Exchanges (decide ((t.kernel.envs e).envIpcRecving ≠ 0)) (t.log e)
  blocked : ∀ e, (t.kernel.envs e).envStatus ≠ .free → (t.kernel.envs e).envIpcRecving ≠ 0 →
    (t.kernel.envs e).envStatus = .notRunnable ∧ t.kernel.curenv ≠ some e
  message : ∀ e, (t.kernel.envs e).envStatus ≠ .free → ∀ d l, t.log e = .sent d :: l →
    (ipcRecv (t.kernel.envs e)).value = d.value ∧ (ipcRecv (t.kernel.envs e)).whom = d.sender ∧
      ∀ f, d.page = some f → Holds t.kernel e f

/-- **What a step does to the messages of `e`**: nothing, or `e` blocks, or a send that returns 0 completes its
receive. -/
inductive Turn (t : Mailed) (a : Act) (k' : Kernel) (e : EnvIx) : Prop where
  | none : t.logged a e = t.log e → (k'.envs e).envStatus = (t.kernel.envs e).envStatus →
      ((k'.envs e).envIpcRecving ≠ 0 ↔ (t.kernel.envs e).envIpcRecving ≠ 0) →
      ipcRecv (k'.envs e) = ipcRecv (t.kernel.envs e) →
      (∀ d l f, t.log e = .sent d :: l → d.page = some f → Holds t.kernel e f → Holds k' e f) → Turn t a k' e
  | received : t.logged a e = .received :: t.log e → (t.kernel.envs e).envIpcRecving = 0 →
      (k'.envs e).envIpcRecving ≠ 0 → (k'.envs e).envStatus = .notRunnable → k'.curenv ≠ some e → Turn t a k' e
  | sent (d : Delivery) : t.logged a e = .sent d :: t.log e → (t.kernel.envs e).envIpcRecving ≠ 0 →
      (k'.envs e).envIpcRecving = 0 → (ipcRecv (k'.envs e)).value = d.value → (ipcRecv (k'.envs e)).whom = d.sender →
      (∀ f, d.page = some f → Holds k' e f) → Turn t a k' e

/-- **The turns keep the invariant.** -/
theorem Inv.next {t : Mailed} (h : t.Inv) {a : Act} {k' : Kernel} (hacc : Accounted k')
    (hrun : k'.curenv = t.kernel.curenv ∨ ∀ c, k'.curenv = some c → (k'.envs c).envStatus = .runnable)
    (hlive : ∀ e, (k'.envs e).envStatus ≠ .free → (t.kernel.envs e).envStatus ≠ .free)
    (hturn : ∀ e, (t.kernel.envs e).envStatus ≠ .free → Turn t a k' e) : Inv { kernel := k', log := t.logged a } := by
  refine ⟨hacc, fun e he => ?_, fun e he hrec => ?_, fun e he d l hl => ?_⟩
  · have he₀ := hlive e he
    show Exchanges (decide ((k'.envs e).envIpcRecving ≠ 0)) (t.logged a e)
    cases hturn e he₀ with
    | none hlog _ hrec =>
      rw [hlog, decide_eq_decide.2 hrec]
      exact h.exchanges e he₀
    | received hlog h0 hrec =>
      rw [hlog, decide_eq_true hrec]
      refine .received _ ?_
      have hx := h.exchanges e he₀
      rwa [h0] at hx
    | sent d hlog hrec h0 =>
      rw [hlog, h0]
      refine .sent d _ ?_
      have hx := h.exchanges e he₀
      rwa [decide_eq_true hrec] at hx
  · have he₀ := hlive e he
    show (k'.envs e).envStatus = .notRunnable ∧ k'.curenv ≠ some e
    cases hturn e he₀ with
    | none hlog hst hiff =>
      obtain ⟨hn, hc⟩ := h.blocked e he₀ (hiff.1 hrec)
      refine ⟨hst.trans hn, fun hc' => ?_⟩
      rcases hrun with hcur | hrun
      · exact hc (hcur ▸ hc')
      · rw [hrun e hc', hn] at hst
        cases hst
    | received hlog _ _ hst hc => exact ⟨hst, hc⟩
    | sent d _ _ h0 => exact absurd h0 hrec
  · have he₀ := hlive e he
    have hl' : t.logged a e = .sent d :: l := hl
    show (ipcRecv (k'.envs e)).value = d.value ∧ (ipcRecv (k'.envs e)).whom = d.sender ∧
        ∀ f, d.page = some f → Holds k' e f
    cases hturn e he₀ with
    | none hlog _ _ hm hh =>
      rw [hlog] at hl'
      obtain ⟨hv, hw, hp⟩ := h.message e he₀ d l hl'
      rw [hm]
      exact ⟨hv, hw, fun f hf => hh d l f hl' hf (hp f hf)⟩
    | received hlog =>
      rw [hlog] at hl'
      cases hl'
    | sent d' hlog _ _ hv hw hp =>
      rw [hlog] at hl'
      cases hl'
      exact ⟨hv, hw, hp⟩

/-! ## Steps -/

variable {t : Mailed} {k' : Kernel} {a : Act}

/-- Steps that neither receive nor send. -/
def Plain : Act → Prop
  | .syscall (.ipcRecv _) _ => False
  | .syscall (.ipcTrySend _ _ _ _) _ => False
  | _ => True

theorem logged_plain (t : Mailed) (ha : Plain a) (e : EnvIx) : t.logged a e = t.log e := by
  unfold logged
  cases a with
  | syscall c v0 => cases c <;> first | rfl | exact ha.elim
  | _ => rfl

theorem not_delivers_plain {k : Kernel} (ha : Plain a) (e : EnvIx) : ¬Delivers k a e := by
  cases a with
  | syscall c v0 =>
    rintro ⟨cur, k₁, -, -, hd⟩
    cases c with
    | ipcTrySend envid value srcva perm => exact ha.elim
    | _ => exact hd.elim
  | _ => exact id

/-- **A step that neither receives nor sends** leaves the messages alone when it leaves the statuses and the pages. -/
theorem Inv.plain (h : t.Inv) (ha : Plain a) (hsafe : MapSafe t.kernel a) (hs : Mos.step t.kernel a = some k')
    (hst : ∀ e, (k'.envs e).envStatus = (t.kernel.envs e).envStatus)
    (hhold : ∀ e, (t.kernel.envs e).envStatus ≠ .free → ∀ d l f, t.log e = .sent d :: l → d.page = some f →
      Holds t.kernel e f → Holds k' e f) : Inv { kernel := k', log := t.logged a } := by
  obtain ⟨hrecv, hrun⟩ := moves_flags (step_moves hs) (fun dstva v0 hc => by rw [hc] at ha; exact ha)
    (fun envid value srcva perm v0 hc => by rw [hc] at ha; exact ha)
  refine h.next (h.accounted.step_safe hsafe hs) hrun (fun e he => by rwa [hst e] at he) fun e he => ?_
  refine .none (logged_plain t ha e) (hst e) ?_
    (step_messages h.accounted.alive hs (not_delivers_plain ha e)) (hhold e he)
  have hflag := congrFun hrecv e
  exact not_congr (by simpa [Kernel.procs] using hflag)

/-- A step that is no call leaves `env_ipc_dstva` alone, and every status. -/
theorem step_fields {k : Kernel} (ha : ∀ c v0, a ≠ .syscall c v0) (hs : Mos.step k a = some k') (e : EnvIx) :
    (k'.envs e).envIpcDstva = (k.envs e).envIpcDstva ∧ (k'.envs e).envStatus = (k.envs e).envStatus := by
  cases a with
  | tick => exact ⟨(schedule_spaces hs).2.2 e, congrFun (Tracked.picks_flags (schedule_procs hs)).1 e⟩
  | exec tf =>
    obtain ⟨cur, -, hu⟩ := Option.bind_eq_some_iff.1 hs
    cases hu
    exact ⟨rfl, rfl⟩
  | miss va victim =>
    obtain ⟨cur, -, hu⟩ := Option.bind_eq_some_iff.1 hs
    simp only [userStep] at hu
    split at hu
    · cases hu
    · obtain ⟨pm, -, rfl⟩ := Option.map_eq_some_iff.1 hu
      exact ⟨rfl, rfl⟩
  | store va w =>
    obtain ⟨cur, -, hu⟩ := Option.bind_eq_some_iff.1 hs
    obtain ⟨pm, -, rfl⟩ := Option.map_eq_some_iff.1 hu
    exact ⟨rfl, rfl⟩
  | mod va =>
    obtain ⟨cur, -, hu⟩ := Option.bind_eq_some_iff.1 hs
    simp only [userStep, doTlbMod] at hu
    obtain ⟨k₁, hw, hrest⟩ := Option.bind_eq_some_iff.1 hu
    obtain ⟨pm, rfl⟩ := storeWords_eq hw
    split at hrest
    · cases hrest
    · cases hrest
      exact ⟨rfl, rfl⟩
  | syscall c v0 => exact absurd rfl (ha c v0)
  | noSys =>
    obtain ⟨cur, -, hu⟩ := Option.bind_eq_some_iff.1 hs
    cases hu
    exact ⟨rfl, rfl⟩

/-- **No call.** -/
theorem Inv.noCall (h : t.Inv) (ha : ∀ c v0, a ≠ .syscall c v0) (hsafe : MapSafe t.kernel a)
    (hs : Mos.step t.kernel a = some k') : Inv { kernel := k', log := t.logged a } := by
  have hplain : Plain a := by
    cases a with
    | syscall c v0 => exact absurd rfl (ha c v0)
    | _ => trivial
  refine h.plain hplain hsafe hs (fun e => (step_fields ha hs e).2) fun e he d l f _ _ hf => ?_
  obtain ⟨g, hg⟩ := h.accounted.framed
  obtain ⟨g', hg'⟩ := (h.accounted.step_safe hsafe hs).framed
  obtain ⟨hdst, hst⟩ := step_fields ha hs e
  rw [hg'.holds_iff (hst ▸ he), hdst]
  exact hg.step_retains h.accounted.alive ha hs e he _ (hg.dst e) f ((hg.holds_iff he).1 hf)

/-- The pages of `e` after a step that keeps them and the address it receives at. -/
theorem Inv.holds (h : t.Inv) (hacc : Accounted k') (hret : Retains t.kernel k') {e : EnvIx}
    (he : (t.kernel.envs e).envStatus ≠ .free) (he' : (k'.envs e).envStatus ≠ .free)
    (hdst : (k'.envs e).envIpcDstva = (t.kernel.envs e).envIpcDstva) {f : Nat} (hf : Holds t.kernel e f) :
    Holds k' e f := by
  obtain ⟨g, hg⟩ := h.accounted.framed
  obtain ⟨g', hg'⟩ := hacc.framed
  rw [hg'.holds_iff he', hdst]
  exact hret e he _ (hg.dst e) f ((hg.holds_iff he).1 hf)

/-- **Another call.** -/
theorem Inv.otherCall (h : t.Inv) {c : Syscall} {v0 : Word} (ha : Plain (.syscall c v0))
    (hsafe : MapSafe t.kernel (.syscall c v0)) (hdom : t.InDomain (.syscall c v0))
    (hs : Mos.step t.kernel (.syscall c v0) = some k') :
    Inv { kernel := k', log := t.logged (.syscall c v0) } := by
  have hacc := h.accounted.step_safe hsafe hs
  have hs₀ := hs
  obtain ⟨cur, hcur, hu⟩ := Option.bind_eq_some_iff.1 hs
  obtain ⟨k₁, r, hargs, hcall, rfl⟩ := doSyscall_inv hu
  have hlive := h.accounted.alive.running cur hcur
  obtain ⟨hst, hno⟩ : (∀ e, ((setV0 v0 r).envs e).envStatus = (t.kernel.envs e).envStatus) ∧
      ∀ e d l, t.log e = .sent d :: l → d.page ≠ none → ¬c.remaps k₁ cur e (t.kernel.envs e).envIpcDstva := by
    cases c with
    | ipcRecv dstva => exact ha.elim
    | ipcTrySend envid value srcva perm => exact ha.elim
    | _ => exact hdom cur k₁ _ hcur hargs hs₀
  obtain ⟨g, hg⟩ := h.accounted.framed
  have hret := hg.readArgs_retains hcur hlive hargs
  obtain ⟨hacc₁, hcur₁⟩ := h.accounted.readArgs hcur hargs
  obtain ⟨g₁, hg₁⟩ := hacc₁.framed
  obtain ⟨henv₁, hv0⟩ : k₁.envs = t.kernel.envs ∧ (setV0 v0 r).envs = r.2.envs ∧ (setV0 v0 r).pm = r.2.pm := by
    obtain ⟨pm, rfl⟩ := readArgs_eq hargs
    obtain ⟨_ | _ | _, k₂⟩ := r <;> exact ⟨rfl, rfl, rfl⟩
  have hleaves := hg₁.call_leaves hacc₁.alive hcur₁ (fun dstva hc => by rw [hc] at ha; exact ha)
    (fun envid value srcva perm hc => by rw [hc] at ha; exact ha) (hsafe cur k₁ hcur hargs) hcall
    (fun e => by rw [← hv0.1, henv₁]; exact hst e)
  refine h.plain ha hsafe hs₀ hst fun e he d l f hl hp hf => ?_
  have he₁ : (k₁.envs e).envStatus ≠ .free := by rwa [henv₁]
  have he' : ((setV0 v0 r).envs e).envStatus ≠ .free := by rwa [hst e]
  have hf₁ := (hg₁.holds_iff he₁).1 (h.holds hacc₁ hret he he₁ (by rw [henv₁]) hf)
  obtain ⟨g', hg'⟩ := hacc.framed
  rw [hg'.holds_iff he']
  unfold Kernel.frameOf
  rw [hv0.1, hv0.2, hleaves.dst e he₁]
  refine hleaves.pages e he₁ _ (hg₁.dst e) ?_ f hf₁
  rw [henv₁]
  exact hno e d l hl (by rw [hp]; exact Option.some_ne_none f)

/-- **A receive.** -/
theorem Inv.recv (h : t.Inv) {dstva v0 : Word} (hsafe : MapSafe t.kernel (.syscall (.ipcRecv dstva) v0))
    (hs : Mos.step t.kernel (.syscall (.ipcRecv dstva) v0) = some k') :
    Inv { kernel := k', log := t.logged (.syscall (.ipcRecv dstva) v0) } := by
  have hacc := h.accounted.step_safe hsafe hs
  have hmsg : ∀ e, ipcRecv (k'.envs e) = ipcRecv (t.kernel.envs e) := by
    refine fun e => step_messages h.accounted.alive hs ?_
    rintro ⟨_, _, _, _, hd⟩
    exact hd
  obtain ⟨cur, hcur, hu⟩ := Option.bind_eq_some_iff.1 hs
  obtain ⟨k₁, r, hargs, hcall, rfl⟩ := doSyscall_inv hu
  have hlive := h.accounted.alive.running cur hcur
  obtain ⟨g, hg⟩ := h.accounted.framed
  have hret := hg.readArgs_retains hcur hlive hargs
  have hrecv : ∀ e, receives t.kernel e (.syscall (.ipcRecv dstva) v0) =
      decide (cur = e ∧ ¬(dstva ≠ 0 ∧ isIllegalVa dstva = true)) := by
    intro e
    simp only [receives, hcur, Option.some.injEq]
  obtain ⟨pm, rfl⟩ := readArgs_eq hargs
  rcases recv_inv (by exact hlive) hcall with ⟨hill, rfl⟩ | ⟨hlegal, k₂, rfl, hb⟩
  · refine h.next hacc (.inl rfl) (fun e he => he) fun e he => ?_
    refine .none ?_ rfl Iff.rfl (hmsg e) (fun d l f _ _ hf => h.holds hacc hret he he rfl hf)
    unfold logged
    rw [hrecv, decide_eq_false (fun hc => hc.2 hill)]
    rfl
  · have hret₂ : Retains t.kernel k₂ := hret.trans (.of_same hb.spaces) (fun _ => Iff.rfl)
    refine h.next hacc (.inr hb.running) (fun e he => (hb.spaces.status e).1 he) fun e he => ?_
    have he' : (k₂.envs e).envStatus ≠ .free := (hb.spaces.status e).2 he
    by_cases hce : e = cur
    · subst hce
      refine .received ?_ ?_ hb.recving hb.status (fun hc => ?_)
      · unfold logged
        rw [hrecv, decide_eq_true ⟨rfl, hlegal⟩]
        rfl
      · by_contra hrec
        exact (h.blocked e hlive hrec).2 hcur
      · have hst := hb.running e hc
        rw [hb.status] at hst
        cases hst
    · obtain ⟨hst, hre, hdst⟩ := hb.other e hce
      refine .none ?_ hst hre (hmsg e) (fun d l f _ _ hf => h.holds hacc hret₂ he he' hdst hf)
      unfold logged
      rw [hrecv, decide_eq_false (fun hc => hce hc.1.symm)]
      rfl

theorem sentTo_eq {k k₁ : Kernel} {cur : EnvIx} {envid value srcva perm : Word} {r : Sysret × Kernel} (v0 : Word)
    (hcur : k.curenv = some cur) (hargs : readArgs k cur = some k₁)
    (hcall : sysIpcTrySend k₁ cur envid value srcva perm = some r) (x : EnvIx) :
    sentTo k x (.syscall (.ipcTrySend envid value srcva perm) v0) =
      if r.1 = .ret 0 ∧ envid2env k₁ cur envid false = some x then
        some { value := value, sender := (k₁.envs cur).envId
               page := if srcva = 0 then none else pageAt k₁ cur srcva }
      else none := by
  simp only [sentTo, hcur, hargs, hcall, Option.bind_some]

theorem logged_send {envid value srcva perm : Word} (v0 : Word) {cur : EnvIx} {k₁ : Kernel} {r : Sysret × Kernel}
    (hcur : t.kernel.curenv = some cur) (hargs : readArgs t.kernel cur = some k₁)
    (hcall : sysIpcTrySend k₁ cur envid value srcva perm = some r) (x : EnvIx) :
    t.logged (.syscall (.ipcTrySend envid value srcva perm) v0) x =
      if r.1 = .ret 0 ∧ envid2env k₁ cur envid false = some x then
        .sent { value := value, sender := (k₁.envs cur).envId
                page := if srcva = 0 then none else pageAt k₁ cur srcva } :: t.log x
      else t.log x := by
  show (match sentTo t.kernel x (.syscall (.ipcTrySend envid value srcva perm) v0) with
    | some d => MailEvent.sent d :: t.log x
    | none => t.log x) = _
  rw [sentTo_eq v0 hcur hargs hcall]
  by_cases hc : r.1 = .ret 0 ∧ envid2env k₁ cur envid false = some x
  · rw [if_pos hc, if_pos hc]
  · rw [if_neg hc, if_neg hc]

/-- **A send that returns 0**: the receiver is woken with the message, and pages stay where they are but for the one
that comes with it. -/
theorem Inv.deliver (h : t.Inv) {envid value srcva perm v0 : Word} {cur e : EnvIx} {k₁ : Kernel} {r : Sysret × Kernel}
    {q : Tailq EnvIx} (hacc : Accounted k') (hcur : t.kernel.curenv = some cur)
    (hargs : readArgs t.kernel cur = some k₁) (hcall : sysIpcTrySend k₁ cur envid value srcva perm = some r)
    (hzero : r.1 = .ret 0) (he : envid2env k₁ cur envid false = some e) (hrec : (k₁.envs e).envIpcRecving ≠ 0)
    (henvs : k'.envs = (woken k₁ cur e value perm q).envs) (hcur' : k'.curenv = t.kernel.curenv)
    (hother : ∀ x, x ≠ e → (t.kernel.envs x).envStatus ≠ .free → ∀ f, Holds t.kernel x f → Holds k' x f)
    (hpage : srcva ≠ 0 → ∀ f, pageAt k₁ cur srcva = some f → Holds k' e f) :
    Inv { kernel := k', log := t.logged (.syscall (.ipcTrySend envid value srcva perm) v0) } := by
  have hlive := h.accounted.alive.running cur hcur
  have henv₁ : k₁.envs = t.kernel.envs := by
    obtain ⟨pm, rfl⟩ := readArgs_eq hargs
    rfl
  have helive : (t.kernel.envs e).envStatus ≠ .free := by
    rw [← henv₁]
    exact envid2env_live (k := k₁) (by rw [henv₁]; exact hlive) he
  have hself : k'.envs e = (t.kernel.envs e).deliver value (k₁.envs cur).envId perm := by
    rw [henvs]
    show (k₁.setEnv e (fun v => v.deliver value (k₁.envs cur).envId perm)).envs e = _
    rw [Kernel.setEnv_self, congrFun henv₁ e]
  have hne : ∀ x, x ≠ e → k'.envs x = t.kernel.envs x := by
    intro x hx
    rw [henvs]
    show (k₁.setEnv e (fun v => v.deliver value (k₁.envs cur).envId perm)).envs x = _
    rw [Kernel.setEnv_ne _ _ hx, congrFun henv₁ x]
  refine h.next hacc (.inl hcur') (fun x hx => ?_) fun x hx => ?_
  · by_cases hxe : x = e
    · exact hxe ▸ helive
    · rwa [hne x hxe] at hx
  · by_cases hxe : x = e
    · subst hxe
      have hlog := logged_send (t := t) v0 hcur hargs hcall x
      rw [if_pos ⟨hzero, he⟩] at hlog
      refine .sent _ hlog ?_ ?_ ?_ ?_ fun f hf => ?_
      · rwa [henv₁] at hrec
      · rw [hself]
        rfl
      · rw [hself]
        rfl
      · rw [hself]
        rfl
      · by_cases h0 : srcva = 0
        · simp only [h0, if_true] at hf
          cases hf
        · simp only [if_neg h0] at hf
          exact hpage h0 f hf
    · have hlog := logged_send (t := t) v0 hcur hargs hcall x
      rw [if_neg (fun hc => hxe (Option.some.inj (hc.2.symm.trans he)))] at hlog
      refine .none hlog ?_ ?_ ?_ (fun d l f _ _ hf => hother x hxe hx f hf)
      all_goals rw [hne x hxe]

/-- **A send.** -/
theorem Inv.send (h : t.Inv) {envid value srcva perm v0 : Word}
    (hsafe : MapSafe t.kernel (.syscall (.ipcTrySend envid value srcva perm) v0))
    (hdom : t.InDomain (.syscall (.ipcTrySend envid value srcva perm) v0))
    (hs : Mos.step t.kernel (.syscall (.ipcTrySend envid value srcva perm) v0) = some k') :
    Inv { kernel := k', log := t.logged (.syscall (.ipcTrySend envid value srcva perm) v0) } := by
  have hacc := h.accounted.step_safe hsafe hs
  obtain ⟨cur, hcur, hu⟩ := Option.bind_eq_some_iff.1 hs
  obtain ⟨k₁, r, hargs, hcall, rfl⟩ := doSyscall_inv hu
  have hlive := h.accounted.alive.running cur hcur
  have hsend : sysIpcTrySend k₁ cur envid value srcva perm = some r := hcall
  have hdom₁ := hdom cur k₁ hcur hargs
  have hsafe₁ := hsafe cur k₁ hcur hargs
  obtain ⟨g, hg⟩ := h.accounted.framed
  have hret := hg.readArgs_retains hcur hlive hargs
  obtain ⟨hacc₁, hcur₁⟩ := h.accounted.readArgs hcur hargs
  obtain ⟨g₁, hg₁⟩ := hacc₁.framed
  obtain ⟨henv₁, hrun₁⟩ : k₁.envs = t.kernel.envs ∧ k₁.curenv = t.kernel.curenv := by
    obtain ⟨pm, rfl⟩ := readArgs_eq hargs
    exact ⟨rfl, rfl⟩
  -- the pages of those the message does not go to
  have hkept : ∀ x, (t.kernel.envs x).envStatus ≠ .free → ∀ f, Holds t.kernel x f → Holds k₁ x f := by
    intro x hx f hf
    exact h.holds hacc₁ hret hx (by rw [henv₁]; exact hx) (by rw [henv₁]) hf
  cases send_inv hsend with
  | refused i hneg hno =>
    have hlog : ∀ x, t.logged (.syscall (.ipcTrySend envid value srcva perm) v0) x = t.log x := by
      intro x
      rw [logged_send v0 hcur hargs hsend, if_neg]
      rintro ⟨hz, -⟩
      have hz' : i = 0 := by simpa using hz
      omega
    have hx : ∀ x, (setV0 v0 (Sysret.ret i, k₁)).envs x = t.kernel.envs x := fun x => congrFun henv₁ x
    refine h.next hacc (.inl hrun₁) (fun x he => by rwa [hx] at he) fun x he => ?_
    refine .none (hlog x) ?_ ?_ ?_ (fun d l f _ _ hf => hkept x he f hf)
    all_goals rw [hx]
  | value e q he hrec hq h0 =>
    refine h.deliver (q := q) hacc hcur hargs hsend rfl he hrec rfl hrun₁ (fun x hxe hx f hf => ?_)
      (fun hne => absurd h0 hne)
    show Installed k₁.pm ((woken k₁ cur e value perm q).envs x).envPgdir
        ((woken k₁ cur e value perm q).envs x).envIpcDstva f
    rw [woken_ne k₁ cur value perm q hxe]
    exact hkept x hx f hf
  | lost e q he hrec hq h0 hva hl =>
    rcases hdom₁ e ⟨.inr hva, he, hrec⟩ with hz | ⟨⟨pp, pte, hpp⟩, -⟩
    · exact absurd hz h0
    · rw [hl] at hpp
      cases hpp
  | page e q pp pte i pm he hrec hq h0 hva hl hi =>
    have hlive₁ : (k₁.envs cur).envStatus ≠ .free := by rwa [henv₁]
    have helive := envid2env_live hlive₁ he
    have hf : k₁.frameOf cur srcva = some pp := (hg₁.lookup hlive₁ (legal_lt hva) hl).symm
    have hroom : HasRoom k₁ e (k₁.envs e).envIpcDstva := by
      rcases hdom₁ e ⟨.inr hva, he, hrec⟩ with hz | ⟨-, -, hroom⟩
      · exact absurd hz h0
      · exact hroom
    have hmap : FrameSafe k₁ e (k₁.envs e).envIpcDstva perm pp := by
      rcases hsafe₁ e _ pp ⟨h0, he, hrec, rfl, hf⟩ with ⟨ht, hfree⟩ | hmap
      · exact absurd hfree (hroom ht)
      · exact hmap
    obtain ⟨rfl, hnew, hold⟩ := hg₁.insert_places hlive₁ helive (legal_lt hva) (hg₁.dst e) hf hroom hmap hi
    -- the message changes no directory and no address
    have hpg : ∀ x, ((woken k₁ cur e value perm q).envs x).envPgdir = (k₁.envs x).envPgdir :=
      fun x => woken_field k₁ cur e x value perm q (fun _ => rfl)
    have hdst : ∀ x, ((woken k₁ cur e value perm q).envs x).envIpcDstva = (k₁.envs x).envIpcDstva :=
      fun x => woken_field k₁ cur e x value perm q (fun _ => rfl)
    have hholds : ∀ x f, (k₁.envs x).envStatus ≠ .free → (k₁.setPm pm).frameOf x (k₁.envs x).envIpcDstva = some f →
        Holds (setV0 v0 (Sysret.ret 0, (woken k₁ cur e value perm q).setPm pm)) x f := by
      intro x f hx hfx
      obtain ⟨g', hg'⟩ := hacc.framed
      have hx' : ((woken k₁ cur e value perm q).envs x).envStatus ≠ .free := by
        by_cases hxe : x = e
        · rw [hxe]
          show ((k₁.setEnv e (fun v => v.deliver value (k₁.envs cur).envId perm)).envs e).envStatus ≠ .free
          rw [Kernel.setEnv_self]
          exact EnvStatus.noConfusion
        · rwa [woken_ne k₁ cur value perm q hxe]
      rw [hg'.holds_iff hx']
      show pm.frame (slotOf ((woken k₁ cur e value perm q).envs x).envPgdir
        ((woken k₁ cur e value perm q).envs x).envIpcDstva) = some f
      rw [hpg, hdst]
      exact hfx
    refine h.deliver (q := q) hacc hcur hargs hsend rfl he hrec rfl hrun₁ (fun x hxe hx f hf => ?_)
      (fun _ f hpage => ?_)
    · have hx₁ : (k₁.envs x).envStatus ≠ .free := by rwa [henv₁]
      have hfx := (hg₁.holds_iff hx₁).1 (hkept x hx f hf)
      rw [← hold x hx₁ hxe _ (hg₁.dst x)] at hfx
      exact hholds x f hx₁ hfx
    · obtain rfl : pp = f := by
        unfold pageAt at hpage
        rw [hl] at hpage
        exact Option.some.inj hpage
      exact hholds e pp helive hnew

/-! ## Runs -/

/-- **One step.** -/
theorem Inv.step (h : t.Inv) (hsafe : MapSafe t.kernel a) (hdom : t.InDomain a) (hs : Mos.step t.kernel a = some k') :
    Inv { kernel := k', log := t.logged a } := by
  cases a with
  | syscall c v0 =>
    cases c with
    | ipcRecv dstva => exact h.recv hsafe hs
    | ipcTrySend envid value srcva perm => exact h.send hsafe hdom hs
    | _ => exact h.otherCall trivial hsafe hdom hs
  | _ => exact h.noCall (fun _ _ hc => by cases hc) hsafe hs

theorem Ready.inv (h : t.Ready) : t.Inv := by
  obtain ⟨hrun, hrec, hlog⟩ := h
  refine ⟨?_, fun e he => ?_, fun e he hr => absurd (hrec e he) hr, fun e _ d l hl => ?_⟩
  · exact Run.invariant Accounted (fun k hk => Accounted.linked hk)
      (fun k a k' hk hsafe hs => hk.step_safe hsafe hs) _ hrun
  · rw [hlog e, hrec e he]
    exact .idle
  · rw [hlog e] at hl
    cases hl

/-- **A send to nobody who receives changes nothing.** -/
theorem send_refused {k : Kernel} {cur : EnvIx} {envid value srcva perm : Word}
    (hs : sysIpcTrySend k cur envid value srcva perm = some (.ret (-eIpcNotRecv), k')) : k' = k := by
  generalize hr : (Sysret.ret (-eIpcNotRecv), k') = r at hs
  cases send_inv hs with
  | refused i _ _ =>
    cases hr
    rfl
  | value _ _ _ _ _ _ => cases hr
  | lost _ _ _ _ _ _ _ _ => cases hr
  | page e q pp pte i pm _ _ _ _ _ _ hi =>
    obtain ⟨rfl, -⟩ : -eIpcNotRecv = i ∧ _ := by simpa using hr
    rcases pageInsert_code hi with hc | hc <;> cases hc

/-- **The messages are intact** in every state of every run, as long as every call maps frames soundly. -/
theorem message_integrity (t : Mailed) (h : Run Ready step (fun t a => MapSafe t.kernel a ∧ t.InDomain a) t) :
    t.Integrity := by
  have hinv := Run.invariant Inv (fun t ht => Ready.inv ht) (fun t a t' ht ha hs => by
    obtain ⟨k', hk', rfl⟩ := Option.map_eq_some_iff.1 hs
    exact ht.step ha.1 ha.2 hk') t h
  exact ⟨hinv.exchanges, hinv.blocked, hinv.message, fun cur envid value srcva perm k' hs => send_refused hs⟩

/-! ## The small machine -/

/-- A child is made runnable, and its parent allocates a page. -/
def small : Option Mailed :=
  ((mipsInit smallBoard [emptyProgram]).bind (exec Mos.step
    (fun k a => Granted.mapSafeB { kernel := k, grants := fun _ _ => False } a)
    [.tick, .exec stackFrame, .syscall .exofork 0, .syscall (.setEnvStatus 4097 1) 0,
      .syscall (.memAlloc 0 0x800000 pteD) 0])).bind (fun k =>
    if ∀ e : EnvIx, (k.envs e).envIpcRecving = 0 then some { kernel := k, log := fun _ => [] } else none)

theorem ready_small (t : Mailed) (h : small = some t) : t.Ready := by
  obtain ⟨k, hk, hrest⟩ := Option.bind_eq_some_iff.1 h
  obtain ⟨k₀, hk₀, he⟩ := Option.bind_eq_some_iff.1 hk
  split at hrest
  · rename_i hrec
    cases hrest
    refine ⟨?_, fun e _ => hrec e, fun _ => rfl⟩
    exact Run.of_exec (fun k a => Granted.mapSafe_of_mapSafeB _ a) _ k₀ k (.start k₀ (Granted.linked_small k₀ hk₀)) he
  · cases hrest

/-- A check that implies `InDomain`, of everything but the other calls. -/
def inDomainB (t : Mailed) : Act → Bool
  | .syscall (.ipcRecv _) _ => true
  | .syscall (.ipcTrySend envid _ srcva _) _ =>
    t.kernel.curenv.all (fun cur => (readArgs t.kernel cur).all (fun k₁ => (envid2env k₁ cur envid false).all (fun e =>
      decide (srcva = 0) || (pageAt k₁ cur srcva).isSome && !isIllegalVa (k₁.envs e).envIpcDstva &&
        decide (k₁.pm.pageFreeList ≠ []))))
  | .syscall _ _ => false
  | _ => true

theorem installed_of_pageAt {k : Kernel} {e : EnvIx} {va : Word} {f : Nat} :
    pageAt k e va = some f ↔ Installed k.pm (k.envs e).envPgdir va f := by
  unfold pageAt Installed
  constructor
  · intro h
    obtain ⟨l, hl, hf⟩ := Option.bind_eq_some_iff.1 h
    obtain ⟨⟨f', pte⟩, rfl, rfl⟩ := Option.map_eq_some_iff.1 hf
    exact ⟨pte, hl⟩
  · rintro ⟨pte, hl⟩
    rw [hl]
    rfl

theorem inDomain_of_inDomainB (t : Mailed) (a : Act) (h : t.inDomainB a = true) : t.InDomain a := by
  cases a with
  | syscall c v0 =>
    cases c with
    | ipcRecv dstva => trivial
    | ipcTrySend envid value srcva perm =>
      intro cur k₁ hcur hargs e hreach
      simp only [inDomainB, hcur, hargs, hreach.2.1, Option.all_some, Bool.or_eq_true,
        Bool.and_eq_true, Bool.not_eq_true',
        decide_eq_true_eq] at h
      refine h.imp_right fun ⟨⟨hp, hd⟩, hfree⟩ => ?_
      obtain ⟨pp, hpp⟩ := Option.isSome_iff_exists.1 hp
      exact ⟨⟨pp, installed_of_pageAt.1 hpp⟩, hd, fun _ => hfree⟩
    | _ => cases h
  | _ => trivial

/-- A check that implies `MapSafe`, sends included. -/
def safeB (t : Mailed) : Act → Bool
  | .syscall (.ipcTrySend _ _ srcva perm) _ =>
    ppn perm = 0 && t.kernel.curenv.all (fun cur => (readArgs t.kernel cur).all (fun k₁ =>
      (k₁.frameOf cur srcva).all (fun pp => k₁.pm.ppRef pp < 65535)))
  | a => Granted.mapSafeB { kernel := t.kernel, grants := fun _ _ => False } a

theorem safe_of_safeB (t : Mailed) (a : Act) (h : t.safeB a = true) : MapSafe t.kernel a := by
  cases a with
  | syscall c v0 =>
    cases c with
    | ipcTrySend envid value srcva perm =>
      rintro cur k₁ hcur hr e va pp ⟨-, -, -, -, hf⟩
      simp only [safeB, hcur, hr, hf, Option.all_some, Bool.and_eq_true, decide_eq_true_eq] at h
      refine .inr ⟨?_, .inr h.2⟩
      show pp ||| ppn perm = pp
      rw [h.1, Nat.or_zero]
    | _ => exact Granted.mapSafe_of_mapSafeB { kernel := t.kernel, grants := fun _ _ => False } _ h
  | _ => trivial

/-- The child waits for a page, and gets one. -/
theorem message_integrity_sent : ∃ t : Mailed, (t.kernel.envs 1).envIpcValue = 7 ∧ t.Integrity := by
  obtain ⟨t, hr, ht⟩ := @Run.exists_of_exec Mailed Act Ready step (fun t a => MapSafe t.kernel a ∧ t.InDomain a)
    (fun t a => t.safeB a && t.inDomainB a)
    (fun t a h => by
      rw [Bool.and_eq_true] at h
      exact ⟨safe_of_safeB t a h.1, inDomain_of_inDomainB t a h.2⟩)
    [.tick, .syscall (.ipcRecv 0x800000) 0, .syscall (.ipcTrySend 4097 7 0x800000 pteD) 0]
    small ready_small (fun t => decide ((t.kernel.envs 1).envIpcValue = 7)) (by decide +kernel)
  exact ⟨t, of_decide_eq_true ht, message_integrity t hr⟩

/-- **The receiver gets another page**: the permission that its sender gives changes the frame number. -/
theorem message_integrity_fails : ¬∀ t, Run Ready step InDomain t → t.Integrity := by
  obtain ⟨t, hr, ht⟩ := @Run.exists_of_exec Mailed Act Ready step InDomain inDomainB inDomain_of_inDomainB
    [.tick, .syscall (.ipcRecv 0x800000) 0, .syscall (.ipcTrySend 4097 7 0x800000 0x2000) 0]
    small ready_small
    (fun t => decide ((t.kernel.envs 1).envStatus ≠ .free) &&
      match t.log 1 with
      | .sent d :: _ => d.page.isSome && decide (pageAt t.kernel 1 (t.kernel.envs 1).envIpcDstva ≠ d.page)
      | _ => false) (by decide +kernel)
  rw [Bool.and_eq_true, decide_eq_true_eq] at ht
  obtain ⟨hlive, hlog⟩ := ht
  intro hall
  split at hlog
  · rename_i d l hl
    rw [Bool.and_eq_true, decide_eq_true_eq] at hlog
    obtain ⟨f, hf⟩ := Option.isSome_iff_exists.1 hlog.1
    have hholds := ((hall t hr).message 1 hlive d l hl).2.2 f hf
    exact hlog.2 ((installed_of_pageAt.2 hholds).trans hf.symm)
  · cases hlog

end Mailed

end Mos
