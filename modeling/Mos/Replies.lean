import Mos.Creating
import Mos.Exchange
/-!
# Replies — who answers a receive

`fsipc` sends its request to the file server and then takes what the next `ipc_recv` gets; `runcmd` takes what the next
one gets for the status of its child.  Neither looks at the sender.  The client, the server and all others run here in
any order; every receive has the message that it is for, as long as nobody but the child sends to a client that waits.
-/
namespace Mos

/-! ## The mailbox -/

/-- What the record of an environment has for its `ipc_recv`. -/
structure Mailbox where
  recving : Bool
  message : Message

namespace Mailbox

def ofEnv (v : Env) : Mailbox := ⟨decide (v.envIpcRecving ≠ 0), ipcRecv v⟩

/-- `sys_ipc_recv` -/
def listen (b : Mailbox) : Mailbox := { b with recving := true }

/-- `sys_ipc_try_send`, to one that receives. -/
def deliver (b : Mailbox) (m : Message) : Mailbox := { b with recving := false, message := m }

/-- **A receive of the kernel listens.** -/
theorem ofEnv_recv (v : Env) (dstva : Word) : ofEnv (v.startRecv dstva) = (ofEnv v).listen := rfl

/-- **A send of the kernel delivers**, when it gets to the receiver. -/
theorem ofEnv_send {k : Kernel} {cur e : EnvIx} {envid value srcva perm : Word} {r : Sysret × Kernel}
    (h : sysIpcTrySend k cur envid value srcva perm = some r) (hd : Reaches k cur envid srcva e) :
    (r.2.envs e).envIpcRecving = 0 ∧
      ofEnv (r.2.envs e) = (ofEnv (k.envs e)).deliver ⟨value, (k.envs cur).envId, pteV ||| perm⟩ := by
  have hwoken : ∀ e' q, envid2env k cur envid false = some e' →
      ((woken k cur e' value perm q).envs e).envIpcRecving = 0 := by
    intro e' q he'
    obtain rfl : e = e' := by simpa using hd.2.1.symm.trans he'
    show ((k.setEnv e (fun v => v.deliver value (k.envs cur).envId perm)).envs e).envIpcRecving = 0
    rw [Kernel.setEnv_self]
    rfl
  have hflag : (r.2.envs e).envIpcRecving = 0 := by
    cases send_inv h with
    | refused i _ hno => exact absurd hd (hno e)
    | value e' q he hr hq h0 => exact hwoken e' q he
    | lost e' q he hr hq h0 hva => exact hwoken e' q he
    | page e' q pp pte i pm he hr hq h0 hva => exact hwoken e' q he
  refine ⟨hflag, ?_⟩
  unfold ofEnv deliver
  rw [send_delivered h hd, hflag]
  rfl

theorem ofEnv_refuse {k : Kernel} {cur e : EnvIx} {envid value srcva perm : Word}
    (hva : ¬(srcva ≠ 0 ∧ isIllegalVa srcva = true)) (hid : envid2env k cur envid false = some e)
    (hr : (ofEnv (k.envs e)).recving = false) :
    sysIpcTrySend k cur envid value srcva perm = some (.ret (-eIpcNotRecv), k) := by
  have hflag : (k.envs e).envIpcRecving = 0 := by simpa [ofEnv] using hr
  unfold sysIpcTrySend
  rw [if_neg hva, hid]
  dsimp only
  rw [if_pos hflag]
  rfl

end Mailbox

/-! ## The parties -/

/-- What a client does at an `ipc_recv`. -/
inductive Call where
  /-- `fsipc`, for its `n`-th request. -/
  | fsipc (n : Nat) (rq : Fsreq)
  /-- `runcmd`, after `spawn`. -/
  | status (child : Word)

inductive ClientPc where
  | idle
  /-- In the `ipc_send` of `fsipc`. -/
  | sending (n : Nat) (rq : Fsreq)
  /-- At `ipc_recv`. -/
  | calling (c : Call)
  /-- Blocked in `syscall_ipc_recv`. -/
  | waiting (c : Call)

inductive ServerPc where
  /-- In the `ipc_recv` of `serve`. -/
  | listening
  /-- With a request; it is `none` when `serve` does not accept it. -/
  | serving (whom : Word) (n : Nat) (rq : Option Fsreq)
  /-- In the `ipc_send` at the end of a function of `serve_table`. -/
  | answering (whom : Word) (n : Nat) (rq : Fsreq) (reply : Reply)

/-- A reply that was sent to a request. -/
structure Answered where
  ticket : Nat
  rq : Fsreq
  reply : Reply

/-- The permission that the server sends. -/
def Reply.perm (reply : Reply) : Word :=
  match reply.page with
  | .none => 0
  | .openFile _ => pteD ||| pteLibrary
  | .block _ => pteD ||| pteLibrary

/-- The client, its mailbox and the server, with the numbers given to requests, the replies sent, the statuses sent to
the client, and what its receives have returned. -/
structure Parties where
  serverId : Word
  clientId : Word
  client : ClientPc
  mailbox : Mailbox
  server : ServerPc
  srv : Server
  tickets : Nat
  answers : List Answered
  exits : List (Word × Word)
  returns : List (Call × Message)

inductive PartyAct where
  /-- The client calls `fsipc`. -/
  | request (rq : Fsreq)
  /-- The client receives the status of a child. -/
  | collect (child : Word)
  /-- The client goes on. -/
  | client
  /-- The server goes on; the kernel has these counters for the pages of the open files. -/
  | server (refs : Nat → Nat)
  /-- Another process sends to the server. -/
  | other (p : Word) (rq : Option Fsreq)
  /-- A process sends its status to the client: at the end of `libmain`, in `_user_panic`, or where `runcmd` hands one
  on. -/
  | exits (p v : Word)
  /-- A process sends to the client for another reason. -/
  | send (p : Word) (m : Word × Word)

namespace Parties

/-- The message of a reply. -/
def replied (t : Parties) (reply : Reply) : Message := ⟨BitVec.ofInt 32 reply.value, t.serverId, pteV ||| reply.perm⟩

/-- The message of `ipc_send(parent_id, res, 0, 0)`. -/
def status (p v : Word) : Message := ⟨v, p, pteV ||| 0⟩

def clientStep (t : Parties) : Option Parties :=
  match t.client with
  | .idle => none
  | .sending n rq =>
    match t.server with
    | .listening => some { t with server := .serving t.clientId n (some rq), client := .calling (.fsipc n rq) }
    | _ => some t
  | .calling c => some { t with mailbox := t.mailbox.listen, client := .waiting c }
  | .waiting c =>
    if t.mailbox.recving then none
    else some { t with client := .idle, returns := t.returns ++ [(c, t.mailbox.message)] }

def serverStep (t : Parties) (refs : Nat → Nat) : Option Parties :=
  match t.server with
  | .listening => none
  | .serving _ _ none => some { t with server := .listening }
  | .serving whom n (some rq) =>
    match serveTable refs rq t.srv with
    | some (.ok reply, srv) => some { t with srv := srv, server := .answering whom n rq reply }
    | _ => none
  | .answering whom n rq reply =>
    if whom = t.clientId then
      if t.mailbox.recving then
        some { t with server := .listening, mailbox := t.mailbox.deliver (t.replied reply),
                      answers := t.answers ++ [⟨n, rq, reply⟩] }
      else some t
    else some { t with server := .listening, answers := t.answers ++ [⟨n, rq, reply⟩] }

def step (t : Parties) : PartyAct → Option Parties
  | .request rq =>
    match t.client with
    | .idle => some { t with client := .sending t.tickets rq, tickets := t.tickets + 1 }
    | _ => none
  | .collect child =>
    match t.client with
    | .idle => some { t with client := .calling (.status child) }
    | _ => none
  | .client => t.clientStep
  | .server refs => t.serverStep refs
  | .other p rq =>
    if p = t.serverId ∨ p = t.clientId then none
    else match t.server with
      | .listening => some { t with server := .serving p t.tickets rq, tickets := t.tickets + 1 }
      | _ => some t
  | .exits p v =>
    if p = t.serverId ∨ p = t.clientId then none
    else if t.mailbox.recving then some
      { t with mailbox := t.mailbox.deliver (status p v), exits := t.exits ++ [(p, v)] }
    else some t
  | .send p m =>
    if p = t.serverId ∨ p = t.clientId then none
    else if t.mailbox.recving then some { t with mailbox := t.mailbox.deliver ⟨m.1, p, pteV ||| m.2⟩ }
    else some t

structure Init (t : Parties) : Prop where
  client : t.client = .idle
  deaf : t.mailbox.recving = false
  server : t.server = .listening
  answers : t.answers = []
  returns : t.returns = []

/-- **The message is the one that the receive is for**: the reply to this request, or the status of the child. -/
def Meant (t : Parties) : Call → Message → Prop
  | .fsipc n rq, m => ∃ reply, ⟨n, rq, reply⟩ ∈ t.answers ∧ m = t.replied reply
  | .status child, m => ∃ v, (child, v) ∈ t.exits ∧ m = status child v

/-- **Every receive has returned the message that it is for**, and no request is answered twice. -/
structure Matched (t : Parties) : Prop where
  once : (t.answers.map Answered.ticket).Nodup
  meant : ∀ r ∈ t.returns, t.Meant r.1 r.2

/-- **Nobody sends to a client that waits**, except the child that it waits for, its status. -/
def Quiet (t : Parties) : PartyAct → Prop
  | .exits p _ => t.mailbox.recving = true → t.client = .waiting (.status p)
  | .send _ _ => t.mailbox.recving = false
  | _ => True

/-! ## The invariant -/

/-- The request that the server is at. -/
def atHand (t : Parties) : Option (Word × Nat × Option Fsreq) :=
  match t.server with
  | .listening => none
  | .serving whom n rq => some (whom, n, rq)
  | .answering whom n rq _ => some (whom, n, some rq)

/-- The client is in a call. -/
def awaits (t : Parties) : Option Call :=
  match t.client with
  | .calling c => some c
  | .waiting c => if t.mailbox.recving then some c else none
  | _ => none

/-- The number of a request that is on its way. -/
def unsent (t : Parties) : Option Nat :=
  match t.client with
  | .sending n _ => some n
  | _ => none

/-- What a run keeps. -/
structure Inv (t : Parties) : Prop where
  matched : t.Matched
  /-- The client receives while it waits, -/
  deaf : t.mailbox.recving = true → ∃ c, t.client = .waiting c
  /-- and then has the message that the call is for. -/
  got : ∀ c, t.client = .waiting c → t.mailbox.recving = false → t.Meant c t.mailbox.message
  /-- The server is at a request of the client only while the client is in the call for it. -/
  owed : ∀ n rq, t.atHand = some (t.clientId, n, rq) → ∃ rq', rq = some rq' ∧ t.awaits = some (.fsipc n rq')
  fresh : ∀ a ∈ t.answers, a.ticket < t.tickets
  taken : ∀ w n rq, t.atHand = some (w, n, rq) → n < t.tickets ∧ n ∉ t.answers.map Answered.ticket
  sending : ∀ n, t.unsent = some n → n < t.tickets ∧ n ∉ t.answers.map Answered.ticket ∧
    ∀ w rq, t.atHand ≠ some (w, n, rq)

/-! ## Steps -/

variable {t t' : Parties} {rq : Fsreq} {child p v : Word}

theorem Meant.mono {c : Call} {m : Message} (h : t.Meant c m) (hid : t'.serverId = t.serverId)
    (ha : ∀ a ∈ t.answers, a ∈ t'.answers) (he : ∀ e ∈ t.exits, e ∈ t'.exits) : t'.Meant c m := by
  cases c with
  | fsipc n rq =>
    obtain ⟨reply, hin, rfl⟩ := h
    refine ⟨reply, ha _ hin, ?_⟩
    unfold replied
    rw [hid]
  | status child =>
    obtain ⟨v, hin, rfl⟩ := h
    exact ⟨v, he _ hin, rfl⟩

theorem Matched.same (h : t.Matched) (hid : t'.serverId = t.serverId) (ha : t'.answers = t.answers)
    (he : t'.exits = t.exits) (hr : t'.returns = t.returns) : t'.Matched := by
  refine ⟨by rw [ha]; exact h.once, fun r hin => ?_⟩
  rw [hr] at hin
  exact (h.meant r hin).mono hid (fun a hin => ha ▸ hin) (fun e hin => he ▸ hin)

theorem Inv.not_recving (h : t.Inv) (hc : ∀ c, t.client ≠ .waiting c) : t.mailbox.recving = false := by
  cases hr : t.mailbox.recving with
  | false => rfl
  | true =>
    obtain ⟨c, hw⟩ := h.deaf hr
    exact absurd hw (hc c)

/-- **The server owes nothing** to a client that is in no call. -/
theorem Inv.not_owed (h : t.Inv) (ha : ∀ n rq, t.awaits ≠ some (.fsipc n rq)) (n : Nat) (rq : Option Fsreq) :
    t.atHand ≠ some (t.clientId, n, rq) := by
  intro hat
  obtain ⟨rq', -, haw⟩ := h.owed n rq hat
  exact ha n rq' haw

theorem Inv.request (h : t.Inv) (hpc : t.client = .idle) :
    Inv { t with client := .sending t.tickets rq, tickets := t.tickets + 1 } := by
  have haw : ∀ n rq, t.awaits ≠ some (.fsipc n rq) := fun n rq hc => by simp [awaits, hpc] at hc
  have hnew : t.tickets ∉ t.answers.map Answered.ticket := by
    intro hin
    obtain ⟨a, ha, heq⟩ := List.mem_map.1 hin
    exact absurd (h.fresh a ha) (by omega)
  exact
    { matched := h.matched.same rfl rfl rfl rfl
      deaf := fun hr => by rw [h.not_recving (fun c hc => by cases hpc.symm.trans hc)] at hr; cases hr
      got := fun c hc => by cases hc
      owed := fun n rq hat => absurd hat (h.not_owed haw n rq)
      fresh := fun a ha => Nat.lt_succ_of_lt (h.fresh a ha)
      taken := fun w n rq hat => ⟨Nat.lt_succ_of_lt (h.taken w n rq hat).1, (h.taken w n rq hat).2⟩
      sending := fun n hn => by
        cases hn
        exact ⟨Nat.lt_succ_self _, hnew, fun w rq hat => absurd (h.taken w _ rq hat).1 (Nat.lt_irrefl _)⟩ }

theorem Inv.collect (h : t.Inv) (hpc : t.client = .idle) : Inv { t with client := .calling (.status child) } := by
  have haw : ∀ n rq, t.awaits ≠ some (.fsipc n rq) := fun n rq hc => by simp [awaits, hpc] at hc
  exact
    { matched := h.matched.same rfl rfl rfl rfl
      deaf := fun hr => by rw [h.not_recving (fun c hc => by cases hpc.symm.trans hc)] at hr; cases hr
      got := fun c hc => by cases hc
      owed := fun n rq hat => absurd hat (h.not_owed haw n rq)
      fresh := h.fresh
      taken := h.taken
      sending := fun n hn => by cases hn }

/-- **A step of the client**: its request gets to the server, it listens, or its call returns. -/
theorem Inv.clientStep (h : t.Inv) (hs : t.clientStep = some t') : Inv t' := by
  unfold Parties.clientStep at hs
  cases hpc : t.client with
  | idle =>
    rw [hpc] at hs
    cases hs
  | sending n rq =>
    rw [hpc] at hs
    obtain ⟨hlt, hnew, -⟩ := h.sending n (by simp [unsent, hpc])
    cases hsv : t.server with
    | listening =>
      simp only [hsv, Option.some.injEq] at hs
      subst hs
      exact
        { matched := h.matched.same rfl rfl rfl rfl
          deaf := fun hr => by rw [h.not_recving (fun c hc => by cases hpc.symm.trans hc)] at hr; cases hr
          got := fun c hc => by cases hc
          owed := fun m rq' hat => by cases hat; exact ⟨rq, rfl, rfl⟩
          fresh := h.fresh
          taken := fun w m rq' hat => by cases hat; exact ⟨hlt, hnew⟩
          sending := fun m hm => by cases hm }
    | serving _ _ _ | answering _ _ _ _ =>
      simp only [hsv, Option.some.injEq] at hs
      exact hs ▸ h
  | calling c =>
    rw [hpc] at hs
    cases hs
    exact
      { matched := h.matched.same rfl rfl rfl rfl
        deaf := fun _ => ⟨c, rfl⟩
        got := fun c' _ hr => by cases hr
        owed := fun n rq hat => by
          obtain ⟨rq', hrq, haw⟩ := h.owed n rq hat
          simp only [awaits, hpc, Option.some.injEq] at haw
          exact ⟨rq', hrq, congrArg some haw⟩
        fresh := h.fresh
        taken := h.taken
        sending := fun n hn => by cases hn }
  | waiting c =>
    rw [hpc] at hs
    dsimp only at hs
    split at hs
    · cases hs
    · rename_i hr
      rw [Bool.not_eq_true] at hr
      cases hs
      have haw : ∀ n rq, t.awaits ≠ some (.fsipc n rq) := fun n rq hc => by simp [awaits, hpc, hr] at hc
      exact
        { matched := ⟨h.matched.once, fun r hin => by
            rcases List.mem_append.1 hin with hin | hin
            · exact (h.matched.meant r hin).mono rfl (fun _ ha => ha) (fun _ he => he)
            · cases List.mem_singleton.1 hin
              exact (h.got c hpc hr).mono rfl (fun _ ha => ha) (fun _ he => he)⟩
          deaf := fun hr' => by cases hr.symm.trans hr'
          got := fun c' hc => by cases hc
          owed := fun n rq hat => absurd hat (h.not_owed haw n rq)
          fresh := h.fresh
          taken := h.taken
          sending := fun n hn => by cases hn }

theorem Inv.answer (h : t.Inv) {whom : Word} {n : Nat} (reply : Reply) (hat : t.atHand = some (whom, n, some rq)) :
    ((t.answers ++ [(⟨n, rq, reply⟩ : Answered)]).map Answered.ticket).Nodup ∧
      ∀ a ∈ t.answers ++ [(⟨n, rq, reply⟩ : Answered)], a.ticket < t.tickets := by
  obtain ⟨hlt, hnew⟩ := h.taken whom n (some rq) hat
  refine ⟨?_, fun a ha => ?_⟩
  · rw [List.map_append]
    exact List.nodup_append.2 ⟨h.matched.once, List.nodup_singleton _, fun m hm m' hm' heq => by
      cases List.mem_singleton.1 hm'
      obtain rfl : m = n := heq
      exact hnew hm⟩
  · rcases List.mem_append.1 ha with ha | ha
    · exact h.fresh a ha
    · cases List.mem_singleton.1 ha
      exact hlt

/-- **A step of the server**: a request is dropped or served, or its reply is sent. -/
theorem Inv.serverStep (h : t.Inv) {refs : Nat → Nat} (hs : t.serverStep refs = some t') : Inv t' := by
  unfold Parties.serverStep at hs
  cases hsv : t.server with
  | listening =>
    rw [hsv] at hs
    cases hs
  | serving whom n orq =>
    rw [hsv] at hs
    cases orq with
    | none =>
      cases hs
      exact
        { matched := h.matched.same rfl rfl rfl rfl
          deaf := h.deaf
          got := fun c hc hr => (h.got c hc hr).mono rfl (fun _ ha => ha) (fun _ he => he)
          owed := fun m rq hat => by cases hat
          fresh := h.fresh
          taken := fun w m rq hat => by cases hat
          sending := fun m hm => ⟨(h.sending m hm).1, (h.sending m hm).2.1, fun w rq hat => by cases hat⟩ }
    | some rq =>
      dsimp only at hs
      split at hs
      · rename_i reply srv hrun
        cases hs
        have hsame : t.atHand = some (whom, n, some rq) := by simp [atHand, hsv]
        exact
          { matched := h.matched.same rfl rfl rfl rfl
            deaf := h.deaf
            got := fun c hc hr => (h.got c hc hr).mono rfl (fun _ ha => ha) (fun _ he => he)
            owed := fun m rq' hat => h.owed m rq' (hsame.trans hat)
            fresh := h.fresh
            taken := fun w m rq' hat => h.taken w m rq' (hsame.trans hat)
            sending := fun m hm =>
              ⟨(h.sending m hm).1, (h.sending m hm).2.1, fun w rq' hat =>
                (h.sending m hm).2.2 w rq' (hsame.trans hat)⟩ }
      · cases hs
  | answering whom n rq reply =>
    rw [hsv] at hs
    dsimp only at hs
    have hat : t.atHand = some (whom, n, some rq) := by simp [atHand, hsv]
    obtain ⟨honce, hfresh⟩ := h.answer reply hat
    have hmeant : ∀ r ∈ t.returns, Meant { t with answers := t.answers ++ [⟨n, rq, reply⟩] } r.1 r.2 := fun r hin =>
      (h.matched.meant r hin).mono rfl (fun _ ha => List.mem_append_left _ ha) (fun _ he => he)
    split at hs
    · rename_i hw
      subst hw
      split at hs
      · -- the client is in the call for this request
        rename_i hr
        cases hs
        obtain ⟨c, hpc⟩ := h.deaf hr
        obtain ⟨rq', hrq, haw⟩ := h.owed n (some rq) hat
        cases hrq
        simp only [awaits, hpc, hr, if_true, Option.some.injEq] at haw
        subst haw
        exact
          { matched := ⟨honce, fun r hin => (hmeant r hin).mono rfl (fun _ ha => ha) (fun _ he => he)⟩
            deaf := fun hr' => by cases hr'
            got := fun c hc _ => by
              cases hpc.symm.trans hc
              exact ⟨reply, List.mem_append_right _ (List.mem_singleton_self _), rfl⟩
            owed := fun m rq' hat' => by cases hat'
            fresh := hfresh
            taken := fun w m rq' hat' => by cases hat'
            sending := fun m hm => by simp [unsent, hpc] at hm }
      · cases hs
        exact h
    · cases hs
      exact
        { matched := ⟨honce, fun r hin => (hmeant r hin).mono rfl (fun _ ha => ha) (fun _ he => he)⟩
          deaf := h.deaf
          got := fun c hc hr => (h.got c hc hr).mono rfl (fun _ ha => List.mem_append_left _ ha) (fun _ he => he)
          owed := fun m rq' hat' => by cases hat'
          fresh := hfresh
          taken := fun w m rq' hat' => by cases hat'
          sending := fun m hm => by
            obtain ⟨hlt, hnew, hother⟩ := h.sending m hm
            refine ⟨hlt, fun hin => ?_, fun w rq' hat' => by cases hat'⟩
            rw [List.map_append] at hin
            rcases List.mem_append.1 hin with hin | hin
            · exact hnew hin
            · cases List.mem_singleton.1 hin
              exact hother whom _ hat }

theorem Inv.other (h : t.Inv) {orq : Option Fsreq} (hp : p ≠ t.clientId) :
    Inv { t with server := .serving p t.tickets orq, tickets := t.tickets + 1 } := by
  have hnew : t.tickets ∉ t.answers.map Answered.ticket := by
    intro hin
    obtain ⟨a, ha, heq⟩ := List.mem_map.1 hin
    exact absurd (h.fresh a ha) (by omega)
  exact
    { matched := h.matched.same rfl rfl rfl rfl
      deaf := h.deaf
      got := fun c hc hr => (h.got c hc hr).mono rfl (fun _ ha => ha) (fun _ he => he)
      owed := fun n rq hat => absurd (Prod.mk.inj (Option.some.inj hat)).1 hp
      fresh := fun a ha => Nat.lt_succ_of_lt (h.fresh a ha)
      taken := fun w n rq hat => by cases hat; exact ⟨Nat.lt_succ_self _, hnew⟩
      sending := fun n hn => by
        obtain ⟨hlt, hn', -⟩ := h.sending n hn
        exact ⟨Nat.lt_succ_of_lt hlt, hn', fun w rq hat => by cases hat; exact Nat.lt_irrefl _ hlt⟩ }

/-- **The child's status gets to a client that waits for it.** -/
theorem Inv.exits (h : t.Inv) (hpc : t.client = .waiting (.status p)) (hr : t.mailbox.recving = true) :
    Inv { t with mailbox := t.mailbox.deliver (status p v), exits := t.exits ++ [(p, v)] } := by
  have haw : ∀ n rq, t.awaits ≠ some (.fsipc n rq) := fun n rq hc => by simp [awaits, hpc, hr] at hc
  exact
    { matched := ⟨h.matched.once, fun r hin =>
        (h.matched.meant r hin).mono rfl (fun _ ha => ha) (fun _ he => List.mem_append_left _ he)⟩
      deaf := fun hr' => by cases hr'
      got := fun c hc _ => by
        cases hpc.symm.trans hc
        exact ⟨v, List.mem_append_right _ (List.mem_singleton_self _), rfl⟩
      owed := fun n rq hat => absurd hat (h.not_owed haw n rq)
      fresh := h.fresh
      taken := h.taken
      sending := fun n hn => by simp [unsent, hpc] at hn }

theorem Inv.step (h : t.Inv) {a : PartyAct} (hq : t.Quiet a) (hs : t.step a = some t') : Inv t' := by
  cases a with
  | request rq =>
    unfold Parties.step at hs
    dsimp only at hs
    split at hs
    · rename_i hpc
      cases hs
      exact h.request hpc
    · cases hs
  | collect child =>
    unfold Parties.step at hs
    dsimp only at hs
    split at hs
    · rename_i hpc
      cases hs
      exact h.collect hpc
    · cases hs
  | client => exact h.clientStep hs
  | server refs => exact h.serverStep hs
  | other p orq =>
    unfold Parties.step at hs
    dsimp only at hs
    split at hs
    · cases hs
    · rename_i hp
      split at hs
      · cases hs
        exact h.other (fun hc => hp (.inr hc))
      · cases hs
        exact h
  | exits p v =>
    unfold Parties.step at hs
    dsimp only at hs
    split at hs
    · cases hs
    · split at hs
      · rename_i hr
        cases hs
        exact h.exits (hq hr) hr
      · cases hs
        exact h
  | send p m =>
    have hdeaf : t.mailbox.recving = false := hq
    unfold Parties.step at hs
    dsimp only at hs
    rw [hdeaf] at hs
    split at hs
    · cases hs
    · cases hs
      exact h

theorem Init.inv (h : t.Init) : t.Inv :=
  { matched := ⟨by rw [h.answers]; exact List.nodup_nil, fun r hin => by rw [h.returns] at hin; cases hin⟩
    deaf := fun hr => by cases h.deaf.symm.trans hr
    got := fun c hc => by cases h.client.symm.trans hc
    owed := fun n rq hat => by simp [atHand, h.server] at hat
    fresh := fun a ha => by rw [h.answers] at ha; cases ha
    taken := fun w n rq hat => by simp [atHand, h.server] at hat
    sending := fun n hn => by simp [unsent, h.client] at hn }

theorem inv_run (h : Run Init step Quiet t) : t.Inv :=
  Run.invariant Inv (fun _ ht => ht.inv) (fun _ _ _ hi hq hs => hi.step hq hs) t h

/-! ## Any other send -/

theorem Meant.whom {c : Call} {m : Message} (h : t.Meant c m) :
    (∃ n rq, c = .fsipc n rq) ∧ m.whom = t.serverId ∨ c = .status m.whom ∧ ∃ v, (m.whom, v) ∈ t.exits := by
  cases c with
  | fsipc n rq =>
    obtain ⟨reply, -, rfl⟩ := h
    exact .inl ⟨⟨n, rq, rfl⟩, rfl⟩
  | status child =>
    obtain ⟨v, hin, rfl⟩ := h
    exact .inr ⟨rfl, v, hin⟩

/-- A message that is not what the client's call is for is returned by the call. -/
theorem returns_mistaken {c : Call} (hpc : t.client = .waiting c) (hr : t.mailbox.recving = false)
    (hm : ¬t.Meant c t.mailbox.message) : ∃ t', t.step .client = some t' ∧ ¬t'.Matched := by
  refine ⟨{ t with client := .idle, returns := t.returns ++ [(c, t.mailbox.message)] }, ?_, fun h => hm ?_⟩
  · show t.clientStep = _
    unfold Parties.clientStep
    simp [hpc, hr]
  · have hlast := h.meant (c, t.mailbox.message) (List.mem_append_right _ (List.mem_singleton_self _))
    exact hlast.mono rfl (fun _ ha => ha) (fun _ he => he)

/-- **Any other send is taken for what the client waits for**: the client's call returns it. -/
theorem Inv.stolen (h : t.Inv) {a : PartyAct} (hq : ¬t.Quiet a) (hnew : ∀ p m, a = .send p m → ∀ v, (p, v) ∉ t.exits)
    (hs : t.step a = some t') : ∃ t'', t'.step .client = some t'' ∧ ¬t''.Matched := by
  cases a with
  | request _ | collect _ | client | server _ | other _ _ => exact absurd trivial hq
  | exits p v =>
    unfold Quiet at hq
    push Not at hq
    obtain ⟨hr, hother⟩ := hq
    obtain ⟨c, hpc⟩ := h.deaf hr
    unfold Parties.step at hs
    dsimp only at hs
    split at hs
    · cases hs
    · rename_i hp
      cases hs
      refine returns_mistaken hpc rfl fun hm => ?_
      rcases hm.whom with ⟨-, hw⟩ | ⟨hc, -⟩
      · exact hp (.inl hw)
      · exact hother (hpc.trans (congrArg ClientPc.waiting hc))
  | send p m =>
    have hr : t.mailbox.recving = true := by simpa [Quiet] using hq
    obtain ⟨c, hpc⟩ := h.deaf hr
    unfold Parties.step at hs
    dsimp only at hs
    split at hs
    · cases hs
    · rename_i hp
      cases hs
      refine returns_mistaken hpc rfl fun hm => ?_
      rcases hm.whom with ⟨-, hw⟩ | ⟨-, v, hv⟩
      · exact hp (.inl hw)
      · exact hnew p m rfl v hv

/-- **Every receive has the message that it is for**, in every state of every run in which nobody sends to the client
while it waits, but the child that it waits for, its status; any other send is what a receive returns next. -/
theorem receives_matched (h : Run Init step Quiet t) : t.Matched ∧
    ∀ a t', ¬t.Quiet a → (∀ p m, a = .send p m → ∀ v, (p, v) ∉ t.exits) → t.step a = some t' →
      ∃ t'', t'.step .client = some t'' ∧ ¬t''.Matched :=
  ⟨(inv_run h).matched, fun _ _ hq hnew hs => (inv_run h).stolen hq hnew hs⟩

/-- The client is 4097, the server 2049. -/
def atBoot : Parties :=
  { serverId := 2049, clientId := 4097, client := .idle, mailbox := ⟨false, ⟨0, 0, 0⟩⟩, server := .listening
    srv := (Desk.atBoot []).server, tickets := 0, answers := [], exits := [], returns := [] }

theorem atBoot_init : Init atBoot := ⟨rfl, rfl, rfl, rfl, rfl⟩

/-- A test of `Quiet`. -/
def quietB (t : Parties) : PartyAct → Bool
  | .exits p _ => !t.mailbox.recving || (match t.client with
    | .waiting (.status child) => decide (child = p)
    | _ => false)
  | .send _ _ => !t.mailbox.recving
  | _ => true

theorem quiet_of_quietB (t : Parties) (a : PartyAct) (h : t.quietB a = true) : t.Quiet a := by
  cases a with
  | exits p v =>
    intro hr
    unfold quietB at h
    rw [hr] at h
    dsimp only at h
    split at h
    · rename_i child hpc
      rw [hpc]
      simpa using h
    · cases h
  | send p m => simpa [quietB, Quiet] using h
  | request _ | collect _ | client | server _ | other _ _ => exact trivial

/-- A file is closed, and the status of a child received: both calls return. -/
theorem receives_matched_both : ∃ t : Parties, t.returns.length = 2 ∧ t.Matched := by
  have hex : ∃ t, Run Init step Quiet t ∧ decide (t.returns.length = 2) = true :=
    Run.exists_of_exec quiet_of_quietB
      [.request (.close 0), .client, .client, .server (fun _ => 0), .server (fun _ => 0), .client,
        .collect 6145, .client, .exits 6145 1, .client] (some atBoot) (fun _ h => Option.some.inj h ▸ atBoot_init)
      (fun t => decide (t.returns.length = 2)) (by decide +kernel)
  obtain ⟨t, hrun, hlen⟩ := hex
  exact ⟨t, of_decide_eq_true hlen, (receives_matched hrun).1⟩

/-- The child's status has come while the client was closing a file. -/
def mistaken : Parties :=
  { atBoot with mailbox := ⟨false, status 6145 1⟩, server := .serving 4097 0 (some (.close 0)), tickets := 1
                exits := [(6145, 1)], returns := [(.fsipc 0 (.close 0), status 6145 1)] }

/-- **A status is taken for a reply**: the child that was spawned ends while `close_all` waits for the server. -/
theorem receives_matched_fails : ¬∀ t, Reach Init step t → t.Matched := by
  intro hall
  have hrun : exec step (fun _ _ => true) [.request (.close 0), .client, .client, .exits 6145 1, .client] atBoot =
      some mistaken := rfl
  have hreach : Reach Init step mistaken := Run.of_exec (fun _ _ _ => trivial) _ _ _ (.start _ atBoot_init) hrun
  obtain ⟨reply, hin, -⟩ := (hall mistaken hreach).meant _ (List.mem_singleton_self _)
  cases hin

end Parties
end Mos
