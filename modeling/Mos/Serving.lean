import Mos.Message
import Mos.ArgumentPage
import Mos.FailedSend
import Mos.Lib.Behaviour
/-!
# Serving — the loop of the file server and the deaths of its clients

`serve` (`fs/serv.c`) runs as one environment of the kernel; here are its place in the loop and the kernel it runs in.
What the handlers do before they answer is left open: they make any calls they like and come to an `ipc_send` with one
of the answers of their code.  `ipc_send` tries `sys_ipc_try_send` until the client waits, and takes every other error
for a failed assertion.
-/
namespace Mos

def reqva : Word := 0x0ffff000

/-- `FILEVA`, where the pages of the open files are. -/
def fileva : Word := 0x60000000

def diskmap : Word := 0x10000000

def fsreqOpen : Word := 0
def fsreqMap : Word := 1

/-- The page that goes with an answer: that of an open file, that of a block of the disk, or none. -/
inductive AnswerPage where
  | none
  /-- `opentab[i].o_ff`, for `i < MAXOPEN` -/
  | openFile (i : Fin 1024)
  /-- `disk_addr(b)`, for a block below `DISKMAX / BLOCK_SIZE` -/
  | block (b : Fin 0x40000)
deriving DecidableEq

namespace AnswerPage

def srcva : AnswerPage → Word
  | none => 0
  | openFile i => fileva + BitVec.ofNat 32 (i * pageSize)
  | block b => diskmap + BitVec.ofNat 32 (b * pageSize)

def perm : AnswerPage → Word
  | none => 0
  | _ => pteD ||| pteLibrary

theorem srcva_legal (p : AnswerPage) : ¬(p.srcva ≠ 0 ∧ isIllegalVa p.srcva = true) := by
  rintro ⟨h0, h⟩
  have hlow : utemp.toNat = 0x3fe000 := by decide
  have hhigh : utop.toNat = 0x7f400000 := by decide
  unfold isIllegalVa at h
  simp only [Bool.or_eq_true, decide_eq_true_eq, BitVec.lt_def, ge_iff_le, BitVec.le_def, hlow, hhigh] at h
  cases p with
  | none => exact h0 rfl
  | openFile i =>
    have hi := i.isLt
    have hbase : fileva.toNat = 0x60000000 := by decide
    simp only [srcva, hbase, pageSize, BitVec.toNat_add, BitVec.toNat_ofNat] at h
    omega
  | block b =>
    have hb := b.isLt
    have hbase : diskmap.toNat = 0x10000000 := by decide
    simp only [srcva, hbase, pageSize, BitVec.toNat_add, BitVec.toNat_ofNat] at h
    omega

end AnswerPage

/-- The arguments of an `ipc_send` of a handler. -/
structure Answer where
  whom : Word
  value : Word
  page : AnswerPage
deriving DecidableEq

/-- The handler of `req` may answer so: with a value and no page, `serve_open` with 0 and the page of the open file,
`serve_map` with 0 and a block. -/
def answers (req value : Word) : AnswerPage → Bool
  | .none => true
  | .openFile _ => decide (req = fsreqOpen ∧ value = 0)
  | .block _ => decide (req = fsreqMap ∧ value = 0)

/-- Where the server is. -/
inductive ServePc where
  /-- before the loop -/
  | main
  /-- about to call `syscall_ipc_recv` -/
  | start
  /-- that call is made -/
  | received
  /-- in a handler, before its `ipc_send` -/
  | handle (req whom : Word)
  /-- in `ipc_send`, about to call `syscall_ipc_try_send` -/
  | sending (r : Answer)
  /-- in `ipc_send`, about to call `syscall_yield` -/
  | yielding (r : Answer)
  /-- about to unmap `REQVA` -/
  | unmap
  /-- `user_panic` -/
  | panicked
deriving DecidableEq

namespace ServePc

/-- The system call that comes next, where there is only one. -/
def call : ServePc → Option Syscall
  | start => some (.ipcRecv reqva)
  | sending r => some (.ipcTrySend r.whom r.value r.page.srcva r.page.perm)
  | yielding _ => some .yield
  | unmap => some (.memUnmap 0 reqva)
  | _ => none

/-- And where the server is after it. -/
def after : ServePc → Sysret → ServePc
  | start, .ret i => if i = 0 then received else panicked
  | start, _ => received
  | sending r, .ret i => if i = -eIpcNotRecv then yielding r else if i = 0 then unmap else panicked
  | yielding r, _ => sending r
  | unmap, .ret i => if i = 0 then start else panicked
  | pc, _ => pc

/-- The server may make calls that this model does not follow. -/
def free : ServePc → Bool
  | main => true
  | handle _ _ => true
  | panicked => true
  | _ => false

/-- Between the receive and the next turn of the loop. -/
def inHandler : ServePc → Bool
  | handle _ _ => true
  | sending _ => true
  | yielding _ => true
  | unmap => true
  | _ => false

end ServePc

/-- The kernel, and the place of the server. -/
structure Serving where
  kernel : Kernel
  pc : ServePc

inductive ServeAct where
  /-- A step of the kernel: of any process, or of the server where that is no system call. -/
  | kernel (a : Act)
  /-- The server gets to its loop. -/
  | serve
  /-- The next system call of the server. -/
  | call (v0 : Word)
  /-- `ipc_recv` comes back, and the loop looks at the message. -/
  | receive
  /-- The handler gets to its `ipc_send`. -/
  | answer (value : Word) (page : AnswerPage)

def Act.isCall : Act → Bool
  | .syscall _ _ => true
  | .noSys => true
  | _ => false

namespace Serving

def Init (t : Serving) : Prop := Mos.Booted t.kernel ∧ t.pc = .main

/-- What the loop does with a message. -/
def dispatch (m : Message) : ServePc :=
  match serveBranch m with
  | .noArgument => .start
  | .badRequest => .unmap
  | .handler => .handle m.value m.whom

/-- A step, where `srv` is the server. -/
def step (srv : EnvIx) (t : Serving) : ServeAct → Option Serving
  | .kernel a =>
    if t.kernel.curenv = some srv ∧ a.isCall = true ∧ t.pc.free = false then none
    else (Mos.step t.kernel a).map fun k => { t with kernel := k }
  | .serve => if t.kernel.curenv = some srv ∧ t.pc = .main then some { t with pc := .start } else none
  | .call v0 =>
    if t.kernel.curenv = some srv then
      t.pc.call.bind fun c => (readArgs t.kernel srv).bind fun k₁ => (syscallTable k₁ srv c).map fun r =>
        { kernel := setV0 v0 r, pc := t.pc.after r.1 }
    else none
  | .receive =>
    if t.kernel.curenv = some srv ∧ t.pc = .received then
      some { t with pc := dispatch (ipcRecv (t.kernel.envs srv)) }
    else none
  | .answer value page =>
    match t.pc with
    | .handle req whom =>
      if t.kernel.curenv = some srv ∧ answers req value page = true then
        some { t with pc := .sending { whom := whom, value := value, page := page } }
      else none
    | _ => none

variable {srv : EnvIx} {t t' : Serving}

theorem answer_inv {value : Word} {page : AnswerPage} (h : t.step srv (.answer value page) = some t') :
    ∃ req whom, t.pc = .handle req whom ∧
    t' = { t with pc := .sending { whom := whom, value := value, page := page } } := by
  cases hpc : t.pc with
  | handle req whom =>
    simp only [step, hpc] at h
    obtain ⟨-, h⟩ := Option.ite_none_right_eq_some.1 h
    cases h
    exact ⟨req, whom, rfl, rfl⟩
  | _ =>
    simp only [step, hpc] at h
    cases h

theorem kernel_inv {a : Act} (h : t.step srv (.kernel a) = some t') :
    ∃ k, Mos.step t.kernel a = some k ∧ t' = { t with kernel := k } := by
  obtain ⟨-, h⟩ := Option.ite_none_left_eq_some.1 h
  obtain ⟨k, hk, rfl⟩ := Option.map_eq_some_iff.1 h
  exact ⟨k, hk, rfl⟩

theorem call_inv {v0 : Word} (h : t.step srv (.call v0) = some t') :
    t.kernel.curenv = some srv ∧ ∃ c k₁ r, t.pc.call = some c ∧ readArgs t.kernel srv = some k₁ ∧
      syscallTable k₁ srv c = some r ∧ t' = { kernel := setV0 v0 r, pc := t.pc.after r.1 } := by
  obtain ⟨hcur, h⟩ := Option.ite_none_right_eq_some.1 h
  obtain ⟨c, hc, h⟩ := Option.bind_eq_some_iff.1 h
  obtain ⟨k₁, hargs, h⟩ := Option.bind_eq_some_iff.1 h
  obtain ⟨r, hr, rfl⟩ := Option.map_eq_some_iff.1 h
  exact ⟨hcur, c, k₁, r, hc, hargs, hr, rfl⟩

/-! ## The calls of the server -/

/-- The client is there, and nothing stands against the page that goes with the answer. -/
def Sendable (srv : EnvIx) (k : Kernel) (r : Answer) : Prop :=
  (∃ e, envid2env k srv r.whom false = some e) ∧ ¬LateFailure k srv r.whom r.page.srcva

/-- The client waits in `sys_ipc_recv`. -/
def Waits (srv : EnvIx) (k : Kernel) (r : Answer) : Prop :=
  ∃ e, envid2env k srv r.whom false = some e ∧ (k.envs e).envIpcRecving ≠ 0

/-- **What a try of `ipc_send` comes to**: the assertion fails exactly when the answer cannot be sent. -/
theorem try_send {k : Kernel} {r : Answer} {x : Sysret × Kernel}
    (h : sysIpcTrySend k srv r.whom r.value r.page.srcva r.page.perm = some x) :
    (Sendable srv k r → Waits srv k r → (ServePc.sending r).after x.1 = .unmap) ∧
    (Sendable srv k r → ¬Waits srv k r → (ServePc.sending r).after x.1 = .yielding r) ∧
    (¬Sendable srv k r → (ServePc.sending r).after x.1 = .panicked) := by
  have hlegal := r.page.srcva_legal
  cases hid : envid2env k srv r.whom false with
  | none =>
    unfold sysIpcTrySend at h
    rw [if_neg hlegal, hid] at h
    cases h
    have hno : ¬Sendable srv k r := by
      rintro ⟨⟨e, he⟩, -⟩
      rw [hid] at he
      cases he
    exact ⟨fun hs => absurd hs hno, fun hs => absurd hs hno, fun _ => rfl⟩
  | some e =>
    by_cases hr : (k.envs e).envIpcRecving = 0
    · unfold sysIpcTrySend at h
      rw [if_neg hlegal, hid] at h
      dsimp only at h
      rw [if_pos hr] at h
      cases h
      have hwaits : ¬Waits srv k r := by
        rintro ⟨e', he', hw⟩
        obtain rfl : e = e' := by simpa using hid.symm.trans he'
        exact hw hr
      have hsend : Sendable srv k r := by
        refine ⟨⟨e, hid⟩, ?_⟩
        rintro ⟨-, -, e', he', hw, -⟩
        exact hwaits ⟨e', he', hw⟩
      exact ⟨fun _ hw => absurd hw hwaits, fun _ _ => rfl, fun hs => absurd hsend hs⟩
    · have hwaits : Waits srv k r := ⟨e, hid, hr⟩
      cases send_inv h with
      | refused i _ hno =>
        exfalso
        refine hno e ⟨?_, hid, hr⟩
        by_cases h0 : r.page.srcva = 0
        · exact .inl h0
        · exact .inr (Bool.eq_false_of_not_eq_true fun hi => hlegal ⟨h0, hi⟩)
      | value e' q he' _ _ h0 =>
        have hsend : Sendable srv k r := ⟨⟨e, hid⟩, fun hl => hl.1 h0⟩
        exact ⟨fun _ _ => rfl, fun _ hw => absurd hwaits hw, fun hs => absurd hsend hs⟩
      | lost e' q he' hr' hq h0 hva hl =>
        have hno : ¬Sendable srv k r := fun hs => hs.2 ⟨h0, hva, e', he', hr', insertTail_last hq, .inl hl⟩
        exact ⟨fun hs => absurd hs hno, fun hs => absurd hs hno, fun _ => rfl⟩
      | page e' q pp pte i pm he' hr' hq h0 hva hl hins =>
        rcases pageInsert_code hins with rfl | rfl
        · have hsend : Sendable srv k r := by
            refine ⟨⟨e, hid⟩, ?_⟩
            rintro ⟨-, -, d, hd, -, -, hfail⟩
            obtain rfl : e' = d := by simpa using he'.symm.trans hd
            rcases hfail with hnone | ⟨pp', pte', hl', hnt⟩
            · rw [hl] at hnone
              cases hnone
            · rw [hl] at hl'
              cases hl'
              obtain ⟨pm', hneg⟩ := @pageInsert_noTable k.pm _ pp (k.envs e').envAsid _ r.page.perm hnt
              rw [hins] at hneg
              cases hneg
          exact ⟨fun _ _ => rfl, fun _ hw => absurd hwaits hw, fun hs => absurd hsend hs⟩
        · have hno : ¬Sendable srv k r := fun hs =>
            hs.2 ⟨h0, hva, e', he', hr', insertTail_last hq, .inr ⟨pp, pte, hl, pageInsert_neg hins (by decide)⟩⟩
          exact ⟨fun hs => absurd hs hno, fun hs => absurd hs hno, fun _ => rfl⟩

theorem recv_after {k : Kernel} {x : Sysret × Kernel} (h : sysIpcRecv k srv reqva = some x) :
    ServePc.start.after x.1 = .received := by
  unfold sysIpcRecv at h
  rw [if_neg (by decide)] at h
  obtain ⟨q, -, h⟩ := Option.bind_eq_some_iff.1 h
  obtain ⟨k', -, rfl⟩ := Option.map_eq_some_iff.1 h
  rfl

theorem unmap_after {k : Kernel} {x : Sysret × Kernel} (h : sysMemUnmap k srv 0 reqva = some x) :
    ServePc.unmap.after x.1 = .start := by
  unfold sysMemUnmap at h
  rw [if_neg (by decide)] at h
  have hid : envid2env k srv 0 true = some srv := rfl
  rw [hid] at h
  obtain ⟨pm, -, h⟩ := Option.bind_eq_some_iff.1 h
  cases h
  rfl

/-- **The condition**: at every try of a reply the client is still there, and the page can be sent. -/
def ReplySafe (srv : EnvIx) (t : Serving) : ServeAct → Prop
  | .call _ => ∀ r k₁, t.pc = .sending r → readArgs t.kernel srv = some k₁ → Sendable srv k₁ r
  | _ => True

end Serving

end Mos
