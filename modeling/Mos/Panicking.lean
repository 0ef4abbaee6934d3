import Mathlib.Data.Nat.Find
import Mos.Syscall
/-!
# Panicking — a panic that panics (`user/lib/debugf.c`, `user/lib/ipc.c`)

`_user_panic` sends `-1` to the parent and calls `exit`; `ipc_send` tries again while the parent does not receive, and
every other result than zero fails an assertion, which is a call of `_user_panic` again.  The results of the tries are
`sends`, one for each try.  Nothing is left on the stack of a call that has ended, and fuel bounds the depth of the
stack.
-/
namespace Mos.Panic

/-- How a call ends: it returns, with the tries before `n` made, or `exit` is reached by the call of `_user_panic` with
`depth` of them around it. -/
inductive Ended where
  | returned (n : Nat)
  | exited (depth : Nat)

mutual

def userPanic (sends : Nat → Int) : Nat → Nat → Nat → Option Ended
  | 0, _, _ => none
  | fuel + 1, depth, n =>
    match ipcSend sends fuel depth n with
    | some (.returned _) => some (.exited depth)
    | e => e

/-- `ipc_send`, with `user_assert(r == 0)`. -/
def ipcSend (sends : Nat → Int) : Nat → Nat → Nat → Option Ended
  | 0, _, _ => none
  | fuel + 1, depth, n =>
    if sends n = -eIpcNotRecv then ipcSend sends fuel depth (n + 1)
    else if sends n = 0 then some (.returned (n + 1))
    else userPanic sends fuel (depth + 1) (n + 1)

end

/-- A call of `_user_panic` makes finitely many nested calls and reaches `exit`. -/
def ReachesExit (sends : Nat → Int) : Prop := ∃ fuel depth, userPanic sends fuel 0 0 = some (.exited depth)

/-- The parent is not forever a process that does not receive. -/
def Answered (sends : Nat → Int) : Prop := ∀ n, ∃ k, n ≤ k ∧ sends k ≠ -eIpcNotRecv

/-! ## The kernel -/

/-- **`exit` destroys the environment**: its last system call does not come back. -/
theorem exit_destroys (k : Kernel) (cur : EnvIx) : ∃ jobs, syscallTable k cur (.tryDoneJobStatus 0) =
    (envDestroy { k with jobs := jobs } cur).map fun k₁ => (.noret, k₁) := by
  refine ⟨fun i => if i < k.jobNum ∧ (k.envs cur).envId = (k.jobs i).envId ∧
    (k.jobs i).flag = 0 then (k.jobs i).done else k.jobs i, ?_⟩
  show sysTryDoneJobStatus k cur 0 = _
  unfold sysTryDoneJobStatus
  simp only [envid2env, destroyAndReturn, if_true, Option.bind_some]

/-- **A parent that is gone**: every try fails, and changes nothing. -/
theorem send_gone {k : Kernel} {cur : EnvIx} {parent value : Word} (h : envid2env k cur parent false = none) :
    syscallTable k cur (.ipcTrySend parent value 0 0) = ret (-eBadEnv) k := by
  show sysIpcTrySend k cur parent value 0 0 = _
  unfold sysIpcTrySend
  rw [if_neg (fun h => h.1 rfl), h]

/-! ## The recursion -/

section Recursion

variable {sends : Nat → Int}

/-- The first zero is `m` tries away. -/
def FirstZero (sends : Nat → Int) (n m : Nat) : Prop := sends (n + m) = 0 ∧ ∀ j < m, sends (n + j) ≠ 0

theorem FirstZero.next {n m : Nat} (h : FirstZero sends n (m + 1)) : FirstZero sends (n + 1) m := by
  obtain ⟨hz, hn⟩ := h
  refine ⟨?_, fun j hj => ?_⟩
  · rwa [Nat.add_assoc, Nat.add_comm 1]
  · have h := hn (j + 1) (Nat.succ_lt_succ hj)
    rwa [Nat.add_comm j, ← Nat.add_assoc] at h

theorem userPanic_exits {fuel depth n : Nat} {e : Ended} (h : ipcSend sends fuel depth n = some e) :
    ∃ d, userPanic sends (fuel + 1) depth n = some (.exited d) := by
  rw [userPanic, h]
  cases e with
  | returned _ => exact ⟨depth, rfl⟩
  | exited d => exact ⟨d, rfl⟩

/-- **A send ends** when there is a zero: every try is a step towards it, also one that panics. -/
theorem ipcSend_ends : ∀ {m n : Nat} (fuel depth : Nat), FirstZero sends n m → 2 * m < fuel →
    ∃ e, ipcSend sends fuel depth n = some e
  | _, _, 0, _, _, hf => absurd hf (Nat.not_lt_zero _)
  | 0, n, fuel + 1, depth, h, _ => by
    have hz : sends n = 0 := h.1
    refine ⟨.returned (n + 1), ?_⟩
    rw [ipcSend, hz, if_neg (by decide), if_pos rfl]
  | m + 1, n, fuel + 1, depth, h, hf => by
    have hz : sends n ≠ 0 := h.2 0 (Nat.succ_pos m)
    rw [ipcSend]
    by_cases hr : sends n = -eIpcNotRecv
    · rw [if_pos hr]
      exact ipcSend_ends fuel depth h.next (by omega)
    · rw [if_neg hr, if_neg hz]
      obtain ⟨fuel, rfl⟩ : ∃ f, fuel = f + 1 := ⟨fuel - 1, by omega⟩
      obtain ⟨e, he⟩ := ipcSend_ends fuel (depth + 1) h.next (by omega)
      obtain ⟨d, hd⟩ := userPanic_exits he
      exact ⟨_, hd⟩

/-- **Without a zero there is no end**, whatever the depth of the stack. -/
theorem never_ends (h : ∀ k, sends k ≠ 0) :
    ∀ fuel depth n, ipcSend sends fuel depth n = none ∧ userPanic sends fuel depth n = none
  | 0, _, _ => ⟨rfl, rfl⟩
  | fuel + 1, depth, n => by
    refine ⟨?_, ?_⟩
    · rw [ipcSend, if_neg (h n)]
      split
      · exact (never_ends h fuel depth (n + 1)).1
      · exact (never_ends h fuel (depth + 1) (n + 1)).2
    · rw [userPanic, (never_ends h fuel depth n).1]

end Recursion

end Mos.Panic
