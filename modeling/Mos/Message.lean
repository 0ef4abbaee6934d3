import Mos.Edits
/-!
# Message — what `ipc_recv` reads

`ipc_recv` of `user/lib/ipc.c` reads the value, the sender and the permission from the environment's own record, some
time after the send that completed the receive.  Only a send that gets past its third check writes these fields.
-/
namespace Mos

/-- What `ipc_recv` returns, and stores in `*whom` and `*perm`. -/
structure Message where
  value : Word
  whom : Word
  perm : Word

/-- `ipc_recv`, once `syscall_ipc_recv` has returned 0. -/
def ipcRecv (env : Env) : Message := { value := env.envIpcValue, whom := env.envIpcFrom, perm := env.envIpcPerm }

theorem send_delivered {k : Kernel} {cur e : EnvIx} {envid value srcva perm : Word} {r : Sysret × Kernel}
    (h : sysIpcTrySend k cur envid value srcva perm = some r) (hd : Reaches k cur envid srcva e) :
    ipcRecv (r.2.envs e) = { value := value, whom := (k.envs cur).envId, perm := pteV ||| perm } := by
  have hwoken : ∀ e' q, envid2env k cur envid false = some e' → ipcRecv ((woken k cur e' value perm q).envs e) =
      { value := value, whom := (k.envs cur).envId, perm := pteV ||| perm } := by
    intro e' q he'
    obtain rfl : e = e' := by simpa using hd.2.1.symm.trans he'
    show ipcRecv ((k.setEnv e (fun v => v.deliver value (k.envs cur).envId perm)).envs e) = _
    rw [Kernel.setEnv_self]
    rfl
  cases send_inv h with
  | refused i _ hno => exact absurd hd (hno e)
  | value e' q he hr hq h0 => exact hwoken e' q he
  | lost e' q he hr hq h0 hva => exact hwoken e' q he
  | page e' q pp pte i pm he hr hq h0 hva => exact hwoken e' q he

theorem edit_message {T : Trapframe → Prop} {k : Kernel} {a : Act} {e : EnvIx} {v v' : Env} (h : Edit T k a e v v')
    (hno : ¬Delivers k a e) : ipcRecv v' = ipcRecv v := by
  cases h with
  | alloc _ h => cases h <;> rfl
  | deliver value src perm _ hd => exact absurd hd hno
  | _ => rfl

/-- **A message stays until the next one is delivered.** -/
theorem step_messages {k k' : Kernel} {a : Act} (hal : k.procs.Alive) (h : step k a = some k') {e : EnvIx}
    (hno : ¬Delivers k a e) : ipcRecv (k'.envs e) = ipcRecv (k.envs e) := by
  have hheld : Held (fun x v => ¬Delivers k a x → ipcRecv v = ipcRecv (k.envs x)) (fun _ => True) k :=
    ⟨fun _ _ => rfl, fun _ _ => trivial⟩
  have hrule : EditRule (fun x v => ¬Delivers k a x → ipcRecv v = ipcRecv (k.envs x)) (fun _ => True) k a := by
    refine ⟨fun x v v' hv hm hno => ?_, fun _ _ _ _ => trivial, fun _ _ _ _ => trivial,
      fun _ _ _ _ _ _ _ _ _ _ => trivial⟩
    rw [edit_message hv hno]
    exact hm hno
  exact (hheld.step hal hrule h).envs e hno

end Mos
