import Mos.Env
/-!
# Sched — the scheduler

`kern/sched.c`, and `env_destroy` of `kern/env.c`, which ends in it.
-/
namespace Mos

/-- `schedule` takes a new environment from the list. -/
def mustSwitch (k : Kernel) (yield : Bool) : Bool :=
  yield || decide (k.count ≤ 0) ||
    match k.curenv with
    | none => true
    | some e => decide ((k.envs e).envStatus ≠ .runnable)

/-- The list `schedule` picks from: the previous environment is taken out, and goes to the tail while runnable. -/
def requeue (k : Kernel) : Option (Tailq EnvIx) :=
  match k.curenv with
  | none => some k.sched
  | some e => (k.sched.remove e).bind (fun q => if (k.envs e).envStatus = .runnable then q.insertTail e else some q)

def schedule (k : Kernel) (yield : Bool) : Option Kernel :=
  if mustSwitch k yield then
    (requeue k).bind (fun q =>
      match q.first with
      | none => none
      | some e => envRun { k with sched := q, count := (k.envs e).envPri.toInt - 1 } e)
  else
    match k.curenv with
    | none => none
    | some e => envRun { k with count := k.count - 1 } e

def envDestroy (k : Kernel) (e : EnvIx) : Option Kernel :=
  (envFree k e).bind (fun k₁ =>
    if k₁.curenv = some e then schedule { k₁ with curenv := none } true else some k₁)

end Mos
