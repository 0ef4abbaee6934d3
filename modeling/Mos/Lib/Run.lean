/-!
# Run — what a transition system reaches

A system is a set of first states and a partial step function over actions; a step that yields `none` is the end of
the run (the system halted, or the action was not available).  `Run init step ok` are the states reached by steps that
all meet the guard `ok`, `Reach` those reached by any steps, and `Run.invariant` is the one induction every safety
result goes through.
-/

/-- The states reached from `init` by steps whose state and action meet `ok`. -/
inductive Run {S A : Type} (init : S → Prop) (step : S → A → Option S) (ok : S → A → Prop) : S → Prop where
  | start (s : S) : init s → Run init step ok s
  | next (s : S) (a : A) (s' : S) : Run init step ok s → ok s a → step s a = some s' → Run init step ok s'

/-- The states reached from `init` by any steps. -/
def Reach {S A : Type} (init : S → Prop) (step : S → A → Option S) : S → Prop :=
  Run init step (fun _ _ => True)

namespace Run

variable {S A : Type} {init : S → Prop} {step : S → A → Option S} {ok : S → A → Prop}

/-- **An invariant of the first states that every guarded step keeps holds in every state of a guarded run.** -/
theorem invariant (Inv : S → Prop) (hinit : ∀ s, init s → Inv s)
    (hstep : ∀ s a s', Inv s → ok s a → step s a = some s' → Inv s') : ∀ s, Run init step ok s → Inv s := by
  intro s h
  induction h with
  | start s hs => exact hinit s hs
  | next s a s' _ hok hs ih => exact hstep s a s' ih hok hs

theorem trans {s t : S} (h : Run init step ok s) (h' : Run (· = s) step ok t) : Run init step ok t := by
  induction h' with
  | start t ht => exact ht ▸ h
  | next t a t' _ ho hs ih => exact .next t a t' ih ho hs

theorem mono {ok' : S → A → Prop} (hok : ∀ s a, ok s a → ok' s a) {s : S} (h : Run init step ok s) :
    Run init step ok' s := by
  induction h with
  | start s hs => exact .start s hs
  | next s a s' _ ho hs ih => exact .next s a s' ih (hok s a ho) hs

end Run

/-! ## Running a list of actions -/

/-- The state after a list of actions whose steps all pass the check `okB`. -/
def exec {S A : Type} (step : S → A → Option S) (okB : S → A → Bool) : List A → S → Option S
  | [], s => some s
  | a :: as, s => if okB s a then (step s a).bind (exec step okB as) else none

namespace Run

variable {S A : Type} {init : S → Prop} {step : S → A → Option S} {ok : S → A → Prop} {okB : S → A → Bool}

/-- **A list of actions that runs through is a run**, when the check decides the guard. -/
theorem of_exec (hok : ∀ s a, okB s a = true → ok s a) : ∀ (as : List A) (s s' : S), Run init step ok s →
    exec step okB as s = some s' → Run init step ok s'
  | [], s, s', h, he => by cases he; exact h
  | a :: as, s, s', h, he => by
    unfold exec at he
    split at he
    · rename_i hb
      obtain ⟨t, ht, hrest⟩ := Option.bind_eq_some_iff.1 he
      exact of_exec hok as t s' (.next s a t h (hok s a hb) ht) hrest
    · cases he

/-- A first state and a list of actions whose last state passes a test: a run to such a state. -/
theorem exists_of_exec (hok : ∀ s a, okB s a = true → ok s a) (as : List A) (s₀ : Option S)
    (hinit : ∀ s, s₀ = some s → init s) (p : S → Bool) (h : (s₀.bind (exec step okB as)).any p = true) :
    ∃ s, Run init step ok s ∧ p s = true := by
  obtain ⟨s', hs', hp⟩ := (Option.any_eq_true _ _).1 h
  obtain ⟨s, hs, he⟩ := Option.bind_eq_some_iff.1 hs'
  exact ⟨s', of_exec hok as s s' (.start s (hinit s hs)) he, hp⟩

end Run
