/-!
# Fallible — computations that return a value, return an error code, or panic

A function of a C program that returns an `int` is a computation over its state: it comes back with a value or with an
error code, and with the state it leaves; or it panics and does not come back.  A caller that writes `try(…)` hands the
code on, which is what `>>=` does; `attempt` is the caller that looks at it.

`Runs P x Q` says that from every state with `P` the computation comes back, and then `Q` holds of what it returns and
of the state; `Relates R x` says that whenever it comes back, the states before and after are related.
-/

/-- A computation over the state `S`. -/
def Fallible (S α : Type) : Type := S → Option (Except Int α × S)

namespace Fallible

variable {S α β : Type}

def ret (a : α) : Fallible S α := fun s => some (.ok a, s)

/-- `return e` for an error code. -/
def fail (e : Int) : Fallible S α := fun s => some (.error e, s)

def panic : Fallible S α := fun _ => none

def bind (x : Fallible S α) (f : α → Fallible S β) : Fallible S β := fun s =>
  (x s).bind fun r =>
    match r.1 with
    | .ok a => f a r.2
    | .error e => some (.error e, r.2)

instance : Monad (Fallible S) where
  pure := ret
  bind := bind

/-- A value of the state. -/
def read (f : S → α) : Fallible S α := fun s => some (.ok (f s), s)

def modify (f : S → S) : Fallible S Unit := fun s => some (.ok (), f s)

/-- The value or the code, as a value. -/
def attempt (x : Fallible S α) : Fallible S (Except Int α) := fun s => (x s).map fun r => (.ok r.1, r.2)

/-- `panic_on`: an error code is a panic. -/
def orPanic (x : Fallible S α) : Fallible S α := fun s =>
  (x s).bind fun r =>
    match r.1 with
    | .ok a => some (.ok a, r.2)
    | .error _ => none

def assert (b : Bool) : Fallible S Unit := if b then ret () else panic

variable {x : Fallible S α} {f : α → Fallible S β} {s s' : S}

theorem bind_run : (x >>= f) s = (x s).bind fun r =>
    match r.1 with
    | .ok a => f a r.2
    | .error e => some (.error e, r.2) := rfl

/-- **What a sequence comes back with**: the code of its first part, or what its second part makes of the value. -/
theorem bind_eq_some {r : Except Int β} (h : (x >>= f) s = some (r, s')) :
    (∃ e, x s = some (.error e, s') ∧ r = .error e) ∨ ∃ a s₁, x s = some (.ok a, s₁) ∧ f a s₁ = some (r, s') := by
  rw [bind_run] at h
  obtain ⟨⟨r₁, s₁⟩, hx, hrest⟩ := Option.bind_eq_some_iff.1 h
  cases r₁ with
  | error e =>
    cases hrest
    exact .inl ⟨e, hx, rfl⟩
  | ok a => exact .inr ⟨a, s₁, hx, hrest⟩

theorem bind_of_ok {a : α} {s₁ : S} (h : x s = some (.ok a, s₁)) : (x >>= f) s = f a s₁ := by
  rw [bind_run, h]
  rfl

theorem bind_of_error {e : Int} {s₁ : S} (h : x s = some (.error e, s₁)) : (x >>= f) s = some (.error e, s₁) := by
  rw [bind_run, h]
  rfl

theorem bind_read {γ : Type} {g : S → γ} {k : γ → Fallible S β} : (read g >>= k) s = k (g s) s := rfl

theorem bind_attempt {k : Except Int α → Fallible S β} {r : Except Int α} (h : x s = some (r, s')) :
    (attempt x >>= k) s = k r s' := by
  rw [bind_run]
  unfold attempt
  rw [h]
  rfl

/-! ## Total correctness -/

/-- From `P` the computation comes back, with `Q`. -/
def Runs (P : S → Prop) (x : Fallible S α) (Q : Except Int α → S → Prop) : Prop :=
  ∀ s, P s → ∃ r s', x s = some (r, s') ∧ Q r s'

/-! ## Relations between the states -/

/-- The states before and after are related. -/
def Relates (R : S → S → Prop) (x : Fallible S α) : Prop := ∀ s r s', x s = some (r, s') → R s s'

namespace Relates

variable {R : S → S → Prop}

theorem ret (hr : ∀ s, R s s) (a : α) : Relates R (Fallible.ret a) := by
  intro s r s' h
  cases h
  exact hr s

theorem fail (hr : ∀ s, R s s) (e : Int) : Relates R (Fallible.fail e : Fallible S α) := by
  intro s r s' h
  cases h
  exact hr s

theorem panic : Relates R (Fallible.panic : Fallible S α) := by
  intro s r s' h
  cases h

theorem read (hr : ∀ s, R s s) (g : S → α) : Relates R (Fallible.read g) := by
  intro s r s' h
  cases h
  exact hr s

theorem bind (ht : ∀ a b c, R a b → R b c → R a c) (hx : Relates R x) (hf : ∀ a, Relates R (f a)) :
    Relates R (x >>= f) := by
  intro s r s' h
  rcases bind_eq_some h with ⟨e, hx', -⟩ | ⟨a, s₁, hx', hf'⟩
  · exact hx s _ s' hx'
  · exact ht s s₁ s' (hx s _ s₁ hx') (hf a s₁ _ s' hf')

theorem attempt (hx : Relates R x) : Relates R x.attempt := by
  intro s r s' h
  obtain ⟨⟨r₁, s₁⟩, hx', hr⟩ := Option.map_eq_some_iff.1 h
  cases hr
  exact hx s _ _ hx'

theorem orPanic (hx : Relates R x) : Relates R x.orPanic := by
  intro s r s' h
  obtain ⟨⟨r₁, s₁⟩, hx', hr⟩ := Option.bind_eq_some_iff.1 h
  cases r₁ with
  | error e => cases hr
  | ok a =>
    cases hr
    exact hx s _ _ hx'

theorem ite {c : Prop} [Decidable c] {y : Fallible S α} (hx : c → Relates R x) (hy : ¬c → Relates R y) :
    Relates R (if c then x else y) := by
  split
  · rename_i h
    exact hx h
  · rename_i h
    exact hy h

end Relates

/-! ## Computations without an error code -/

/-- The computation has no error code to return. -/
def Sure (x : Fallible S α) : Prop := ∀ s e s', x s ≠ some (.error e, s')

namespace Sure

variable {x : Fallible S α} {f : α → Fallible S β}

theorem ret (a : α) : Sure (Fallible.ret a : Fallible S α) := by
  intro s e s' h
  cases h

theorem panic : Sure (Fallible.panic : Fallible S α) := by
  intro s e s' h
  cases h

theorem read (g : S → α) : Sure (Fallible.read g) := by
  intro s e s' h
  cases h

theorem modify (g : S → S) : Sure (Fallible.modify g) := by
  intro s e s' h
  cases h

theorem bind (hx : Sure x) (hf : ∀ a, Sure (f a)) : Sure (x >>= f) := by
  intro s e s' h
  rcases bind_eq_some h with ⟨e', hx', -⟩ | ⟨a, s₁, -, hf'⟩
  · exact hx s e' s' hx'
  · exact hf a s₁ e s' hf'

theorem attempt (x : Fallible S α) : Sure x.attempt := by
  intro s e s' h
  obtain ⟨r, -, hr⟩ := Option.map_eq_some_iff.1 h
  cases hr

theorem orPanic (x : Fallible S α) : Sure x.orPanic := by
  intro s e s' h
  obtain ⟨⟨r, s₁⟩, -, hr⟩ := Option.bind_eq_some_iff.1 h
  cases r with
  | error e => cases hr
  | ok a => cases hr

theorem ite {c : Prop} [Decidable c] {y : Fallible S α} (hx : Sure x) (hy : Sure y) : Sure (if c then x else y) := by
  split
  · exact hx
  · exact hy

end Sure

/-! ## Which error codes -/

/-- The error codes of the computation are among those of `E`. -/
def Codes (E : Int → Prop) (x : Fallible S α) : Prop := ∀ s e s', x s = some (.error e, s') → E e

namespace Codes

variable {E : Int → Prop} {x : Fallible S α} {f : α → Fallible S β}

theorem of_sure (h : Sure x) : Codes E x := fun s e s' he => absurd he (h s e s')

theorem fail {e : Int} (he : E e) : Codes E (Fallible.fail e : Fallible S α) := by
  intro s e' s' h
  cases h
  exact he

theorem bind (hx : Codes E x) (hf : ∀ a, Codes E (f a)) : Codes E (x >>= f) := by
  intro s e s' h
  rcases bind_eq_some h with ⟨e', hx', heq⟩ | ⟨a, s₁, -, hf'⟩
  · cases heq
    exact hx s e s' hx'
  · exact hf a s₁ e s' hf'

theorem ite {c : Prop} [Decidable c] {y : Fallible S α} (hx : c → Codes E x) (hy : ¬c → Codes E y) :
    Codes E (if c then x else y) := by
  split
  · rename_i h
    exact hx h
  · rename_i h
    exact hy h

end Codes

end Fallible
