import Mos.Lib.Run
/-!
# Behaviour — runs without an end

A behaviour is an infinite sequence of steps from a first state.  What must happen in it is said by indices:
`holds_until` is the rule for a state of affairs that lasts until something happens, and `lasso` makes a behaviour of
a finite run and a step that leads from its last state to itself.
-/

theorem holds_until {P R : Nat → Prop} {n : Nat} (hP : P n) (hkeep : ∀ m, n ≤ m → P m → ¬R m → P (m + 1))
    (hR : ∃ m, n ≤ m ∧ R m) : ∃ m, n ≤ m ∧ P m ∧ R m := by
  apply Classical.byContradiction
  intro hno
  have hall : ∀ d, P (n + d) := by
    intro d
    induction d with
    | zero => exact hP
    | succ d ih => exact hkeep (n + d) (Nat.le_add_right n d) ih fun hr => hno ⟨n + d, Nat.le_add_right n d, ih, hr⟩
  obtain ⟨m, hnm, hr⟩ := hR
  obtain ⟨d, rfl⟩ := Nat.exists_eq_add_of_le hnm
  exact hno ⟨n + d, hnm, hall d, hr⟩

/-- An infinite run. -/
structure Behaviour {S A : Type} (init : S → Prop) (step : S → A → Option S) where
  state : Nat → S
  act : Nat → A
  start : init (state 0)
  next : ∀ n, step (state n) (act n) = some (state (n + 1))

namespace Behaviour

variable {S A : Type} {init : S → Prop} {step : S → A → Option S} {ok : S → A → Prop} {okB : S → A → Bool}

/-- Every state of a behaviour whose steps meet the guard is the state of a guarded run. -/
theorem run (b : Behaviour init step) (hok : ∀ n, ok (b.state n) (b.act n)) : ∀ n, Run init step ok (b.state n)
  | 0 => .start _ b.start
  | n + 1 => .next _ _ _ (b.run hok n) (hok n) (b.next n)

/-! ## Lassos -/

/-- The states along a list of actions; the last one stays. -/
def states (step : S → A → Option S) : List A → S → Nat → S
  | _, s, 0 => s
  | [], s, _ + 1 => s
  | a :: as, s, n + 1 => ((step s a).map fun s' => states step as s' n).getD s

/-- The actions of a list, and `l` after its end. -/
def acts (l : A) : List A → Nat → A
  | [], _ => l
  | a :: _, 0 => a
  | _ :: as, n + 1 => acts l as n

theorem states_nil (s : S) (n : Nat) : states step [] s n = s := by cases n <;> rfl

theorem lasso_next (hok : ∀ s a, okB s a = true → ok s a) {l : A} {t : S} (hl : step t l = some t) (hlok : ok t l) :
    ∀ (as : List A) (s : S), exec step okB as s = some t → ∀ n,
      step (states step as s n) (acts l as n) = some (states step as s (n + 1)) ∧
        ok (states step as s n) (acts l as n) ∧
      (as.length ≤ n → states step as s n = t)
  | [], s, he, n => by
    cases he
    rw [states_nil, states_nil]
    exact ⟨hl, hlok, fun _ => rfl⟩
  | a :: as, s, he, n => by
    unfold exec at he
    split at he
    · rename_i hb
      obtain ⟨s', hs', hrest⟩ := Option.bind_eq_some_iff.1 he
      have hstates : ∀ m, states step (a :: as) s (m + 1) = states step as s' m := fun m => by
        show ((step s a).map fun s' => states step as s' m).getD s = _
        rw [hs']
        rfl
      cases n with
      | zero =>
        rw [hstates 0]
        refine ⟨?_, hok s a hb, fun hlen => absurd hlen (Nat.not_succ_le_zero _)⟩
        rw [show states step as s' 0 = s' by cases as <;> rfl]
        exact hs'
      | succ n =>
        rw [hstates n, hstates (n + 1)]
        obtain ⟨hnext, ho, hend⟩ := lasso_next hok hl hlok as s' hrest n
        exact ⟨hnext, ho, fun hlen => hend (Nat.le_of_succ_le_succ hlen)⟩
    · cases he

theorem acts_getElem? {l x : A} : ∀ (as : List A) (i : Nat), as[i]? = some x → acts l as i = x
  | a :: _, 0, h => by
    cases h
    rfl
  | _ :: as, i + 1, h => acts_getElem? as i h

/-- A list of actions that runs through to a state with a step to itself is the beginning of a behaviour that stays
there. -/
theorem lasso (hok : ∀ s a, okB s a = true → ok s a) (as : List A) (s₀ : Option S) (hinit : ∀ s, s₀ = some s → init s)
    (p : S → Bool) (h : (s₀.bind (exec step okB as)).any p = true)
    (hloop : ∀ t, p t = true → ∃ l, step t l = some t ∧ ok t l) :
    ∃ b : Behaviour init step, (∀ n, ok (b.state n) (b.act n)) ∧ (∀ i x, as[i]? = some x → b.act i = x) ∧
      ∀ n, as.length ≤ n → p (b.state n) = true := by
  obtain ⟨t, ht, hp⟩ := (Option.any_eq_true _ _).1 h
  obtain ⟨s, hs, he⟩ := Option.bind_eq_some_iff.1 ht
  obtain ⟨l, hl, hlok⟩ := hloop t hp
  have hnext := lasso_next hok hl hlok as s he
  have hzero : states step as s 0 = s := by cases as <;> rfl
  have hstart : init (states step as s 0) := by
    rw [hzero]
    exact hinit s hs
  exact ⟨⟨states step as s, acts l as, hstart, fun n => (hnext n).1⟩, fun n => (hnext n).2.1,
    fun i x hx => acts_getElem? as i hx, fun n hn => ((hnext n).2.2 hn).symm ▸ hp⟩

end Behaviour
