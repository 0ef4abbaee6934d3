import Mathlib.Order.Basic
/-!
# While — loops with an effect

`whileDo go body` is `while (go) body`: a body that yields `none` is the end of everything, and so is a loop that has
not ended when the fuel is spent.  What the body keeps, the loop keeps (`whileDo_keeps`).  A loop whose states are
known one by one ends in the first of them in which it does not go on (`whileDo_trace`); one that keeps an invariant
for each number of rounds ends with the last of them (`whileDo_rounds`).
-/

section While

variable {S : Type} {go : S → Bool} {body : S → Option S}

/-- `while (go) body`, with at most `fuel` tests of the condition. -/
def whileDo (go : S → Bool) (body : S → Option S) : Nat → S → Option S
  | 0, _ => none
  | fuel + 1, s => if go s then (body s).bind (whileDo go body fuel) else some s

theorem whileDo_done {fuel : Nat} {s : S} (h : go s = false) : whileDo go body (fuel + 1) s = some s := by
  rw [whileDo, h]
  rfl

theorem whileDo_step {fuel : Nat} {s s' : S} (h : go s = true) (hs : body s = some s') :
    whileDo go body (fuel + 1) s = whileDo go body fuel s' := by
  rw [whileDo, h, hs]
  rfl

/-- **A loop whose states are known** ends in the first of them in which it does not go on. -/
theorem whileDo_trace (go : S → Bool) (body : S → Option S) : ∀ (fuel : Nat) (t : Nat → S) {k : Nat},
    (∀ i < k, go (t i) = true ∧ body (t i) = some (t (i + 1))) → go (t k) = false → k < fuel →
    whileDo go body fuel (t 0) = some (t k)
  | 0, _, _, _, _, hf => absurd hf (Nat.not_lt_zero _)
  | _ + 1, _, 0, _, hend, _ => whileDo_done hend
  | fuel + 1, t, k + 1, h, hend, hf => by
    obtain ⟨hgo, hbody⟩ := h 0 (Nat.succ_pos _)
    rw [whileDo_step hgo hbody]
    exact whileDo_trace go body fuel (fun i => t (i + 1)) (fun i hi => h (i + 1) (Nat.succ_lt_succ hi)) hend
      (Nat.lt_of_succ_lt_succ hf)

/-- **A loop of `n` rounds**: `I k` holds after `k` of them. -/
theorem whileDo_rounds (go : S → Bool) (body : S → Option S) (I : Nat → S → Prop) {n : Nat}
    (hstep : ∀ k < n, ∀ s, I k s → go s = true ∧ ∃ s', body s = some s' ∧ I (k + 1) s')
    (hend : ∀ s, I n s → go s = false) :
    ∀ (fuel k : Nat) (s : S), k ≤ n → I k s → n < k + fuel → ∃ s', whileDo go body fuel s = some s' ∧ I n s'
  | 0, _, _, hk, _, hf => absurd hf (Nat.not_lt.2 hk)
  | fuel + 1, k, s, hk, hI, hf => by
    rcases Nat.eq_or_lt_of_le hk with rfl | hlt
    · exact ⟨s, whileDo_done (hend s hI), hI⟩
    · obtain ⟨hgo, s₁, hbody, hI₁⟩ := hstep k hlt s hI
      rw [whileDo_step hgo hbody]
      exact whileDo_rounds go body I hstep hend fuel (k + 1) s₁ (Nat.succ_le_of_lt hlt) hI₁ (by omega)

theorem whileDo_keeps (P : S → Prop) (hstep : ∀ s s', body s = some s' → P s → P s') :
    ∀ (fuel : Nat) (s : S) {s' : S}, whileDo go body fuel s = some s' → P s → P s'
  | 0, _, _, h, _ => absurd h (Option.some_ne_none _).symm
  | fuel + 1, s, s', h, hP => by
    cases hgo : go s with
    | false =>
      rw [whileDo_done hgo] at h
      exact Option.some.inj h ▸ hP
    | true =>
      rw [whileDo, hgo, if_pos rfl] at h
      obtain ⟨s₁, hbody, hrest⟩ := Option.bind_eq_some_iff.1 h
      exact whileDo_keeps P hstep fuel s₁ hrest (hstep s s₁ hbody hP)

end While
