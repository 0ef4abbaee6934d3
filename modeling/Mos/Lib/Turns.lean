import Mathlib.Algebra.Ring.Nat
import Mathlib.Algebra.BigOperators.Group.List.Basic
import Mathlib.Logic.Function.Iterate
/-!
# Turns — weighted turns in a rotating queue

The head of a queue has its turn for as many ticks as its weight, then goes to the tail.  `turns` is the sequence of one
round; the theorem is that the queue plays it over and over, and is in its first order after every round.
-/

/-- The queue, and how many ticks the head has left after this one. -/
structure Turn (α : Type) where
  queue : List α
  left : Nat

namespace Turn

variable {α : Type} (w : α → Nat)

/-- The head begins its turn. -/
def start : List α → Turn α
  | [] => ⟨[], 0⟩
  | e :: xs => ⟨e :: xs, w e - 1⟩

/-- The head goes to the tail. -/
def yield (s : Turn α) : Turn α :=
  match s.queue with
  | [] => s
  | e :: xs => start w (xs ++ [e])

def tick (s : Turn α) : Turn α :=
  match s.left with
  | 0 => s.yield w
  | n + 1 => ⟨s.queue, n⟩

/-- One round: every element as often as its weight. -/
def turns (xs : List α) : List α := xs.flatMap fun e => List.replicate (w e) e

variable {w}

theorem iterate_slice (e : α) (xs : List α) : ∀ n, n < w e → (tick w)^[n] (start w (e :: xs)) = ⟨e :: xs, w e - 1 - n⟩
  | 0, _ => rfl
  | n + 1, h => by
    rw [Function.iterate_succ_apply', iterate_slice e xs n (by omega)]
    have hleft : w e - 1 - n = w e - 1 - (n + 1) + 1 := by omega
    rw [hleft]
    rfl

theorem iterate_turn {e : α} (xs : List α) (he : 0 < w e) :
    (tick w)^[w e] (start w (e :: xs)) = start w (xs ++ [e]) := by
  obtain ⟨n, hn⟩ : ∃ n, w e = n + 1 := ⟨w e - 1, by omega⟩
  rw [hn, Function.iterate_succ_apply', iterate_slice e xs n (by omega)]
  have hleft : w e - 1 - n = 0 := by omega
  rw [hleft]
  rfl

/-- **The turns of a part of the queue.** -/
theorem iterate_turns : ∀ (xs ys : List α), (∀ e ∈ xs, 0 < w e) →
    (tick w)^[(xs.map w).sum] (start w (xs ++ ys)) = start w (ys ++ xs)
  | [], ys, _ => by simp
  | e :: xs, ys, h => by
    rw [List.map_cons, List.sum_cons, Nat.add_comm, Function.iterate_add_apply, List.cons_append,
      iterate_turn _ (h e List.mem_cons_self), List.append_assoc,
      iterate_turns xs (ys ++ [e]) (fun x hx => h x (List.mem_cons_of_mem _ hx)), List.append_assoc]
    rfl

theorem head_iterate : ∀ (xs ys : List α) (t : Nat), (∀ e ∈ xs, 0 < w e) → t < (xs.map w).sum →
    ((tick w)^[t] (start w (xs ++ ys))).queue.head? = (turns w xs)[t]?
  | [], ys, t, _, ht => absurd ht (Nat.not_lt_zero t)
  | e :: xs, ys, t, h, ht => by
    have hturns : turns w (e :: xs) = List.replicate (w e) e ++ turns w xs := rfl
    rw [List.map_cons, List.sum_cons] at ht
    rw [hturns, List.getElem?_append, List.length_replicate]
    split
    · rename_i hlt
      rw [List.cons_append, iterate_slice e _ t hlt, List.getElem?_replicate, if_pos hlt]
      rfl
    · rename_i hge
      have hsplit : t = t - w e + w e := by omega
      rw [hsplit, Function.iterate_add_apply, List.cons_append,
        iterate_turn _ (h e List.mem_cons_self), List.append_assoc,
        head_iterate xs (ys ++ [e]) (t - w e) (fun x hx => h x (List.mem_cons_of_mem _ hx)) (by omega), ← hsplit]

theorem iterate_round (xs : List α) (h : ∀ e ∈ xs, 0 < w e) :
    ∀ n, (tick w)^[(xs.map w).sum * n] (start w xs) = start w xs
  | 0 => rfl
  | n + 1 => by
    have hone := iterate_turns xs [] h
    rw [List.append_nil, List.nil_append] at hone
    rw [Nat.mul_succ, Function.iterate_add_apply, hone, iterate_round xs h n]

/-- **The queue plays its round over and over.** -/
theorem head_iterate_round {xs : List α} (h : ∀ e ∈ xs, 0 < w e) (hne : xs ≠ []) (t : Nat) :
    ((tick w)^[t] (start w xs)).queue.head? = (turns w xs)[t % (xs.map w).sum]? := by
  have hpos : 0 < (xs.map w).sum := by
    obtain ⟨e, xs, rfl⟩ := List.exists_cons_of_ne_nil hne
    have := h e List.mem_cons_self
    rw [List.map_cons, List.sum_cons]
    omega
  have hsplit : t = t % (xs.map w).sum + (xs.map w).sum * (t / (xs.map w).sum) := (Nat.mod_add_div _ _).symm
  have hhead := head_iterate xs [] (t % (xs.map w).sum) h (Nat.mod_lt _ hpos)
  rw [List.append_nil] at hhead
  conv_lhs => rw [hsplit]
  rw [Function.iterate_add_apply, iterate_round xs h, hhead]

theorem perm_iterate (s : Turn α) : ∀ t, ((tick w)^[t] s).queue.Perm s.queue
  | 0 => List.Perm.refl _
  | t + 1 => by
    rw [Function.iterate_succ_apply']
    refine List.Perm.trans ?_ (perm_iterate s t)
    generalize (tick w)^[t] s = s'
    obtain ⟨queue, left⟩ := s'
    cases left with
    | succ n => exact List.Perm.refl _
    | zero =>
      cases queue with
      | nil => exact List.Perm.refl _
      | cons e xs =>
        have hq : (tick w ⟨e :: xs, 0⟩).queue = xs ++ [e] := by
          show (start w (xs ++ [e])).queue = _
          cases xs <;> rfl
        rw [hq]
        exact List.perm_append_singleton e xs

end Turn
