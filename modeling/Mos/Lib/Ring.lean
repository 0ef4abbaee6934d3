import Mathlib.Data.List.Basic
import Mathlib.Logic.Function.Basic
/-!
# Ring — a ring buffer and the stream that passes through it

A ring of `n` slots is written at `w % n` and read at `r % n` for two positions that only grow.  `Ringed n buf r xs`
says that the slots from `r` on hold what the stream `xs` has there; it is kept by a write while the window is not
full, by publishing what was written, and by giving a slot up.
-/

/-- **From position `r` on, the ring holds the elements of the stream.** -/
def Ringed {α : Type} (n : Nat) (buf : Nat → α) (r : Nat) (xs : List α) : Prop :=
  ∀ j, r ≤ j → ∀ x, xs[j]? = some x → buf (j % n) = x

namespace Ringed

variable {α : Type} {n r : Nat} {buf : Nat → α} {xs : List α}

theorem slot_ne {j w : Nat} (hj : r ≤ j) (hjw : j < w) (hw : w < r + n) : j % n ≠ w % n := by
  intro he
  have hdvd : n ∣ w - j := Nat.dvd_of_mod_eq_zero (Nat.sub_mod_eq_zero_of_mod_eq he.symm)
  have hle := Nat.le_of_dvd (by omega) hdvd
  omega

theorem nil : Ringed n buf r [] := by
  intro j _ x hx
  cases hx

theorem pop (h : Ringed n buf r xs) : Ringed n buf (r + 1) xs := fun j hj => h j (by omega)

/-- **A write at the end of a window that is not full** changes nothing in it. -/
theorem write (h : Ringed n buf r xs) (x : α) (hw : xs.length < r + n) :
    Ringed n (Function.update buf (xs.length % n) x) r xs := by
  intro j hj y hy
  have hlt : j < xs.length := (List.getElem?_eq_some_iff.1 hy).1
  rw [Function.update_of_ne (slot_ne hj hlt hw)]
  exact h j hj y hy

theorem push (h : Ringed n buf r xs) {x : α} (hx : buf (xs.length % n) = x) : Ringed n buf r (xs ++ [x]) := by
  intro j hj y hy
  rw [List.getElem?_append] at hy
  split at hy
  · exact h j hj y hy
  · rename_i hlt
    obtain ⟨hj0, hy⟩ := List.getElem?_eq_some_iff.1 hy
    have hjw : j = xs.length := by
      rw [List.length_singleton] at hj0
      omega
    subst hjw
    rw [hx]
    simpa using hy

/-- **The slot at `r` has the next element.** -/
theorem get (h : Ringed n buf r xs) (hr : r < xs.length) : xs.take r ++ [buf (r % n)] = xs.take (r + 1) := by
  rw [h r (Nat.le_refl r) xs[r] (List.getElem?_eq_getElem hr), List.take_append_getElem hr]

end Ringed
