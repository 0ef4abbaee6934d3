import Mathlib.Data.List.Basic
/-!
# Writes — regions that do not overlap

A write puts a list of cells into a memory, from an address on.  After writes to regions that do not overlap each region
reads as it was written, whatever else was written before or after.  Regions that follow each other do not overlap.
-/

structure Put (β : Type) where
  addr : Nat
  cells : List β

namespace Put

variable {β : Type} {m : Nat → β} {ws ws' : List (Put β)} {w : Put β} {lo mid hi : Nat}

/-- The first address after the region. -/
def stop (w : Put β) : Nat := w.addr + w.cells.length

/-- The regions do not overlap. -/
def Apart (w w' : Put β) : Prop := w.stop ≤ w'.addr ∨ w'.stop ≤ w.addr

def apply (m : Nat → β) (w : Put β) (a : Nat) : β := if w.addr ≤ a then (w.cells[a - w.addr]?).getD (m a) else m a

theorem apply_outside {a : Nat} (h : a < w.addr ∨ w.stop ≤ a) : w.apply m a = m a := by
  unfold apply
  unfold stop at h
  split
  · rw [List.getElem?_eq_none (by omega)]
    rfl
  · rfl

theorem apply_inside {j : Nat} (hj : j < w.cells.length) : w.apply m (w.addr + j) = w.cells[j] := by
  unfold apply
  rw [if_pos (Nat.le_add_right _ _), Nat.add_sub_cancel_left, List.getElem?_eq_getElem hj]
  rfl

theorem foldl_outside {a : Nat} : ∀ {ws : List (Put β)} {m : Nat → β}, (∀ w ∈ ws, a < w.addr ∨ w.stop ≤ a) →
    ws.foldl apply m a = m a
  | [], _, _ => rfl
  | w :: ws, m, h => by
    rw [List.foldl_cons, foldl_outside fun x hx => h x (List.mem_cons_of_mem _ hx)]
    exact apply_outside (h w List.mem_cons_self)

/-- **What was written is read**, if nothing else was written over it. -/
theorem foldl_read {j : Nat} :
    ∀ {ws : List (Put β)} {m : Nat → β}, ws.Pairwise Apart → w ∈ ws → (hj : j < w.cells.length) →
    ws.foldl apply m (w.addr + j) = w.cells[j]
  | [], _, _, hw, _ => nomatch hw
  | x :: ws, m, hp, hw, hj => by
    rw [List.pairwise_cons] at hp
    rw [List.foldl_cons]
    rcases List.mem_cons.1 hw with rfl | hw
    · rw [foldl_outside, apply_inside hj]
      intro y hy
      have := hp.1 y hy
      unfold Apart stop at this
      unfold stop
      omega
    · exact foldl_read hp.2 hw hj

/-! ## Regions that follow each other -/

/-- The writes fill `[lo, hi)` from the left. -/
def Tiles : Nat → List (Put β) → Nat → Prop
  | lo, [], hi => lo = hi
  | lo, w :: ws, hi => w.addr = lo ∧ Tiles w.stop ws hi

namespace Tiles

theorem append : ∀ {ws : List (Put β)} {lo : Nat}, Tiles lo ws mid → Tiles mid ws' hi → Tiles lo (ws ++ ws') hi
  | [], _, h, h' => by
    obtain rfl : _ = mid := h
    exact h'
  | _ :: _, _, h, h' => ⟨h.1, h.2.append h'⟩

theorem le : ∀ {ws : List (Put β)} {lo : Nat}, Tiles lo ws hi → lo ≤ hi
  | [], _, h => Nat.le_of_eq h
  | w :: ws, lo, h => by
    have hle := h.2.le
    have hlo := h.1
    unfold stop at hle
    omega

theorem within : ∀ {ws : List (Put β)} {lo : Nat}, Tiles lo ws hi → w ∈ ws → lo ≤ w.addr ∧ w.stop ≤ hi
  | [], _, _, hw => nomatch hw
  | x :: ws, lo, h, hw => by
    have hlo := h.1
    rcases List.mem_cons.1 hw with rfl | hw
    · exact ⟨Nat.le_of_eq hlo.symm, h.2.le⟩
    · obtain ⟨h₁, h₂⟩ := h.2.within hw
      unfold stop at h₁
      exact ⟨by omega, h₂⟩

/-- **Writes that follow each other do not overlap.** -/
theorem pairwise : ∀ {ws : List (Put β)} {lo : Nat}, Tiles lo ws hi → ws.Pairwise Apart
  | [], _, _ => List.Pairwise.nil
  | _ :: _, _, h => List.pairwise_cons.2 ⟨fun _ hy => .inl (h.2.within hy).1, h.2.pairwise⟩

end Tiles

theorem pairwise_append (mid : Nat) (h : ws.Pairwise Apart) (h' : ws'.Pairwise Apart) (hlo : ∀ w ∈ ws, mid ≤ w.addr)
    (hhi : ∀ w ∈ ws', w.stop ≤ mid) : (ws ++ ws').Pairwise Apart :=
  List.pairwise_append.2 ⟨h, h', fun w hw w' hw' => .inr (Nat.le_trans (hhi w' hw') (hlo w hw))⟩

end Put
