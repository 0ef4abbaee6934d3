import Mathlib.Data.Finset.Card
import Mathlib.Data.Finset.Prod
import Mathlib.Logic.Function.Basic
/-!
# Count — how many slots refer to a value

A table of references is a partial map from slots to values; `count S m f` is the number of slots of `S` that refer to
`f`.  The lemmas say how the counts move when one slot is written, and when slots are added or dropped.
-/

variable {σ ι : Type} [DecidableEq σ] [DecidableEq ι]

/-- The number of slots of `S` that `m` sends to `f`. -/
def count (S : Finset σ) (m : σ → Option ι) (f : ι) : Nat := (S.filter (fun s => m s = some f)).card

omit [DecidableEq σ] in
theorem count_congr {S : Finset σ} {m m' : σ → Option ι} (h : ∀ s ∈ S, m' s = m s) (f : ι) :
    count S m' f = count S m f := by
  unfold count
  rw [Finset.filter_congr (fun s hs => by rw [h s hs])]

omit [DecidableEq σ] in
theorem count_eq_zero {S : Finset σ} {m : σ → Option ι} {f : ι} : count S m f = 0 ↔ ∀ s ∈ S, m s ≠ some f := by
  unfold count
  rw [Finset.card_eq_zero, Finset.filter_eq_empty_iff]

omit [DecidableEq σ] in
theorem count_pos {S : Finset σ} {m : σ → Option ι} {f : ι} {s : σ} (hs : s ∈ S) (h : m s = some f) :
    0 < count S m f := by
  rw [Nat.pos_iff_ne_zero]
  intro h0
  exact count_eq_zero.1 h0 s hs h

/-- **Writing a slot takes one reference from the old value and gives one to the new.** -/
theorem count_write {S : Finset σ} (m m' : σ → Option ι) {s : σ} (hs : s ∈ S) (h : ∀ x ∈ S, x ≠ s → m' x = m x)
    (f : ι) : count S m' f + (if m s = some f then 1 else 0) = count S m f + (if m' s = some f then 1 else 0) := by
  have hout : ∀ n : σ → Option ι, count S n f = count (S.erase s) n f + (if n s = some f then 1 else 0) := by
    intro n
    unfold count
    rw [Finset.filter_erase]
    split
    · rename_i hn
      have hmem : s ∈ S.filter (fun x => n x = some f) := Finset.mem_filter.2 ⟨hs, hn⟩
      rw [Finset.card_erase_add_one hmem]
    · rename_i hn
      have hmem : s ∉ S.filter (fun x => n x = some f) := fun hc => hn (Finset.mem_filter.1 hc).2
      rw [Finset.erase_eq_of_notMem hmem, Nat.add_zero]
  have herase : count (S.erase s) m' f = count (S.erase s) m f :=
    count_congr (fun x hx => h x (Finset.mem_of_mem_erase hx) (Finset.ne_of_mem_erase hx)) f
  rw [hout m', hout m, herase]
  omega

omit [DecidableEq σ] in
theorem count_subset {S T : Finset σ} {m : σ → Option ι} (hsub : S ⊆ T) (h : ∀ s ∈ T, s ∉ S → m s = none) (f : ι) :
    count T m f = count S m f := by
  unfold count
  congr 1
  ext s
  simp only [Finset.mem_filter]
  constructor
  · rintro ⟨hs, hm⟩
    refine ⟨?_, hm⟩
    by_contra hns
    rw [h s hs hns] at hm
    cases hm
  · rintro ⟨hs, hm⟩
    exact ⟨hsub hs, hm⟩

omit [DecidableEq σ] in
/-- When every slot of `f` or `g` has a slot of `h` of its own, there are at least as many of `h`. -/
theorem count_add_le {S : Finset σ} {m : σ → Option ι} {f g h : ι} (φ : σ → σ) (hfg : f ≠ g)
    (hmap : ∀ s ∈ S, m s = some f ∨ m s = some g → φ s ∈ S ∧ m (φ s) = some h)
    (hinj : ∀ s ∈ S, ∀ t ∈ S, (m s = some f ∨ m s = some g) → (m t = some f ∨ m t = some g) → φ s = φ t → s = t) :
    count S m f + count S m g ≤ count S m h := by
  classical
  unfold count
  have hdisj : Disjoint (S.filter fun s => m s = some f) (S.filter fun s => m s = some g) := by
    rw [Finset.disjoint_filter]
    intro s _ hf hg
    rw [hf] at hg
    exact hfg (Option.some.inj hg)
  rw [← Finset.card_union_of_disjoint hdisj, ← Finset.filter_or]
  refine Finset.card_le_card_of_injOn φ (fun s hs => ?_) (fun s hs t ht => ?_)
  · obtain ⟨hsS, hsm⟩ := Finset.mem_filter.1 (Finset.mem_coe.1 hs)
    exact Finset.mem_coe.2 (Finset.mem_filter.2 (hmap s hsS hsm))
  · obtain ⟨hsS, hsm⟩ := Finset.mem_filter.1 (Finset.mem_coe.1 hs)
    obtain ⟨htS, htm⟩ := Finset.mem_filter.1 (Finset.mem_coe.1 ht)
    exact hinj s hsS t htS hsm htm

theorem count_union {S T : Finset σ} (h : Disjoint S T) (m : σ → Option ι) (f : ι) :
    count (S ∪ T) m f = count S m f + count T m f := by
  unfold count
  rw [Finset.filter_union, Finset.card_union_of_disjoint (Finset.disjoint_filter_filter h)]

omit [DecidableEq σ] in
theorem count_le {S : Finset σ} {m m' : σ → Option ι} {f : ι} (h : ∀ s ∈ S, m' s = some f → m s = some f) :
    count S m' f ≤ count S m f := by
  unfold count
  refine Finset.card_le_card fun s hs => ?_
  obtain ⟨hsS, hsm⟩ := Finset.mem_filter.1 hs
  exact Finset.mem_filter.2 ⟨hsS, h s hsS hsm⟩

omit [DecidableEq σ] in
theorem count_eq_one {S : Finset σ} {m : σ → Option ι} {f : ι} {s : σ} (hs : s ∈ S) (hm : m s = some f)
    (h : ∀ x ∈ S, m x = some f → x = s) : count S m f = 1 := by
  unfold count
  rw [Finset.card_eq_one]
  refine ⟨s, ?_⟩
  ext x
  rw [Finset.mem_filter, Finset.mem_singleton]
  constructor
  · rintro ⟨hx, hxm⟩
    exact h x hx hxm
  · rintro rfl
    exact ⟨hs, hm⟩
