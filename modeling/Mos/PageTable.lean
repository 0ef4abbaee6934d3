import Mos.Lib.Count
import Mos.Pmap
/-!
# PageTable — directories as trees of frames

A page directory and its tables as maps: `table` from the entries of the directories to the frames of the tables,
`pte` from the pages to their valid entries.  `Tree` says that a set of directories is a forest: no table is used twice,
none is a directory, and no page maps a table or a directory.  Then a write of one entry changes the maps at one place.

Only the first `lim` entries of a directory count; those above belong to the kernel.
-/
namespace Mos

/-- The entries of a directory below `UTOP`. -/
abbrev utopEntries : Nat := pdx utop

/-! ## The maps -/

/-- The table in an entry of a directory. -/
def Pmap.table (p : Pmap) (s : Nat × Nat) : Option Nat :=
  if valid (p.mem s.1 s.2) then some (ppn (p.mem s.1 s.2)) else none

/-- The valid entry of a page: its directory, and its indices there and in the table. -/
def Pmap.pte (p : Pmap) (s : Nat × Nat × Nat) : Option Word :=
  (p.table (s.1, s.2.1)).bind (fun t => if valid (p.mem t s.2.2) then some (p.mem t s.2.2) else none)

/-- The frame a page is mapped to. -/
def Pmap.frame (p : Pmap) (s : Nat × Nat × Nat) : Option Nat := (p.pte s).map ppn

/-- The place of `va` in a directory. -/
def slotOf (d : Nat) (va : Word) : Nat × Nat × Nat := (d, pdx va, ptx va)

def tableSlots (lim : Nat) (dirs : Finset Nat) : Finset (Nat × Nat) := dirs ×ˢ Finset.range lim

def pageSlots (lim : Nat) (dirs : Finset Nat) : Finset (Nat × Nat × Nat) :=
  dirs ×ˢ Finset.range lim ×ˢ Finset.range pageWords

theorem mem_tableSlots {lim : Nat} {dirs : Finset Nat} {s : Nat × Nat} :
    s ∈ tableSlots lim dirs ↔ s.1 ∈ dirs ∧ s.2 < lim := by
  simp [tableSlots]

theorem mem_pageSlots {lim : Nat} {dirs : Finset Nat} {s : Nat × Nat × Nat} :
    s ∈ pageSlots lim dirs ↔ s.1 ∈ dirs ∧ s.2.1 < lim ∧ s.2.2 < pageWords := by
  simp [pageSlots]

theorem slotOf_mem {lim : Nat} {dirs : Finset Nat} {d : Nat} {va : Word} (hd : d ∈ dirs) (hva : pdx va < lim) :
    slotOf d va ∈ pageSlots lim dirs := mem_pageSlots.2 ⟨hd, hva, ptx_lt va⟩

theorem pte_of_table {p : Pmap} {d i t : Nat} (h : p.table (d, i) = some t) (j : Nat) :
    p.pte (d, i, j) = if valid (p.mem t j) then some (p.mem t j) else none := by
  simp only [Pmap.pte, h, Option.bind_some]

theorem table_of_pte {p : Pmap} {s : Nat × Nat × Nat} {w : Word} (h : p.pte s = some w) :
    ∃ t, p.table (s.1, s.2.1) = some t ∧ valid (p.mem t s.2.2) = true ∧ p.mem t s.2.2 = w := by
  obtain ⟨t, ht, hw⟩ := Option.bind_eq_some_iff.1 h
  split at hw
  · rename_i hv
    cases hw
    exact ⟨t, ht, hv, rfl⟩
  · cases hw

theorem frame_eq_some {p : Pmap} {s : Nat × Nat × Nat} {f : Nat} (h : p.frame s = some f) :
    ∃ w, p.pte s = some w ∧ ppn w = f := Option.map_eq_some_iff.1 h

/-! ## Forests -/

/-- **The directories `dirs` are a forest.** -/
structure Tree (lim : Nat) (p : Pmap) (dirs : Finset Nat) : Prop where
  dir_lt : ∀ d ∈ dirs, d < p.npage
  table_lt : ∀ s ∈ tableSlots lim dirs, ∀ t, p.table s = some t → t < p.npage
  table_inj : ∀ s ∈ tableSlots lim dirs, ∀ s' ∈ tableSlots lim dirs, ∀ t, p.table s = some t → p.table s' = some t →
    s = s'
  table_dir : ∀ s ∈ tableSlots lim dirs, ∀ t, p.table s = some t → t ∉ dirs
  frame_lt : ∀ s ∈ pageSlots lim dirs, ∀ f, p.frame s = some f → f < p.npage
  frame_dir : ∀ s ∈ pageSlots lim dirs, ∀ f, p.frame s = some f → f ∉ dirs
  frame_table : ∀ s ∈ pageSlots lim dirs, ∀ f, p.frame s = some f → ∀ s' ∈ tableSlots lim dirs, p.table s' ≠ some f

/-- The frame is no directory and no table. -/
structure Outside (lim : Nat) (p : Pmap) (dirs : Finset Nat) (f : Nat) : Prop where
  dir : f ∉ dirs
  table : ∀ s ∈ tableSlots lim dirs, p.table s ≠ some f

namespace Tree

variable {lim : Nat} {p p' : Pmap} {dirs : Finset Nat}

theorem slot_table {s : Nat × Nat × Nat} (hs : s ∈ pageSlots lim dirs) : (s.1, s.2.1) ∈ tableSlots lim dirs :=
  mem_tableSlots.2 ⟨(mem_pageSlots.1 hs).1, (mem_pageSlots.1 hs).2.1⟩

theorem table_congr (hmem : ∀ d ∈ dirs, p'.mem d = p.mem d) : ∀ s ∈ tableSlots lim dirs, p'.table s = p.table s := by
  intro s hs
  unfold Pmap.table
  rw [hmem s.1 (mem_tableSlots.1 hs).1]

theorem pte_congr (hmem : ∀ f, ¬Outside lim p dirs f → p'.mem f = p.mem f) :
    ∀ s ∈ pageSlots lim dirs, p'.pte s = p.pte s := by
  intro s hs
  have htable := table_congr (fun d hd => hmem d (fun ho => ho.dir hd)) (s.1, s.2.1) (slot_table hs)
  unfold Pmap.pte
  rw [htable]
  cases ht : p.table (s.1, s.2.1) with
  | none => rfl
  | some t => simp only [Option.bind_some, hmem t (fun ho => ho.table _ (slot_table hs) ht)]

theorem frame_congr (h : ∀ s ∈ pageSlots lim dirs, p'.pte s = p.pte s) :
    ∀ s ∈ pageSlots lim dirs, p'.frame s = p.frame s := by
  intro s hs
  unfold Pmap.frame
  rw [h s hs]

theorem of_maps (h : Tree lim p dirs) (hn : p'.npage = p.npage) (ht : ∀ s ∈ tableSlots lim dirs, p'.table s = p.table s)
    (hf : ∀ s ∈ pageSlots lim dirs, p'.frame s = p.frame s) : Tree lim p' dirs where
  dir_lt d hd := hn ▸ h.dir_lt d hd
  table_lt s hs t hst := hn ▸ h.table_lt s hs t (ht s hs ▸ hst)
  table_inj s hs s' hs' t hst hst' := h.table_inj s hs s' hs' t (ht s hs ▸ hst) (ht s' hs' ▸ hst')
  table_dir s hs t hst := h.table_dir s hs t (ht s hs ▸ hst)
  frame_lt s hs f hsf := hn ▸ h.frame_lt s hs f (hf s hs ▸ hsf)
  frame_dir s hs f hsf := h.frame_dir s hs f (hf s hs ▸ hsf)
  frame_table s hs f hsf s' hs' := by
    rw [ht s' hs']
    exact h.frame_table s hs f (hf s hs ▸ hsf) s' hs'

/-- **Writes to other frames leave the forest alone.** -/
theorem congr (h : Tree lim p dirs) (hn : p'.npage = p.npage)
    (hmem : ∀ f, ¬Outside lim p dirs f → p'.mem f = p.mem f) : Tree lim p' dirs :=
  h.of_maps hn (table_congr (fun d hd => hmem d (fun ho => ho.dir hd))) (frame_congr (pte_congr hmem))

theorem outside_of_frame (h : Tree lim p dirs) {s : Nat × Nat × Nat} {f : Nat} (hs : s ∈ pageSlots lim dirs)
    (hf : p.frame s = some f) : Outside lim p dirs f :=
  ⟨h.frame_dir s hs f hf, h.frame_table s hs f hf⟩

end Tree

/-! ## Writing an entry -/

theorem write_mem (p : Pmap) (e : PtePtr) (w : Word) (f i : Nat) :
    (p.write e w).mem f i = if f = e.1 ∧ i = e.2 then w else p.mem f i := by
  unfold Pmap.write
  by_cases hf : f = e.1
  · subst hf
    by_cases hi : i = e.2
    · subst hi; simp
    · simp [hi]
  · simp [hf]

theorem write_mem_ne (p : Pmap) {e : PtePtr} {w : Word} {f : Nat} (h : f ≠ e.1) : (p.write e w).mem f = p.mem f := by
  funext i
  rw [write_mem, if_neg (fun hc => h hc.1)]

theorem table_write (p : Pmap) (e : PtePtr) (w : Word) (s : Nat × Nat) : (p.write e w).table s =
    if s = e then (if valid w then some (ppn w) else none) else p.table s := by
  unfold Pmap.table
  rw [write_mem]
  by_cases hs : s = e
  · subst hs; simp
  · rw [if_neg (fun hc : s.1 = e.1 ∧ s.2 = e.2 => hs (Prod.ext hc.1 hc.2)), if_neg hs]

namespace Tree

variable {lim : Nat} {p : Pmap} {dirs : Finset Nat} {d i j t : Nat} {w : Word}

/-- **An entry of a table is written**: the directories stay, and one page changes. -/
theorem pte_write (h : Tree lim p dirs) (hd : d ∈ dirs) (hi : i < lim) (ht : p.table (d, i) = some t) :
    (∀ s ∈ tableSlots lim dirs, (p.write (t, j) w).table s = p.table s) ∧
    ∀ s ∈ pageSlots lim dirs, (p.write (t, j) w).pte s =
      if s = (d, i, j) then (if valid w then some w else none) else p.pte s := by
  have hslot : (d, i) ∈ tableSlots lim dirs := mem_tableSlots.2 ⟨hd, hi⟩
  have htable : ∀ s ∈ tableSlots lim dirs, (p.write (t, j) w).table s = p.table s := by
    refine table_congr (fun d' hd' => write_mem_ne p ?_)
    rintro rfl
    exact h.table_dir _ hslot _ ht hd'
  refine ⟨htable, fun s hs => ?_⟩
  obtain ⟨d', i', j'⟩ := s
  have hs' := slot_table hs
  cases ht' : p.table (d', i') with
  | none =>
    have hne : (d', i', j') ≠ (d, i, j) := by
      rintro ⟨⟩
      rw [ht] at ht'
      cases ht'
    rw [if_neg hne]
    simp only [Pmap.pte, htable _ hs', ht']
    rfl
  | some t' =>
    rw [pte_of_table ((htable _ hs').trans ht'), pte_of_table ht', write_mem]
    by_cases htt : t' = t
    · subst htt
      obtain ⟨rfl, rfl⟩ : d' = d ∧ i' = i := by simpa using h.table_inj _ hs' _ hslot _ ht' ht
      by_cases hj : j' = j <;> simp [hj]
    · have hne : (d', i', j') ≠ (d, i, j) := by
        rintro ⟨⟩
        exact htt (by simpa using ht'.symm.trans ht)
      simp [htt, hne]

/-- The forest after an entry of a table is cleared or set to a page outside the forest. -/
theorem write_pte (h : Tree lim p dirs) (hd : d ∈ dirs) (hi : i < lim) (ht : p.table (d, i) = some t)
    (hw : valid w = true → ppn w < p.npage ∧ Outside lim p dirs (ppn w)) : Tree lim (p.write (t, j) w) dirs := by
  obtain ⟨htable, hpte⟩ := h.pte_write hd hi ht (j := j) (w := w)
  have hframe : ∀ s ∈ pageSlots lim dirs, ∀ f, (p.write (t, j) w).frame s = some f →
      p.frame s = some f ∨ valid w = true ∧ f = ppn w := by
    intro s hs f hf
    unfold Pmap.frame at hf
    rw [hpte s hs] at hf
    split at hf
    · split at hf
      · rename_i hv
        exact .inr ⟨hv, by simpa using hf.symm⟩
      · cases hf
    · exact .inl hf
  refine ⟨h.dir_lt, ?_, ?_, ?_, ?_, ?_, ?_⟩
  · intro s hs t' hst
    exact h.table_lt s hs t' (htable s hs ▸ hst)
  · intro s hs s' hs' t' hst hst'
    exact h.table_inj s hs s' hs' t' (htable s hs ▸ hst) (htable s' hs' ▸ hst')
  · intro s hs t' hst
    exact h.table_dir s hs t' (htable s hs ▸ hst)
  · intro s hs f hf
    rcases hframe s hs f hf with hf | ⟨hv, rfl⟩
    · exact h.frame_lt s hs f hf
    · exact (hw hv).1
  · intro s hs f hf
    rcases hframe s hs f hf with hf | ⟨hv, rfl⟩
    · exact h.frame_dir s hs f hf
    · exact (hw hv).2.dir
  · intro s hs f hf s' hs'
    rw [htable s' hs']
    rcases hframe s hs f hf with hf | ⟨hv, rfl⟩
    · exact h.frame_table s hs f hf s' hs'
    · exact (hw hv).2.table s' hs'

/-- **A directory entry is written** whose table, before and after, maps no page: one table changes, no page does. -/
theorem pde_write (h : Tree lim p dirs) (hd : d ∈ dirs) (hi : i < lim)
    (hold : ∀ j < pageWords, p.pte (d, i, j) = none)
    (hnew : valid w = true → ppn w ∉ dirs ∧ ∀ j < pageWords, valid (p.mem (ppn w) j) = false) :
    (∀ s ∈ tableSlots lim dirs, (p.write (d, i) w).table s =
      if s = (d, i) then (if valid w then some (ppn w) else none) else p.table s) ∧
    ∀ s ∈ pageSlots lim dirs, (p.write (d, i) w).pte s = p.pte s := by
  have htable : ∀ s ∈ tableSlots lim dirs, (p.write (d, i) w).table s =
      if s = (d, i) then (if valid w then some (ppn w) else none) else p.table s :=
    fun s _ => table_write p (d, i) w s
  refine ⟨htable, fun s hs => ?_⟩
  obtain ⟨d', i', j'⟩ := s
  have hs' := slot_table hs
  have hj' : j' < pageWords := (mem_pageSlots.1 hs).2.2
  by_cases hsd : (d', i') = (d, i)
  · obtain ⟨rfl, rfl⟩ : d' = d ∧ i' = i := by simpa using hsd
    rw [hold j' hj']
    by_cases hv : valid w = true
    · have htw : (p.write (d', i') w).table (d', i') = some (ppn w) := by
        rw [htable _ hs', if_pos rfl, if_pos hv]
      rw [pte_of_table htw, write_mem_ne p (fun hc => (hnew hv).1 (by rw [hc]; exact hd)), (hnew hv).2 j' hj']
      simp
    · have htw : (p.write (d', i') w).table (d', i') = none := by
        rw [htable _ hs', if_pos rfl, if_neg hv]
      simp only [Pmap.pte, htw]
      rfl
  · have htw : (p.write (d, i) w).table (d', i') = p.table (d', i') := by
      rw [htable _ hs', if_neg hsd]
    cases ht' : p.table (d', i') with
    | none => simp only [Pmap.pte, htw, ht', Option.bind_none]
    | some t' =>
      have hne : t' ≠ d := by
        rintro rfl
        exact h.table_dir _ hs' _ ht' hd
      rw [pte_of_table (htw.trans ht'), pte_of_table ht', write_mem_ne p hne]

/-- The forest after a directory entry is cleared, or set to a new table. -/
theorem write_pde (h : Tree lim p dirs) (hd : d ∈ dirs) (hi : i < lim)
    (hold : ∀ j < pageWords, p.pte (d, i, j) = none)
    (hnew : valid w = true → ppn w < p.npage ∧ Outside lim p dirs (ppn w) ∧
      (∀ s ∈ pageSlots lim dirs, p.frame s ≠ some (ppn w)) ∧ ∀ j < pageWords, valid (p.mem (ppn w) j) = false) :
    Tree lim (p.write (d, i) w) dirs := by
  obtain ⟨htable, hpte⟩ := h.pde_write hd hi hold (fun hv => ⟨(hnew hv).2.1.dir, (hnew hv).2.2.2⟩)
  have hframe := frame_congr hpte
  have hsplit : ∀ s ∈ tableSlots lim dirs, ∀ t, (p.write (d, i) w).table s = some t →
      s ≠ (d, i) ∧ p.table s = some t ∨ s = (d, i) ∧ valid w = true ∧ t = ppn w := by
    intro s hs t hst
    rw [htable s hs] at hst
    split at hst
    · rename_i hsd
      split at hst
      · rename_i hv
        exact .inr ⟨hsd, hv, by simpa using hst.symm⟩
      · cases hst
    · rename_i hsd
      exact .inl ⟨hsd, hst⟩
  refine ⟨h.dir_lt, ?_, ?_, ?_, ?_, ?_, ?_⟩
  · intro s hs t hst
    rcases hsplit s hs t hst with ⟨-, hst⟩ | ⟨-, hv, rfl⟩
    · exact h.table_lt s hs t hst
    · exact (hnew hv).1
  · intro s hs s' hs' t hst hst'
    rcases hsplit s hs t hst with ⟨-, hst⟩ | ⟨hsd, hv, rfl⟩
    · rcases hsplit s' hs' t hst' with ⟨-, hst'⟩ | ⟨-, hv', rfl⟩
      · exact h.table_inj s hs s' hs' t hst hst'
      · exact absurd hst ((hnew hv').2.1.table s hs)
    · rcases hsplit s' hs' _ hst' with ⟨-, hst'⟩ | ⟨hsd', -, -⟩
      · exact absurd hst' ((hnew hv).2.1.table s' hs')
      · rw [hsd, hsd']
  · intro s hs t hst
    rcases hsplit s hs t hst with ⟨-, hst⟩ | ⟨-, hv, rfl⟩
    · exact h.table_dir s hs t hst
    · exact (hnew hv).2.1.dir
  · intro s hs f hf
    exact h.frame_lt s hs f (hframe s hs ▸ hf)
  · intro s hs f hf
    exact h.frame_dir s hs f (hframe s hs ▸ hf)
  · intro s hs f hf s' hs' hst'
    have hf' := hframe s hs ▸ hf
    rcases hsplit s' hs' f hst' with ⟨-, hst'⟩ | ⟨-, hv, rfl⟩
    · exact h.frame_table s hs f hf' s' hs' hst'
    · exact (hnew hv).2.2.1 s hs hf'

end Tree

end Mos
