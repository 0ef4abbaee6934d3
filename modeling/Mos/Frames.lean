import Mos.PageTable
/-!
# Frames — accounting for every frame

Every reference of a frame is an entry of a directory, an entry of a table, or held by the kernel itself; `pp_ref`
counts them, and the free list has the frames without any, except those a caller has taken and not mapped yet.  `Acct`
is this invariant, for a `Ledger` of what only the callers know.  Each operation of `kern/pmap.c` keeps it and changes
the map of the pages at one place at most.
-/
namespace Mos

/-- What the callers know: the page directories, the references they hold themselves, and the frames they have taken
from the free list and neither mapped nor referenced yet. -/
structure Ledger where
  dirs : Finset Nat
  held : Nat → Nat
  limbo : Finset Nat

/-- The ledger once `pp` is mapped. -/
def Ledger.settle (g : Ledger) (pp : Nat) : Ledger := { g with limbo := g.limbo.erase pp }

/-- The references of a frame. -/
def refs (lim : Nat) (p : Pmap) (g : Ledger) (f : Nat) : Nat :=
  count (tableSlots lim g.dirs) p.table f + count (pageSlots lim g.dirs) p.frame f + g.held f

/-- **The accounts of the frames are right.** -/
structure Acct (lim : Nat) (p : Pmap) (g : Ledger) : Prop where
  tree : Tree lim p g.dirs
  npage_le : p.npage ≤ 2 ^ 20
  dir_held : ∀ d ∈ g.dirs, g.held d ≠ 0
  limbo : ∀ f ∈ g.limbo, f < p.npage ∧ p.ppRef f = 0
  ref : ∀ f < p.npage, (p.ppRef f).toNat = refs lim p g f
  nodup : p.pageFreeList.Nodup
  free : ∀ f, f ∈ p.pageFreeList ↔ f < p.npage ∧ p.ppRef f = 0 ∧ f ∉ g.limbo

/-- The directories have the same tables and the same pages in both states. -/
structure SameMaps (lim : Nat) (dirs : Finset Nat) (p p' : Pmap) : Prop where
  table : ∀ s ∈ tableSlots lim dirs, p'.table s = p.table s
  pte : ∀ s ∈ pageSlots lim dirs, p'.pte s = p.pte s

/-- One page changes to `v`. -/
def SetsPte (lim : Nat) (dirs : Finset Nat) (p p' : Pmap) (s₀ : Nat × Nat × Nat) (v : Option Word) : Prop :=
  ∀ s ∈ pageSlots lim dirs, p'.pte s = if s = s₀ then v else p.pte s

namespace SameMaps

variable {lim : Nat} {dirs : Finset Nat} {p p' p'' : Pmap}

theorem refl (p : Pmap) : SameMaps lim dirs p p := ⟨fun _ _ => rfl, fun _ _ => rfl⟩

theorem trans (h : SameMaps lim dirs p p') (h' : SameMaps lim dirs p' p'') : SameMaps lim dirs p p'' :=
  ⟨fun s hs => (h'.table s hs).trans (h.table s hs), fun s hs => (h'.pte s hs).trans (h.pte s hs)⟩

theorem of_mem (hmem : ∀ f, ¬Outside lim p dirs f → p'.mem f = p.mem f) : SameMaps lim dirs p p' :=
  ⟨Tree.table_congr (fun d hd => hmem d (fun ho => ho.dir hd)), Tree.pte_congr hmem⟩

theorem frame (h : SameMaps lim dirs p p') : ∀ s ∈ pageSlots lim dirs, p'.frame s = p.frame s := Tree.frame_congr h.pte

theorem refs_eq {g : Ledger} (h : SameMaps lim g.dirs p p') (f : Nat) : refs lim p' g f = refs lim p g f := by
  unfold refs
  rw [count_congr h.table, count_congr h.frame]

theorem tree (h : SameMaps lim dirs p p') (hn : p'.npage = p.npage) (ht : Tree lim p dirs) : Tree lim p' dirs :=
  ht.of_maps hn h.table h.frame

end SameMaps

namespace Acct

variable {lim : Nat} {p p' : Pmap} {g g' : Ledger}

/-! ## What follows from the accounts -/

theorem unref (h : Acct lim p g) {f : Nat} (hf : f < p.npage) (hr : p.ppRef f = 0) :
    Outside lim p g.dirs f ∧ (∀ s ∈ pageSlots lim g.dirs, p.frame s ≠ some f) ∧ g.held f = 0 := by
  have hzero : refs lim p g f = 0 := by
    rw [← h.ref f hf, hr]
    rfl
  unfold refs at hzero
  have hheld : g.held f = 0 := by omega
  refine ⟨⟨fun hd => h.dir_held f hd hheld, ?_⟩, ?_, hheld⟩
  · exact count_eq_zero.1 (by omega)
  · exact count_eq_zero.1 (by omega)

theorem of_free (h : Acct lim p g) {f : Nat} (hf : f ∈ p.pageFreeList) :
    f < p.npage ∧ p.ppRef f = 0 ∧ f ∉ g.limbo := (h.free f).1 hf

theorem table_ref (h : Acct lim p g) {s : Nat × Nat} {t : Nat} (hs : s ∈ tableSlots lim g.dirs)
    (ht : p.table s = some t) : p.ppRef t ≠ 0 :=
  fun hr => (h.unref (h.tree.table_lt s hs t ht) hr).1.table s hs ht

theorem frame_ref (h : Acct lim p g) {s : Nat × Nat × Nat} {f : Nat} (hs : s ∈ pageSlots lim g.dirs)
    (hf : p.frame s = some f) : p.ppRef f ≠ 0 :=
  fun hr => (h.unref (h.tree.frame_lt s hs f hf) hr).2.1 s hs hf

theorem dir_ref (h : Acct lim p g) {d : Nat} (hd : d ∈ g.dirs) : p.ppRef d ≠ 0 :=
  fun hr => h.dir_held d hd (h.unref (h.tree.dir_lt d hd) hr).2.2

/-- **No valid entry points to a free frame.** -/
theorem not_free (h : Acct lim p g) {f : Nat} (hf : f ∈ p.pageFreeList) :
    (∀ s ∈ tableSlots lim g.dirs, p.table s ≠ some f) ∧ ∀ s ∈ pageSlots lim g.dirs, p.frame s ≠ some f := by
  obtain ⟨hlt, hr, -⟩ := h.of_free hf
  obtain ⟨hout, hpage, -⟩ := h.unref hlt hr
  exact ⟨hout.table, hpage⟩

/-! ## One reference more, one reference less -/

/-- **The accounts after a frame gained a reference.** -/
theorem grab (h : Acct lim p g) (pp : Nat) (ht : Tree lim p' g'.dirs) (hn : p'.npage = p.npage) (hpp : pp < p.npage)
    (hnf : pp ∉ p.pageFreeList) (hlt : p.ppRef pp < 65535)
    (href : p'.ppRef = Function.update p.ppRef pp (p.ppRef pp + 1)) (hfl : p'.pageFreeList = p.pageFreeList)
    (hlimbo : g'.limbo = g.limbo.erase pp) (hheld : ∀ d ∈ g'.dirs, g'.held d ≠ 0)
    (hrefs : ∀ f, refs lim p' g' f = refs lim p g f + if f = pp then 1 else 0) : Acct lim p' g' := by
  have hsucc : (p.ppRef pp + 1).toNat = (p.ppRef pp).toNat + 1 := by
    bv_omega
  have hne : p.ppRef pp + 1 ≠ 0 := by
    intro hc
    rw [hc] at hsucc
    simp at hsucc
  refine ⟨ht, hn ▸ h.npage_le, hheld, ?_, ?_, hfl ▸ h.nodup, ?_⟩
  · intro f hf
    rw [hlimbo, Finset.mem_erase] at hf
    rw [hn, href, Function.update_of_ne hf.1]
    exact h.limbo f hf.2
  · intro f hf
    rw [hrefs, ← h.ref f (hn ▸ hf), href]
    by_cases hfp : f = pp
    · subst hfp
      rw [Function.update_self, if_pos rfl, hsucc]
    · rw [Function.update_of_ne hfp, if_neg hfp, Nat.add_zero]
  · intro f
    rw [hfl, h.free f, hn, href, hlimbo, Finset.mem_erase]
    by_cases hfp : f = pp
    · subst hfp
      rw [Function.update_self]
      constructor
      · intro hc
        exact absurd ((h.free f).2 hc) hnf
      · intro hc
        exact absurd hc.2.1 hne
    · rw [Function.update_of_ne hfp]
      simp [hfp]

theorem decref_eq {pp : Nat} (hr : p.ppRef pp ≠ 0) : pageDecref p pp = some
    { p with
      ppRef := Function.update p.ppRef pp (p.ppRef pp - 1)
      pageFreeList := if p.ppRef pp = 1 then pp :: p.pageFreeList else p.pageFreeList } := by
  unfold pageDecref
  rw [if_neg hr]
  simp only [Pmap.setRef, Function.update_self, pageFree]
  by_cases h1 : p.ppRef pp = 1
  · simp [h1]
  · have : p.ppRef pp - 1 ≠ 0 := by
      intro hc
      apply h1
      bv_omega
    simp only [if_neg h1, if_neg this]

/-- **The accounts after a frame lost a reference**, and went to the free list if it was the last. -/
theorem drop (h : Acct lim p g) (pp : Nat) (ht : Tree lim p' g'.dirs) (hn : p'.npage = p.npage) (hpp : pp < p.npage)
    (hr : p.ppRef pp ≠ 0) (href : p'.ppRef = Function.update p.ppRef pp (p.ppRef pp - 1))
    (hfl : p'.pageFreeList = if p.ppRef pp = 1 then pp :: p.pageFreeList else p.pageFreeList)
    (hlimbo : g'.limbo = g.limbo) (hheld : ∀ d ∈ g'.dirs, g'.held d ≠ 0)
    (hrefs : ∀ f, refs lim p' g' f + (if f = pp then 1 else 0) = refs lim p g f) : Acct lim p' g' := by
  have hpred : (p.ppRef pp - 1).toNat + 1 = (p.ppRef pp).toNat := by
    bv_omega
  have hzero : p.ppRef pp - 1 = 0 ↔ p.ppRef pp = 1 := by
    constructor
    · intro hc
      rw [hc] at hpred
      exact BitVec.eq_of_toNat_eq (by simpa using hpred.symm)
    · intro hc
      rw [hc]
      rfl
  have hnl : pp ∉ g.limbo := fun hc => hr (h.limbo pp hc).2
  have hnf : pp ∉ p.pageFreeList := fun hc => hr (h.of_free hc).2.1
  refine ⟨ht, hn ▸ h.npage_le, hheld, ?_, ?_, ?_, ?_⟩
  · intro f hf
    rw [hlimbo] at hf
    have hfp : f ≠ pp := fun hc => hnl (hc ▸ hf)
    rw [hn, href, Function.update_of_ne hfp]
    exact h.limbo f hf
  · intro f hf
    have hold := h.ref f (hn ▸ hf)
    have hnew := hrefs f
    rw [href]
    by_cases hfp : f = pp
    · subst hfp
      rw [Function.update_self]
      rw [if_pos rfl] at hnew
      omega
    · rw [Function.update_of_ne hfp]
      rw [if_neg hfp] at hnew
      omega
  · rw [hfl]
    split
    · exact List.nodup_cons.2 ⟨hnf, h.nodup⟩
    · exact h.nodup
  · intro f
    rw [hfl, hn, href, hlimbo]
    by_cases hfp : f = pp
    · subst hfp
      rw [Function.update_self, hzero]
      split
      · rename_i h1
        simp [h1, hpp, hnl]
      · rename_i h1
        exact ⟨fun hc => absurd hc hnf, fun hc => absurd hc.2.1 h1⟩
    · rw [Function.update_of_ne hfp]
      split
      · simp [hfp, h.free f]
      · exact h.free f

/-! ## `page_alloc` -/

/-- **`page_alloc` takes the first free frame and zeroes it.** -/
theorem alloc (h : Acct lim p g) {pp : Nat} {rest : List Nat} (hf : p.pageFreeList = pp :: rest) :
    ∃ p', pageAlloc p = some (pp, p') ∧ p'.npage = p.npage ∧ p'.ppRef = p.ppRef ∧ p'.pageFreeList = rest ∧
      p'.mem = Function.update p.mem pp (fun _ => 0) ∧
      Acct lim p' { g with limbo := insert pp g.limbo } ∧ SameMaps lim g.dirs p p' := by
  have hmem : pp ∈ p.pageFreeList := by simp [hf]
  obtain ⟨hlt, hr, hnl⟩ := h.of_free hmem
  have hout := (h.unref hlt hr).1
  have hsame : SameMaps lim g.dirs p
      { p with pageFreeList := rest, mem := Function.update p.mem pp (fun _ => 0) } := by
    refine SameMaps.of_mem (fun f hfo => ?_)
    have hfp : f ≠ pp := fun hc => hfo (hc ▸ hout)
    exact Function.update_of_ne hfp _ _
  refine ⟨{ p with pageFreeList := rest, mem := Function.update p.mem pp (fun _ => 0) }, by simp only [pageAlloc, hf],
    rfl, rfl, rfl, rfl, ?_, hsame⟩
  · have hnd := List.nodup_cons.1 (hf ▸ h.nodup)
    refine ⟨hsame.tree rfl h.tree, h.npage_le, h.dir_held, ?_, ?_, hnd.2, ?_⟩
    · intro f hfl
      rcases Finset.mem_insert.1 hfl with rfl | hfl
      · exact ⟨hlt, hr⟩
      · exact h.limbo f hfl
    · intro f hfn
      have := hsame.refs_eq f
      exact (h.ref f hfn).trans this.symm
    · intro f
      have hfree := h.free f
      rw [hf, List.mem_cons] at hfree
      simp only [Finset.mem_insert, not_or]
      constructor
      · intro hfr
        have hfp : f ≠ pp := fun hc => hnd.1 (hc ▸ hfr)
        obtain ⟨h₁, h₂, h₃⟩ := hfree.1 (.inr hfr)
        exact ⟨h₁, h₂, hfp, h₃⟩
      · rintro ⟨h₁, h₂, hfp, h₃⟩
        exact (hfree.2 ⟨h₁, h₂, h₃⟩).resolve_left hfp

/-- The accounts read the reference counts, the free list and the number of references. -/
theorem of_refs (h : Acct lim p g) (ht : Tree lim p' g.dirs) (hn : p'.npage = p.npage) (href : p'.ppRef = p.ppRef)
    (hfl : p'.pageFreeList = p.pageFreeList) (hrefs : ∀ f, refs lim p' g f = refs lim p g f) : Acct lim p' g := by
  refine ⟨ht, hn ▸ h.npage_le, h.dir_held, ?_, ?_, hfl ▸ h.nodup, ?_⟩
  · intro f hf
    rw [hn, href]
    exact h.limbo f hf
  · intro f hf
    rw [href, hrefs]
    exact h.ref f (hn ▸ hf)
  · intro f
    rw [hfl, hn, href]
    exact h.free f

/-- **Writes outside the forest leave the accounts alone.** -/
theorem congr (h : Acct lim p g) (hn : p'.npage = p.npage) (href : p'.ppRef = p.ppRef)
    (hfl : p'.pageFreeList = p.pageFreeList) (hmem : ∀ f, ¬Outside lim p g.dirs f → p'.mem f = p.mem f) :
    Acct lim p' g := by
  have hsame : SameMaps lim g.dirs p p' := SameMaps.of_mem hmem
  exact h.of_refs (hsame.tree hn h.tree) hn href hfl hsame.refs_eq

theorem tlb (h : Acct lim p g) (asid va : Word) : Acct lim (tlbInvalidate p asid va) g :=
  h.congr rfl rfl rfl (fun _ _ => rfl)

theorem noDirs {held : Nat → Nat} {limbo : Finset Nat} (hn : p.npage ≤ 2 ^ 20)
    (hlimbo : ∀ f ∈ limbo, f < p.npage ∧ p.ppRef f = 0) (href : ∀ f < p.npage, (p.ppRef f).toNat = held f)
    (hnd : p.pageFreeList.Nodup) (hfree : ∀ f, f ∈ p.pageFreeList ↔ f < p.npage ∧ p.ppRef f = 0 ∧ f ∉ limbo) :
    Acct lim p ⟨∅, held, limbo⟩ := by
  have hts : ∀ x, x ∉ tableSlots lim ∅ := fun x hx => absurd (mem_tableSlots.1 hx).1 (Finset.notMem_empty _)
  have hps : ∀ x, x ∉ pageSlots lim ∅ := fun x hx => absurd (mem_pageSlots.1 hx).1 (Finset.notMem_empty _)
  refine ⟨⟨fun d hd => absurd hd (Finset.notMem_empty d), fun x hx => absurd hx (hts x), fun x hx => absurd hx (hts x),
    fun x hx => absurd hx (hts x), fun x hx => absurd hx (hps x), fun x hx => absurd hx (hps x),
    fun x hx => absurd hx (hps x)⟩, hn, fun d hd => absurd hd (Finset.notMem_empty d), hlimbo, ?_, hnd, hfree⟩
  intro f hf
  rw [href f hf]
  unfold refs
  rw [count_eq_zero.2 (fun s hs => absurd hs (hts s)), count_eq_zero.2 (fun s hs => absurd hs (hps s)), Nat.zero_add]

theorem forget (h : Acct lim p g) (lim' : Nat) : Acct lim' p ⟨∅, refs lim p g, g.limbo⟩ :=
  noDirs h.npage_le h.limbo h.ref h.nodup h.free

/-! ## `pgdir_walk` and `page_lookup` -/

theorem walk_of_table {d t : Nat} {va : Word} (ht : p.table (d, pdx va) = some t) (hlt : t < p.npage) (create : Bool) :
    pgdirWalk p d va create = some (0, some (t, ptx va), p) := by
  unfold Pmap.table at ht
  split at ht
  · rename_i hv
    cases ht
    simp only [pgdirWalk, hv, if_true, kaddr, ppn_pteAddr, if_pos hlt, Option.map_some]
  · cases ht

theorem walk_none {d : Nat} {va : Word} (ht : p.table (d, pdx va) = none) :
    pgdirWalk p d va false = some (0, none, p) := by
  unfold Pmap.table at ht
  split at ht
  · cases ht
  · rename_i hv
    simp only [pgdirWalk, hv]
    rfl

theorem pte_none_of_table {d i : Nat} (ht : p.table (d, i) = none) (j : Nat) : p.pte (d, i, j) = none := by
  simp only [Pmap.pte, ht, Option.bind_none]

theorem lookup_none (h : Acct lim p g) {d : Nat} {va : Word} (hd : d ∈ g.dirs) (hva : pdx va < lim)
    (hw : p.pte (slotOf d va) = none) : pageLookup p d va = some none := by
  unfold pageLookup
  cases ht : p.table (d, pdx va) with
  | none => rw [walk_none ht]; rfl
  | some t =>
    rw [walk_of_table ht (h.tree.table_lt _ (mem_tableSlots.2 ⟨hd, hva⟩) t ht)]
    have hv : ¬valid (p.read (t, ptx va)) = true := by
      intro hv
      have hv' : valid (p.mem t (ptx va)) = true := hv
      rw [slotOf, pte_of_table ht, if_pos hv'] at hw
      cases hw
    simp only [Option.bind_some, if_neg hv]

theorem lookup_some (h : Acct lim p g) {d t : Nat} {va w : Word} (hd : d ∈ g.dirs) (hva : pdx va < lim)
    (ht : p.table (d, pdx va) = some t) (hw : p.pte (slotOf d va) = some w) :
    pageLookup p d va = some (some (ppn w, (t, ptx va))) ∧ p.mem t (ptx va) = w ∧ ppn w < p.npage := by
  have hslot := slotOf_mem hd hva
  have hlt : ppn w < p.npage := h.tree.frame_lt _ hslot _ (by simp only [Pmap.frame, hw, Option.map_some])
  obtain ⟨t', ht', hv, hm⟩ := table_of_pte hw
  obtain rfl : t' = t := by simpa using ht'.symm.trans ht
  have hm' : p.mem t' (ptx va) = w := hm
  refine ⟨?_, hm', hlt⟩
  unfold pageLookup
  rw [walk_of_table ht (h.tree.table_lt _ (mem_tableSlots.2 ⟨hd, hva⟩) t' ht)]
  have hv' : valid w = true := hm ▸ hv
  simp only [Option.bind_some, Pmap.read, hm', hv', if_true, pa2page, if_pos hlt, Option.map_some]

/-- **`page_lookup` never panics**, and finds what is mapped. -/
theorem lookup (h : Acct lim p g) {d : Nat} {va : Word} (hd : d ∈ g.dirs) (hva : pdx va < lim) :
    ∃ l, pageLookup p d va = some l ∧ l.map Prod.fst = p.frame (slotOf d va) := by
  cases hw : p.pte (slotOf d va) with
  | none => exact ⟨none, h.lookup_none hd hva hw, by simp only [Pmap.frame, hw, Option.map_none]⟩
  | some w =>
    obtain ⟨t, ht, -, -⟩ := table_of_pte hw
    obtain ⟨hl, -, -⟩ := h.lookup_some hd hva ht hw
    exact ⟨_, hl, by simp only [Pmap.frame, hw, Option.map_some]⟩

/-! ## A new table -/

/-- The directory entry of the table `t`. -/
def tableEntry (t : Nat) : Word := page2pa t ||| pteCCacheable ||| pteV

theorem ppn_tableEntry {t : Nat} (h : t < 2 ^ 20) : ppn (tableEntry t) = t := by
  have hc : ppn pteCCacheable = 0 := by decide
  have hv : ppn pteV = 0 := by decide
  simp only [tableEntry, ppn_or, ppn_page2pa h, hc, hv, Nat.or_zero]

/-- **An empty frame from the free list becomes a table**, in whatever way its directory entry is valid. -/
theorem newTable (h : Acct lim p g) {d i t : Nat} {rest : List Nat} {w : Word} (hd : d ∈ g.dirs) (hi : i < lim)
    (ht : p.table (d, i) = none) (hf : p.pageFreeList = t :: rest) (hv : valid w = true) (hw : ppn w = t) :
    ∃ p₁ p', pageAlloc p = some (t, p₁) ∧ p' = (p₁.setRef t 1).write (d, i) w ∧ Acct lim p' g ∧
      p'.npage = p.npage ∧ p'.ppRef = Function.update p.ppRef t 1 ∧ p'.pageFreeList = rest ∧
      (∀ s ∈ tableSlots lim g.dirs, p'.table s = if s = (d, i) then some t else p.table s) ∧
      (∀ s ∈ pageSlots lim g.dirs, p'.pte s = p.pte s) ∧ ∀ f, f ≠ d → f ≠ t → p'.mem f = p.mem f := by
  have hmem : t ∈ p.pageFreeList := by simp [hf]
  obtain ⟨hlt, hr, hnl⟩ := h.of_free hmem
  obtain ⟨p₁, halloc, hn₁, hr₁, hf₁, hm₁, hacct, hsame⟩ := h.alloc hf
  have hslot : (d, i) ∈ tableSlots lim g.dirs := mem_tableSlots.2 ⟨hd, hi⟩
  have hunref := hacct.unref (hn₁ ▸ hlt) (hr₁ ▸ hr)
  have ht₁ : p₁.table (d, i) = none := (hsame.table _ hslot).trans ht
  have hzero : ∀ j < pageWords, valid ((p₁.setRef t 1).mem (ppn w) j) = false := by
    intro j _
    show valid (p₁.mem (ppn w) j) = false
    rw [hw, hm₁, Function.update_self]
    exact valid_zero
  -- the counter of the new table is not part of the maps
  have htree : Tree lim (p₁.setRef t 1) g.dirs := hacct.tree.congr rfl (fun _ _ => rfl)
  have hpte := htree.pde_write hd hi (w := w) (fun j _ => pte_none_of_table ht₁ j)
    (fun _ => ⟨hw ▸ hunref.1.dir, hzero⟩)
  have hlt' : ppn w < (p₁.setRef t 1).npage := by
    show ppn w < p₁.npage
    rw [hw, hn₁]
    exact hlt
  have hout' : ppn w ∉ g.dirs ∧ ∀ s ∈ tableSlots lim g.dirs, (p₁.setRef t 1).table s ≠ some (ppn w) := by
    rw [hw]
    exact ⟨hunref.1.dir, hunref.1.table⟩
  have hpages' : ∀ s ∈ pageSlots lim g.dirs, (p₁.setRef t 1).frame s ≠ some (ppn w) := by
    rw [hw]
    exact hunref.2.1
  have htree' : Tree lim ((p₁.setRef t 1).write (d, i) w) g.dirs :=
    htree.write_pde hd hi (fun j _ => pte_none_of_table ht₁ j)
      (fun _ => ⟨hlt', ⟨hout'.1, hout'.2⟩, hpages', hzero⟩)
  have htable : ∀ s ∈ tableSlots lim g.dirs, ((p₁.setRef t 1).write (d, i) w).table s =
      if s = (d, i) then some t else p.table s := by
    intro s hs
    rw [hpte.1 s hs, if_pos hv, hw]
    exact ite_congr rfl (fun _ => rfl) (fun _ => hsame.table s hs)
  have hpages : ∀ s ∈ pageSlots lim g.dirs, ((p₁.setRef t 1).write (d, i) w).pte s = p.pte s :=
    fun s hs => (hpte.2 s hs).trans (hsame.pte s hs)
  refine ⟨p₁, _, halloc, rfl, ?_, hn₁, ?_, hf₁, htable, hpages, ?_⟩
  · refine hacct.grab t htree' rfl (hn₁ ▸ hlt) ?_ (by rw [hr₁, hr]; decide) ?_ rfl ?_ h.dir_held ?_
    · intro hc
      exact ((hacct.free t).1 hc).2.2 (Finset.mem_insert_self t g.limbo)
    · show Function.update p₁.ppRef t 1 = _
      rw [hr₁, hr]
      rfl
    · rw [Finset.erase_insert hnl]
    · intro f
      have hcount := count_write p.table ((p₁.setRef t 1).write (d, i) w).table hslot
        (fun s hs hne => by rw [htable s hs, if_neg hne]) f
      rw [ht, htable _ hslot, if_pos rfl] at hcount
      have hrefs₁ : refs lim p₁ { g with limbo := insert t g.limbo } f = refs lim p g f := hsame.refs_eq f
      rw [hrefs₁]
      unfold refs
      rw [count_congr (Tree.frame_congr hpages)]
      simp only [reduceCtorEq, if_false, Nat.add_zero, Option.some.injEq] at hcount
      rw [hcount]
      by_cases hft : f = t
      · rw [if_pos hft.symm, if_pos hft]
        omega
      · rw [if_neg (Ne.symm hft), if_neg hft]
        omega
  · show Function.update p₁.ppRef t 1 = _
    rw [hr₁]
  · intro f hfd hft
    rw [write_mem_ne _ (e := (d, i)) hfd]
    show p₁.mem f = _
    rw [hm₁, Function.update_of_ne hft]

/-- **`pgdir_walk` that creates** finds the table, makes one, or is out of memory. -/
theorem walk_create (h : Acct lim p g) {d : Nat} {va : Word} (hd : d ∈ g.dirs) (hva : pdx va < lim) :
    (∃ t, p.table (d, pdx va) = some t ∧ pgdirWalk p d va true = some (0, some (t, ptx va), p)) ∨
    (p.table (d, pdx va) = none ∧ p.pageFreeList = [] ∧ pgdirWalk p d va true = some (-eNoMem, none, p)) ∨
    ∃ t rest p', p.table (d, pdx va) = none ∧ p.pageFreeList = t :: rest ∧
      pgdirWalk p d va true = some (0, some (t, ptx va), p') ∧ Acct lim p' g ∧ p'.npage = p.npage ∧
      p'.ppRef = Function.update p.ppRef t 1 ∧ p'.pageFreeList = rest ∧
      (∀ s ∈ tableSlots lim g.dirs, p'.table s = if s = (d, pdx va) then some t else p.table s) ∧
      (∀ s ∈ pageSlots lim g.dirs, p'.pte s = p.pte s) ∧ (∀ f, f ≠ d → f ≠ t → p'.mem f = p.mem f) ∧
      ∀ i, p'.mem d i = if i = pdx va then tableEntry t else p.mem d i := by
  have hslot : (d, pdx va) ∈ tableSlots lim g.dirs := mem_tableSlots.2 ⟨hd, hva⟩
  cases ht : p.table (d, pdx va) with
  | some t => exact .inl ⟨t, rfl, walk_of_table ht (h.tree.table_lt _ hslot t ht) true⟩
  | none =>
    have hnv : ¬valid (p.mem d (pdx va)) = true := by
      intro hv
      simp only [Pmap.table, hv, if_true] at ht
      cases ht
    cases hf : p.pageFreeList with
    | nil =>
      refine .inr (.inl ⟨rfl, rfl, ?_⟩)
      simp only [pgdirWalk, if_neg hnv, if_true, pageAlloc, hf]
    | cons t rest =>
      have hlt := (h.of_free (f := t) (by simp [hf])).1
      have hlt20 : t < 2 ^ 20 := Nat.lt_of_lt_of_le hlt h.npage_le
      obtain ⟨p₁, p', halloc, hp', hacct, hn, hr, hfl, htab, hpte, hm⟩ :=
        h.newTable hd hva ht hf (w := tableEntry t) (valid_or_pteV _) (ppn_tableEntry hlt20)
      refine .inr (.inr ⟨t, rest, p', rfl, rfl, ?_, hacct, hn, hr, hfl, htab, hpte, hm, ?_⟩)
      · have hread : p'.mem d (pdx va) = tableEntry t := by
          rw [hp', write_mem, if_pos ⟨rfl, rfl⟩]
        have hfold : (p₁.setRef t 1).write (d, pdx va) (page2pa t ||| pteCCacheable ||| pteV) = p' := hp'.symm
        simp only [pgdirWalk, if_neg hnv, if_true, halloc, hfold, hread, kaddr, ppn_pteAddr, ppn_tableEntry hlt20, hn,
          if_pos hlt, Option.map_some]
      · intro i
        obtain ⟨p₂, halloc₂, -, -, -, hm₂, -, -⟩ := h.alloc hf
        obtain rfl : p₂ = p₁ := by simpa using halloc₂.symm.trans halloc
        have hdt : d ≠ t := by
          rintro rfl
          exact h.dir_ref hd (h.of_free (f := d) (by simp [hf])).2.1
        rw [hp', write_mem]
        simp only [true_and]
        refine ite_congr rfl (fun _ => rfl) (fun _ => ?_)
        show p₂.mem d i = p.mem d i
        rw [hm₂, Function.update_of_ne hdt]

/-! ## `page_remove` -/

theorem refs_write {s₀ : Nat × Nat × Nat} {v : Option Word} (hs₀ : s₀ ∈ pageSlots lim g.dirs)
    (ht : ∀ s ∈ tableSlots lim g.dirs, p'.table s = p.table s) (hp : SetsPte lim g.dirs p p' s₀ v) (f : Nat) :
    refs lim p' g f + (if p.frame s₀ = some f then 1 else 0) =
      refs lim p g f + (if v.map ppn = some f then 1 else 0) := by
  have hframe : p'.frame s₀ = v.map ppn := by
    unfold Pmap.frame
    rw [hp s₀ hs₀, if_pos rfl]
  have hcount := count_write p.frame p'.frame hs₀ (fun s hs hne => by
    unfold Pmap.frame
    rw [hp s hs, if_neg hne]) f
  rw [hframe] at hcount
  unfold refs
  rw [count_congr ht]
  omega

/-- **`page_remove` never fails**, and unmaps the page. -/
theorem removePage (h : Acct lim p g) {d : Nat} {va : Word} (hd : d ∈ g.dirs) (hva : pdx va < lim) (asid : Word) :
    ∃ p', pageRemove p d asid va = some p' ∧ Acct lim p' g ∧ p'.npage = p.npage ∧
      (∀ s ∈ tableSlots lim g.dirs, p'.table s = p.table s) ∧ SetsPte lim g.dirs p p' (slotOf d va) none ∧
      (∀ f, p.frame (slotOf d va) ≠ some f → p'.ppRef f = p.ppRef f) ∧
      (∀ f ∈ p'.pageFreeList, f ∈ p.pageFreeList ∨ p.frame (slotOf d va) = some f) ∧
      (∀ f, Outside lim p g.dirs f → p'.mem f = p.mem f) ∧ ∀ d' ∈ g.dirs, p'.mem d' = p.mem d' := by
  have hslot := slotOf_mem hd hva
  cases hw : p.pte (slotOf d va) with
  | none =>
    refine ⟨p, ?_, h, rfl, fun _ _ => rfl, ?_, fun _ _ => rfl, fun _ hf => .inl hf, fun _ _ => rfl, fun _ _ => rfl⟩
    · simp only [pageRemove, h.lookup_none hd hva hw, Option.bind_some]
    · intro s hs
      split
      · rename_i hss
        rw [hss, hw]
      · rfl
  | some w =>
    obtain ⟨t, ht, -, -⟩ := table_of_pte hw
    have ht' : p.table (d, pdx va) = some t := ht
    obtain ⟨hl, hm, hlt⟩ := h.lookup_some hd hva ht hw
    have hframe : p.frame (slotOf d va) = some (ppn w) := by simp only [Pmap.frame, hw, Option.map_some]
    have hr := h.frame_ref hslot hframe
    have hv0 : ¬valid 0 = true := by rw [valid_zero]; simp
    obtain ⟨htab, hpte⟩ := h.tree.pte_write hd hva ht' (j := ptx va) (w := 0)
    rw [if_neg hv0] at hpte
    have htree := h.tree.write_pte hd hva ht' (j := ptx va) (w := 0) (fun hv => absurd hv hv0)
    have hrm : pageRemove p d asid va = some (tlbInvalidate (Pmap.write { p with
        ppRef := Function.update p.ppRef (ppn w) (p.ppRef (ppn w) - 1)
        pageFreeList := if p.ppRef (ppn w) = 1 then ppn w :: p.pageFreeList else p.pageFreeList }
          (t, ptx va) 0) asid va) := by
      simp only [pageRemove, hl, Option.bind_some, decref_eq hr, Option.map_some]
    have htd : ∀ d' ∈ g.dirs, d' ≠ t := fun d' hd' hc => h.tree.table_dir _ (Tree.slot_table hslot) t ht (hc ▸ hd')
    refine ⟨_, hrm, ?_, rfl, htab, hpte, ?_, ?_, ?_, fun d' hd' => write_mem_ne p (e := (t, ptx va)) (htd d' hd')⟩
    · refine h.drop (ppn w) ?_ rfl hlt hr rfl rfl rfl h.dir_held ?_
      · exact htree.congr rfl (fun _ _ => rfl)
      · intro f
        have hrefs := refs_write hslot htab hpte f
        rw [hframe] at hrefs
        simp only [Option.map_none, reduceCtorEq, if_false, Nat.add_zero, Option.some.injEq] at hrefs
        rw [← hrefs]
        by_cases hfw : f = ppn w
        · rw [if_pos hfw, if_pos hfw.symm]
          rfl
        · rw [if_neg hfw, if_neg (Ne.symm hfw)]
          rfl
    · intro f hf
      have hfw : f ≠ ppn w := fun hc => hf (hc ▸ hframe)
      exact Function.update_of_ne hfw _ _
    · intro f hf
      have hf' : f ∈ (if p.ppRef (ppn w) = 1 then ppn w :: p.pageFreeList else p.pageFreeList) := hf
      split at hf'
      · rcases List.mem_cons.1 hf' with rfl | hf'
        · exact .inr hframe
        · exact .inl hf'
      · exact .inl hf'
    · intro f hf
      have hft : f ≠ t := fun hc => hf.table _ (mem_tableSlots.2 ⟨hd, hva⟩) (hc ▸ ht')
      exact write_mem_ne p (e := (t, ptx va)) hft

/-! ## `page_insert` -/

/-- The page can be mapped: it is in use or in the hands of a caller, and it is no directory and no table. -/
structure Usable (lim : Nat) (p : Pmap) (g : Ledger) (pp : Nat) : Prop where
  lt : pp < p.npage
  notFree : pp ∉ p.pageFreeList
  outside : Outside lim p g.dirs pp

theorem usable_of_frame (h : Acct lim p g) {s : Nat × Nat × Nat} {f : Nat} (hs : s ∈ pageSlots lim g.dirs)
    (hf : p.frame s = some f) : Usable lim p g f :=
  ⟨h.tree.frame_lt s hs f hf, fun hc => (h.not_free hc).2 s hs hf, h.tree.outside_of_frame hs hf⟩

theorem usable_of_limbo (h : Acct lim p g) {f : Nat} (hf : f ∈ g.limbo) : Usable lim p g f := by
  obtain ⟨hlt, hr⟩ := h.limbo f hf
  exact ⟨hlt, fun hc => ((h.free f).1 hc).2.2 hf, (h.unref hlt hr).1⟩

theorem Usable.congr {pp : Nat} (hu : Usable lim p g pp) (hn : p'.npage = p.npage)
    (hfl : pp ∉ p'.pageFreeList) (ht : ∀ s ∈ tableSlots lim g.dirs, p'.table s = p.table s) : Usable lim p' g pp :=
  ⟨hn ▸ hu.lt, hfl, hu.outside.dir, fun s hs => by rw [ht s hs]; exact hu.outside.table s hs⟩

/-- **A page is mapped where none was**, once the table is there. -/
theorem put (h : Acct lim p g) {d t pp : Nat} {va perm : Word} (hd : d ∈ g.dirs) (hva : pdx va < lim)
    (ht : p.table (d, pdx va) = some t) (hnone : p.pte (slotOf d va) = none) (hu : Usable lim p g pp)
    (hlt : p.ppRef pp < 65535) (hperm : pp ||| ppn perm = pp) :
    Acct lim ((p.setRef pp (p.ppRef pp + 1)).write (t, ptx va) (entryOf pp perm)) (g.settle pp) ∧
    SetsPte lim g.dirs p ((p.setRef pp (p.ppRef pp + 1)).write (t, ptx va) (entryOf pp perm)) (slotOf d va)
      (some (entryOf pp perm)) := by
  have hslot := slotOf_mem hd hva
  have hppn : ppn (entryOf pp perm) = pp := by
    rw [ppn_entryOf (Nat.lt_of_lt_of_le hu.lt h.npage_le), hperm]
  have htree : Tree lim (p.setRef pp (p.ppRef pp + 1)) g.dirs := h.tree.congr rfl (fun _ _ => rfl)
  obtain ⟨htab, hpte⟩ := htree.pte_write hd hva ht (j := ptx va) (w := entryOf pp perm)
  rw [if_pos (valid_entryOf pp perm)] at hpte
  refine ⟨?_, hpte⟩
  refine h.grab pp ?_ rfl hu.lt hu.notFree hlt rfl rfl rfl h.dir_held ?_
  · exact htree.write_pte hd hva ht (fun _ => by rw [hppn]; exact ⟨hu.lt, hu.outside.dir, hu.outside.table⟩)
  · intro f
    have hrefs := refs_write (p := p) hslot htab hpte f
    have hframe : p.frame (slotOf d va) = none := by simp only [Pmap.frame, hnone, Option.map_none]
    rw [hframe, Option.map_some, hppn] at hrefs
    simp only [reduceCtorEq, if_false, Nat.add_zero, Option.some.injEq] at hrefs
    by_cases hfp : f = pp
    · rw [if_pos hfp]
      rw [if_pos hfp.symm] at hrefs
      exact hrefs
    · rw [if_neg hfp]
      rw [if_neg (Ne.symm hfp)] at hrefs
      exact hrefs

/-- **What `page_insert` leaves when it succeeds.** -/
structure Inserted (lim : Nat) (p p' : Pmap) (g : Ledger) (d : Nat) (va : Word) (pp : Nat) (perm : Word) : Prop where
  acct : Acct lim p' (g.settle pp)
  npage : p'.npage = p.npage
  pte : SetsPte lim g.dirs p p' (slotOf d va) (some (entryOf pp perm))
  freeList : ∀ f ∈ p'.pageFreeList, f ∈ p.pageFreeList ∨ p.frame (slotOf d va) = some f
  mem : ∀ f, Outside lim p g.dirs f → (p.table (d, pdx va) = none → f ∉ p.pageFreeList) → p'.mem f = p.mem f
  table : ∀ s ∈ tableSlots lim g.dirs, ∀ t, p'.table s = some t → p.table s = some t ∨
    p.table (d, pdx va) = none ∧ t ∈ p.pageFreeList
  dir : ∀ d' ∈ g.dirs, ∀ i, p'.mem d' i = p.mem d' i ∨ i < lim ∧ ∃ t, p'.mem d' i = tableEntry t

/-- **`page_insert` where no page is mapped** maps the page, or is out of memory for the table. -/
theorem insertFresh (h : Acct lim p g) {d pp : Nat} {va perm : Word} (hd : d ∈ g.dirs) (hva : pdx va < lim)
    (asid : Word) (hnone : p.pte (slotOf d va) = none) (hu : Usable lim p g pp) (hlt : p.ppRef pp < 65535)
    (hperm : pp ||| ppn perm = pp) :
    (p.table (d, pdx va) = none ∧ p.pageFreeList = [] ∧
      pageInsertFresh p d asid pp va perm = some (-eNoMem, tlbInvalidate p asid va)) ∨
    ∃ p', pageInsertFresh p d asid pp va perm = some (0, p') ∧ Inserted lim p p' g d va pp perm := by
  have h₀ := h.tlb asid va
  have hu₀ : Usable lim (tlbInvalidate p asid va) g pp := ⟨hu.lt, hu.notFree, hu.outside.dir, hu.outside.table⟩
  rcases h₀.walk_create hd hva with ⟨t, ht, hw⟩ | ⟨ht, hf, hw⟩ | ⟨t, rest, p₁, ht, hf, hw, hacct, hn,
    hr, hfl, htab, hpte,
    hm, hmd⟩
  · obtain ⟨hacct, hset⟩ := h₀.put hd hva ht hnone hu₀ hlt hperm
    have hslot : (d, pdx va) ∈ tableSlots lim g.dirs := mem_tableSlots.2 ⟨hd, hva⟩
    have hdir : ∀ d' ∈ g.dirs, d' ≠ t := fun d' hd' hc => h₀.tree.table_dir _ hslot t ht (hc ▸ hd')
    refine .inr ⟨_, by simp only [pageInsertFresh, hw, Option.map_some]; rfl, hacct, rfl, hset, fun _ hf => .inl hf, ?_,
      ?_, ?_⟩
    · intro f hf _
      have hft : f ≠ t := fun hc => hf.table _ hslot (hc ▸ ht)
      exact write_mem_ne _ (e := (t, ptx va)) hft
    · intro s hs t' ht'
      rw [Tree.table_congr (fun d' hd' => write_mem_ne _ (e := (t, ptx va)) (hdir d' hd')) s hs] at ht'
      exact .inl ht'
    · intro d' hd' i
      exact .inl (congrFun (write_mem_ne _ (e := (t, ptx va)) (hdir d' hd')) i)
  · exact .inl ⟨ht, hf, by simp only [pageInsertFresh, hw, Option.map_some]⟩
  · have hslot : (d, pdx va) ∈ tableSlots lim g.dirs := mem_tableSlots.2 ⟨hd, hva⟩
    have hmem : t ∈ (tlbInvalidate p asid va).pageFreeList := by simp [hf]
    have hppt : pp ≠ t := fun hc => hu₀.notFree (hc ▸ hmem)
    have ht₁ : p₁.table (d, pdx va) = some t := by rw [htab _ hslot, if_pos rfl]
    have hu₁ : Usable lim p₁ g pp := by
      refine ⟨hn ▸ hu.lt, fun hc => hu₀.notFree (by rw [hf]; exact List.mem_cons_of_mem _ (hfl ▸ hc)),
        hu.outside.dir, ?_⟩
      intro s hs
      rw [htab s hs]
      split
      · exact fun hc => hppt (by simpa using hc.symm)
      · exact hu.outside.table s hs
    have hlt₁ : p₁.ppRef pp < 65535 := by
      rw [hr, Function.update_of_ne hppt]
      exact hlt
    obtain ⟨hacct', hset⟩ := hacct.put hd hva ht₁ ((hpte _ (slotOf_mem hd hva)).trans hnone) hu₁ hlt₁ hperm
    have hdir : ∀ d' ∈ g.dirs, d' ≠ t := fun d' hd' hc => h₀.dir_ref hd' (h₀.of_free (hc ▸ hmem)).2.1
    refine .inr ⟨_, by simp only [pageInsertFresh, hw, Option.map_some]; rfl, hacct', hn, ?_, ?_, ?_, ?_, ?_⟩
    · intro s hs
      exact (hset s hs).trans (ite_congr rfl (fun _ => rfl) (fun _ => hpte s hs))
    · intro f hfm
      have hfm' : f ∈ p₁.pageFreeList := hfm
      refine .inl ?_
      have : f ∈ (tlbInvalidate p asid va).pageFreeList := by
        rw [hf]
        exact List.mem_cons_of_mem _ (hfl ▸ hfm')
      exact this
    · intro f hf' hnf
      have hfd : f ≠ d := fun hc => hf'.dir (hc ▸ hd)
      have hft : f ≠ t := fun hc => hnf ht (hc ▸ hmem)
      rw [write_mem_ne _ (e := (t, ptx va)) hft]
      exact hm f hfd hft
    · intro s hs t' ht'
      rw [Tree.table_congr (fun d' hd' => write_mem_ne _ (e := (t, ptx va)) (hdir d' hd')) s hs] at ht'
      have ht₂ : p₁.table s = some t' := ht'
      rw [htab s hs] at ht₂
      split at ht₂
      · cases ht₂
        exact .inr ⟨ht, hmem⟩
      · exact .inl ht₂
    · intro d' hd' i
      rw [write_mem_ne _ (e := (t, ptx va)) (hdir d' hd')]
      by_cases hdd : d' = d
      · subst hdd
        have hi := hmd i
        split at hi
        · rename_i hip
          exact .inr ⟨hip ▸ hva, t, hi⟩
        · exact .inl hi
      · exact .inl (congrFun (hm d' hdd (hdir d' hd')) i)

/-- **`page_insert` maps the page**, or is out of memory for the table and leaves everything but the TLB. -/
theorem insertPage (h : Acct lim p g) {d pp : Nat} {va perm : Word} (hd : d ∈ g.dirs) (hva : pdx va < lim) (asid : Word)
    (hu : Usable lim p g pp) (hlt : p.frame (slotOf d va) = some pp ∨ p.ppRef pp < 65535)
    (hperm : pp ||| ppn perm = pp) :
    (p.table (d, pdx va) = none ∧ p.pageFreeList = [] ∧
      pageInsert p d asid pp va perm = some (-eNoMem, tlbInvalidate p asid va)) ∨
    ∃ p', pageInsert p d asid pp va perm = some (0, p') ∧ Inserted lim p p' g d va pp perm := by
  have hslot := slotOf_mem hd hva
  have hppn : ppn (entryOf pp perm) = pp := by
    rw [ppn_entryOf (Nat.lt_of_lt_of_le hu.lt h.npage_le), hperm]
  cases ht : p.table (d, pdx va) with
  | none =>
    have hnone : p.pte (slotOf d va) = none := pte_none_of_table ht _
    have hframe : p.frame (slotOf d va) ≠ some pp := by simp [Pmap.frame, hnone]
    have heq : pageInsert p d asid pp va perm = pageInsertFresh p d asid pp va perm := by
      simp only [pageInsert, walk_none ht, Option.bind_some]
    rw [heq]
    rcases h.insertFresh hd hva asid hnone hu (hlt.resolve_left hframe) hperm with ⟨-, hf, he⟩ | hi
    · exact .inl ⟨rfl, hf, he⟩
    · exact .inr hi
  | some t =>
    have hwalk := walk_of_table ht (h.tree.table_lt _ (mem_tableSlots.2 ⟨hd, hva⟩) t ht) false
    cases hw : p.pte (slotOf d va) with
    | none =>
      have hframe : p.frame (slotOf d va) ≠ some pp := by simp [Pmap.frame, hw]
      have hv : ¬valid (p.read (t, ptx va)) = true := by
        intro hv
        have hv' : valid (p.mem t (ptx va)) = true := hv
        rw [slotOf, pte_of_table ht, if_pos hv'] at hw
        cases hw
      have heq : pageInsert p d asid pp va perm = pageInsertFresh p d asid pp va perm := by
        simp only [pageInsert, hwalk, Option.bind_some, if_neg hv]
      rw [heq]
      rcases h.insertFresh hd hva asid hw hu (hlt.resolve_left hframe) hperm with ⟨ht', -, -⟩ | hi
      · rw [ht] at ht'
        cases ht'
      · exact .inr hi
    | some w =>
      obtain ⟨-, hm, hwlt⟩ := h.lookup_some hd hva ht hw
      have hv : valid (p.read (t, ptx va)) = true := by
        obtain ⟨t', ht', hv, -⟩ := table_of_pte hw
        obtain rfl : t' = t := by simpa using ht'.symm.trans ht
        exact hv
      have hframe : p.frame (slotOf d va) = some (ppn w) := by simp only [Pmap.frame, hw, Option.map_some]
      have hpa : pa2page p (p.read (t, ptx va)) = some (ppn w) := by
        have hread : p.read (t, ptx va) = w := hm
        rw [hread, pa2page, if_pos hwlt]
      by_cases hpp : ppn w = pp
      · -- the same page again: only the flags change
        have hout := h.tree.outside_of_frame hslot hframe
        obtain ⟨htab, hset⟩ := h.tree.pte_write hd hva ht (j := ptx va) (w := entryOf pp perm)
        have htree := h.tree.write_pte hd hva ht (j := ptx va) (w := entryOf pp perm)
          (fun _ => by rw [hppn, ← hpp]; exact ⟨hwlt, hout⟩)
        rw [if_pos (valid_entryOf pp perm)] at hset
        have hlimbo : pp ∉ g.limbo := fun hc => h.frame_ref hslot (hpp ▸ hframe) (h.limbo pp hc).2
        have heq : pageInsert p d asid pp va perm =
            some (0, (tlbInvalidate p asid va).write (t, ptx va) (entryOf pp perm)) := by
          simp only [pageInsert, hwalk, Option.bind_some, if_pos hv, hpa, if_pos hpp, entryOf]
        have hslot' : (d, pdx va) ∈ tableSlots lim g.dirs := mem_tableSlots.2 ⟨hd, hva⟩
        have hdir : ∀ d' ∈ g.dirs, d' ≠ t := fun d' hd' hc => h.tree.table_dir _ hslot' t ht (hc ▸ hd')
        refine .inr ⟨_, heq, ?_, rfl, hset, fun _ hf => .inl hf, ?_, fun s hs t' ht' => .inl (htab s hs ▸ ht'),
          fun d' hd' i => .inl (congrFun (write_mem_ne p (e := (t, ptx va)) (hdir d' hd')) i)⟩
        · rw [Ledger.settle, Finset.erase_eq_of_notMem hlimbo]
          refine h.of_refs (htree.congr rfl (fun _ _ => rfl)) rfl rfl rfl (fun f => ?_)
          have hrefs := refs_write (p := p) hslot htab hset f
          rw [hframe, Option.map_some, hppn, hpp] at hrefs
          exact Nat.add_right_cancel hrefs
        · intro f hf _
          have hft : f ≠ t := fun hc => hf.table _ hslot' (hc ▸ ht)
          exact write_mem_ne _ (e := (t, ptx va)) hft
      · obtain ⟨p₁, hrm, hacct, hn, htab, hset, hr, hfl, hmem, hmd⟩ := h.removePage hd hva asid
        have hne : p.frame (slotOf d va) ≠ some pp := by
          rw [hframe]
          exact fun hc => hpp (by simpa using hc)
        have heq : pageInsert p d asid pp va perm = pageInsertFresh p₁ d asid pp va perm := by
          simp only [pageInsert, hwalk, Option.bind_some, if_pos hv, hpa, if_neg hpp, hrm]
        have hu₁ : Usable lim p₁ g pp := hu.congr hn (fun hc => (hfl pp hc).elim hu.notFree hne) htab
        have hlt₁ : p₁.ppRef pp < 65535 := by
          rw [hr pp hne]
          exact hlt.resolve_left hne
        have hnone : p₁.pte (slotOf d va) = none := by rw [hset _ hslot, if_pos rfl]
        rw [heq]
        rcases hacct.insertFresh hd hva asid hnone hu₁ hlt₁ hperm with ⟨ht', -, -⟩ | ⟨p', he, hi⟩
        · rw [htab _ (mem_tableSlots.2 ⟨hd, hva⟩), ht] at ht'
          cases ht'
        · have htab₁ : p₁.table (d, pdx va) ≠ none := by
            rw [htab _ (mem_tableSlots.2 ⟨hd, hva⟩), ht]
            simp
          refine .inr ⟨p', he, hi.acct, hi.npage.trans hn, ?_, ?_, ?_, ?_, ?_⟩
          · intro s hs
            rw [hi.pte s hs]
            split
            · rfl
            · rename_i hss
              rw [hset s hs, if_neg hss]
          · intro f hf
            rcases hi.freeList f hf with hf | hf
            · exact hfl f hf
            · rw [Pmap.frame, hnone] at hf
              cases hf
          · intro f hf hnf
            have hout : Outside lim p₁ g.dirs f := ⟨hf.dir, fun s hs => by rw [htab s hs]; exact hf.table s hs⟩
            rw [hi.mem f hout (fun hc => absurd hc htab₁)]
            exact hmem f hf
          · intro s hs t' ht'
            rcases hi.table s hs t' ht' with hs' | ⟨hnt, -⟩
            · exact .inl (htab s hs ▸ hs')
            · exact absurd hnt htab₁
          · intro d' hd' i
            rcases hi.dir d' hd' i with hs' | hs'
            · exact .inl (hs'.trans (congrFun (hmd d' hd') i))
            · exact .inr hs'

/-! ## References that callers hold -/

theorem refs_held (held : Nat → Nat) (limbo : Finset Nat) (hsame : SameMaps lim g.dirs p p') (f : Nat) :
    refs lim p' ⟨g.dirs, held, limbo⟩ f + g.held f = refs lim p g f + held f := by
  unfold refs
  dsimp only
  rw [count_congr hsame.table, count_congr hsame.frame]
  omega

/-- **A caller takes a reference** to a page that is in use or in its hands. -/
theorem hold (h : Acct lim p g) {pp : Nat} (hu : Usable lim p g pp) (hlt : p.ppRef pp < 65535) :
    Acct lim (p.setRef pp (p.ppRef pp + 1))
      ⟨g.dirs, Function.update g.held pp (g.held pp + 1), g.limbo.erase pp⟩ := by
  refine h.grab pp ?_ rfl hu.lt hu.notFree hlt rfl rfl rfl ?_ ?_
  · exact h.tree.congr rfl (fun _ _ => rfl)
  · intro d hd
    have hdp : d ≠ pp := fun hc => hu.outside.dir (hc ▸ hd)
    exact (Function.update_of_ne hdp _ _).trans_ne (h.dir_held d hd)
  · intro f
    have hsame : SameMaps lim g.dirs p (p.setRef pp (p.ppRef pp + 1)) := SameMaps.of_mem (fun _ _ => rfl)
    have hrefs := refs_held (Function.update g.held pp (g.held pp + 1)) (g.limbo.erase pp) hsame f
    by_cases hfp : f = pp
    · subst hfp
      rw [Function.update_self] at hrefs
      rw [if_pos rfl]
      omega
    · rw [Function.update_of_ne hfp] at hrefs
      rw [if_neg hfp]
      omega

/-- A caller gives a reference back; the page is no directory, or is still held. -/
theorem unhold (h : Acct lim p g) {pp : Nat} (hpp : pp < p.npage) (hheld : g.held pp ≠ 0)
    (hdir : pp ∈ g.dirs → g.held pp ≠ 1) : ∃ p', pageDecref p pp = some p' ∧
      Acct lim p' ⟨g.dirs, Function.update g.held pp (g.held pp - 1), g.limbo⟩ := by
  have hr : p.ppRef pp ≠ 0 := fun hr => hheld (h.unref hpp hr).2.2
  refine ⟨_, decref_eq hr, h.drop pp ?_ rfl hpp hr rfl rfl rfl ?_ ?_⟩
  · exact h.tree.congr rfl (fun _ _ => rfl)
  · intro d hd
    by_cases hdp : d = pp
    · subst hdp
      have hne := hdir hd
      show Function.update g.held d (g.held d - 1) d ≠ 0
      rw [Function.update_self]
      omega
    · exact (Function.update_of_ne hdp _ _).trans_ne (h.dir_held d hd)
  · intro f
    have hsame : SameMaps lim g.dirs p p := SameMaps.refl p
    have hrefs := refs_held (Function.update g.held pp (g.held pp - 1)) g.limbo hsame f
    by_cases hfp : f = pp
    · subst hfp
      rw [Function.update_self] at hrefs
      rw [if_pos rfl]
      show refs lim p _ f + 1 = refs lim p g f
      omega
    · rw [Function.update_of_ne hfp] at hrefs
      rw [if_neg hfp]
      exact Nat.add_right_cancel hrefs

/-! ## Directories come and go -/

theorem refs_dirs {dirs : Finset Nat} (held : Nat → Nat) (limbo : Finset Nat) (hsub : g.dirs ⊆ dirs)
    (hnone : ∀ d ∈ dirs, d ∉ g.dirs → ∀ i < lim, p.table (d, i) = none) (f : Nat) :
    refs lim p ⟨dirs, held, limbo⟩ f =
      count (tableSlots lim g.dirs) p.table f + count (pageSlots lim g.dirs) p.frame f + held f := by
  have htable : count (tableSlots lim dirs) p.table f = count (tableSlots lim g.dirs) p.table f := by
    refine count_subset ?_ ?_ f
    · exact Finset.product_subset_product_left hsub
    · intro s hs hns
      obtain ⟨hd, hi⟩ := mem_tableSlots.1 hs
      exact hnone s.1 hd (fun hc => hns (mem_tableSlots.2 ⟨hc, hi⟩)) s.2 hi
  have hpage : count (pageSlots lim dirs) p.frame f = count (pageSlots lim g.dirs) p.frame f := by
    refine count_subset ?_ ?_ f
    · exact Finset.product_subset_product_left hsub
    · intro s hs hns
      obtain ⟨hd, hi, hj⟩ := mem_pageSlots.1 hs
      have ht := hnone s.1 hd (fun hc => hns (mem_pageSlots.2 ⟨hc, hi, hj⟩)) s.2.1 hi
      simp only [Pmap.frame, Pmap.pte, ht, Option.bind_none, Option.map_none]
  unfold refs
  rw [htable, hpage]

/-- **A page that was just allocated becomes a directory**, with nothing below `lim` and anything above. -/
theorem newDir (h : Acct lim p g) {d : Nat} (hd : d ∈ g.limbo) (hempty : ∀ i < lim, valid (p'.mem d i) = false)
    (hn : p'.npage = p.npage) (href : p'.ppRef = Function.update p.ppRef d 1) (hfl : p'.pageFreeList = p.pageFreeList)
    (hmem : ∀ f, f ≠ d → p'.mem f = p.mem f) :
    Acct lim p' { dirs := insert d g.dirs, held := Function.update g.held d 1, limbo := g.limbo.erase d } ∧
      SameMaps lim g.dirs p p' := by
  obtain ⟨hlt, hr⟩ := h.limbo d hd
  obtain ⟨hout, hpage, hheld⟩ := h.unref hlt hr
  have hsame : SameMaps lim g.dirs p p' := by
    refine SameMaps.of_mem (fun f hf => hmem f ?_)
    rintro rfl
    exact hf hout
  have hnone : ∀ d' ∈ insert d g.dirs, d' ∉ g.dirs → ∀ i < lim, p'.table (d', i) = none := by
    intro d' hd' hnd i hi
    obtain rfl := (Finset.mem_insert.1 hd').resolve_right hnd
    have hinv : ¬valid (p'.mem d' i) = true := by rw [hempty i hi]; simp
    simp only [Pmap.table, if_neg hinv]
  have hold : ∀ s ∈ tableSlots lim (insert d g.dirs), ∀ t, p'.table s = some t →
      s ∈ tableSlots lim g.dirs ∧ p.table s = some t := by
    intro s hs t hst
    obtain ⟨hs1, hs2⟩ := mem_tableSlots.1 hs
    by_cases hsd : s.1 ∈ g.dirs
    · have hs' : s ∈ tableSlots lim g.dirs := mem_tableSlots.2 ⟨hsd, hs2⟩
      exact ⟨hs', hsame.table s hs' ▸ hst⟩
    · rw [hnone s.1 hs1 hsd s.2 hs2] at hst
      cases hst
  have holdf : ∀ s ∈ pageSlots lim (insert d g.dirs), ∀ f, p'.frame s = some f →
      s ∈ pageSlots lim g.dirs ∧ p.frame s = some f := by
    intro s hs f hsf
    obtain ⟨hs1, hs2, hs3⟩ := mem_pageSlots.1 hs
    obtain ⟨w, hw, -⟩ := frame_eq_some hsf
    obtain ⟨t, ht, -, -⟩ := table_of_pte hw
    have hs' : s ∈ pageSlots lim g.dirs :=
      mem_pageSlots.2 ⟨(mem_tableSlots.1 (hold _ (Tree.slot_table hs) t ht).1).1, hs2, hs3⟩
    exact ⟨hs', hsame.frame s hs' ▸ hsf⟩
  have htree : Tree lim p' (insert d g.dirs) := by
    refine ⟨?_, ?_, ?_, ?_, ?_, ?_, ?_⟩
    · intro d' hd'
      rw [hn]
      rcases Finset.mem_insert.1 hd' with rfl | hd'
      · exact hlt
      · exact h.tree.dir_lt d' hd'
    · intro s hs t hst
      obtain ⟨hs', hst'⟩ := hold s hs t hst
      exact hn ▸ h.tree.table_lt s hs' t hst'
    · intro s hs s' hs' t hst hst'
      obtain ⟨hs₁, hst₁⟩ := hold s hs t hst
      obtain ⟨hs₂, hst₂⟩ := hold s' hs' t hst'
      exact h.tree.table_inj s hs₁ s' hs₂ t hst₁ hst₂
    · intro s hs t hst hc
      obtain ⟨hs', hst'⟩ := hold s hs t hst
      rcases Finset.mem_insert.1 hc with rfl | hc
      · exact hout.table s hs' hst'
      · exact h.tree.table_dir s hs' t hst' hc
    · intro s hs f hsf
      obtain ⟨hs', hsf'⟩ := holdf s hs f hsf
      exact hn ▸ h.tree.frame_lt s hs' f hsf'
    · intro s hs f hsf hc
      obtain ⟨hs', hsf'⟩ := holdf s hs f hsf
      rcases Finset.mem_insert.1 hc with rfl | hc
      · exact hpage s hs' hsf'
      · exact h.tree.frame_dir s hs' f hsf' hc
    · intro s hs f hsf s' hs' hst
      obtain ⟨hs₁, hsf'⟩ := holdf s hs f hsf
      obtain ⟨hs₂, hst'⟩ := hold s' hs' f hst
      exact h.tree.frame_table s hs₁ f hsf' s' hs₂ hst'
  have hnf : d ∉ p.pageFreeList := fun hc => ((h.free d).1 hc).2.2 hd
  refine ⟨h.grab d htree hn hlt hnf (by rw [hr]; decide) (by rw [href, hr]; rfl) hfl rfl ?_ ?_, hsame⟩
  · intro d' hd'
    rcases Finset.mem_insert.1 hd' with rfl | hd'
    · simp
    · have hne : d' ≠ d := fun hc => hout.dir (hc ▸ hd')
      exact (Function.update_of_ne hne _ _).trans_ne (h.dir_held d' hd')
  · intro f
    rw [refs_dirs (g := g) _ _ (Finset.subset_insert d g.dirs) hnone, count_congr hsame.table, count_congr hsame.frame]
    unfold refs
    by_cases hfd : f = d
    · subst hfd
      rw [Function.update_self, if_pos rfl, hheld]
    · rw [Function.update_of_ne hfd, if_neg hfd, Nat.add_zero]

/-- **A directory without tables is given back** with its last reference. -/
theorem dropDir (h : Acct lim p g) {d : Nat} (hd : d ∈ g.dirs) (hheld : g.held d = 1)
    (hempty : ∀ i < lim, p.table (d, i) = none) : ∃ p', pageDecref p d = some p' ∧ p'.mem = p.mem ∧
      p'.npage = p.npage ∧
      Acct lim p' { g with dirs := g.dirs.erase d, held := Function.update g.held d 0 } := by
  have hlt := h.tree.dir_lt d hd
  have hr : p.ppRef d ≠ 0 := fun hr => h.dir_held d hd (h.unref hlt hr).2.2
  have hsub : ∀ s ∈ tableSlots lim (g.dirs.erase d), s ∈ tableSlots lim g.dirs := by
    intro s hs
    obtain ⟨hs1, hs2⟩ := mem_tableSlots.1 hs
    exact mem_tableSlots.2 ⟨Finset.mem_of_mem_erase hs1, hs2⟩
  have hsubp : ∀ s ∈ pageSlots lim (g.dirs.erase d), s ∈ pageSlots lim g.dirs := by
    intro s hs
    obtain ⟨hs1, hs2⟩ := mem_pageSlots.1 hs
    exact mem_pageSlots.2 ⟨Finset.mem_of_mem_erase hs1, hs2⟩
  have htree : Tree lim p (g.dirs.erase d) := by
    refine ⟨fun d' hd' => h.tree.dir_lt d' (Finset.mem_of_mem_erase hd'), fun s hs => h.tree.table_lt s (hsub s hs),
      fun s hs s' hs' => h.tree.table_inj s (hsub s hs) s' (hsub s' hs'),
      fun s hs t ht hc => h.tree.table_dir s (hsub s hs) t ht (Finset.mem_of_mem_erase hc),
      fun s hs => h.tree.frame_lt s (hsubp s hs),
      fun s hs f hf hc => h.tree.frame_dir s (hsubp s hs) f hf (Finset.mem_of_mem_erase hc),
      fun s hs f hf s' hs' => h.tree.frame_table s (hsubp s hs) f hf s' (hsub s' hs')⟩
  refine ⟨_, decref_eq hr, rfl, rfl, h.drop d ?_ rfl hlt hr rfl rfl rfl ?_ ?_⟩
  · exact htree.congr rfl (fun _ _ => rfl)
  · intro d' hd'
    have hne := Finset.ne_of_mem_erase hd'
    exact (Function.update_of_ne hne _ _).trans_ne (h.dir_held d' (Finset.mem_of_mem_erase hd'))
  · intro f
    have hsplit := refs_dirs (p := p) (g := { g with dirs := g.dirs.erase d }) g.held g.limbo
      (Finset.erase_subset d g.dirs) (fun d' hd' hnd i hi => by
        have hdd : d' = d := by
          by_contra hc
          exact hnd (Finset.mem_erase.2 ⟨hc, hd'⟩)
        rw [hdd]
        exact hempty i hi) f
    show _ = refs lim p ⟨g.dirs, g.held, g.limbo⟩ f
    rw [hsplit]
    show count _ p.table f + count _ p.frame f + Function.update g.held d 0 f + _ = _
    by_cases hfd : f = d
    · subst hfd
      rw [Function.update_self, if_pos rfl, hheld]
    · rw [Function.update_of_ne hfd, if_neg hfd, Nat.add_zero]

/-- **A table without pages is given back**, once its directory entry is cleared. -/
theorem dropTable (h : Acct lim p g) {d i t : Nat} (hd : d ∈ g.dirs) (hi : i < lim) (ht : p.table (d, i) = some t)
    (hempty : ∀ j < pageWords, p.pte (d, i, j) = none) : ∃ p', pageDecref (p.write (d, i) 0) t = some p' ∧
      Acct lim p' g ∧ p'.npage = p.npage ∧
      (∀ s ∈ tableSlots lim g.dirs, p'.table s = if s = (d, i) then none else p.table s) ∧
      ∀ s ∈ pageSlots lim g.dirs, p'.pte s = p.pte s := by
  have hslot : (d, i) ∈ tableSlots lim g.dirs := mem_tableSlots.2 ⟨hd, hi⟩
  have hv0 : ¬valid 0 = true := by rw [valid_zero]; simp
  have hr : (p.write (d, i) 0).ppRef t ≠ 0 := h.table_ref hslot ht
  obtain ⟨htab, hpte⟩ := h.tree.pde_write hd hi (w := 0) hempty (fun hv => absurd hv hv0)
  rw [if_neg hv0] at htab
  have htree := h.tree.write_pde hd hi (w := 0) hempty (fun hv => absurd hv hv0)
  refine ⟨_, decref_eq hr, h.drop t ?_ rfl (h.tree.table_lt _ hslot t ht) hr rfl rfl rfl h.dir_held ?_, rfl, htab,
    hpte⟩
  · exact htree.congr rfl (fun _ _ => rfl)
  · intro f
    have hcount := count_write p.table (p.write (d, i) 0).table hslot
      (fun s hs hne => by rw [htab s hs, if_neg hne]) f
    rw [ht, htab _ hslot, if_pos rfl] at hcount
    simp only [reduceCtorEq, if_false, Nat.add_zero, Option.some.injEq] at hcount
    show count _ (p.write (d, i) 0).table f + count _ (p.write (d, i) 0).frame f + g.held f + _ = _
    rw [count_congr (Tree.frame_congr hpte)]
    unfold refs
    by_cases hft : f = t
    · rw [if_pos hft]
      rw [if_pos hft.symm] at hcount
      omega
    · rw [if_neg hft]
      rw [if_neg (Ne.symm hft)] at hcount
      omega

end Acct

end Mos
