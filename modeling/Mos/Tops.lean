import Mos.Framed
import Mos.Boot
import Mos.Isolation
/-!
# Tops — the entries of a directory from `UTOP` on

`env_setup_vm` copies the entries for `UENVS` and `UPAGES` from the template and points one entry at the directory
itself. No operation on pages below `UTOP` touches an entry from there on; only an access to the window on the page
tables does, where `passive_alloc` puts a new frame into an entry that was empty.
-/
namespace Mos

/-- The directories of `D` have the same entries from `UTOP` on. -/
def SameTops (D : Finset Nat) (p p' : Pmap) : Prop := ∀ d ∈ D, ∀ i, utopEntries ≤ i → p'.mem d i = p.mem d i

namespace SameTops

variable {D : Finset Nat} {p p₁ p' : Pmap}

theorem refl (p : Pmap) : SameTops D p p := fun _ _ _ _ => rfl

theorem trans (h : SameTops D p p₁) (h' : SameTops D p₁ p') : SameTops D p p' :=
  fun d hd i hi => (h' d hd i hi).trans (h d hd i hi)

theorem of_mem (h : ∀ d ∈ D, p'.mem d = p.mem d) : SameTops D p p' := fun d hd _ _ => by rw [h d hd]

end SameTops

/-- An access to `va` would fill an entry of the directory from `UTOP` on. -/
def FillsTop (p : Pmap) (d : Nat) (va : Word) : Prop :=
  pdx va = pdx uvpt ∧ utopEntries ≤ ptx va ∧ valid (p.mem d (ptx va)) = false

theorem not_fillsTop_of_lt {p : Pmap} {d : Nat} {va : Word} (h : va < utop) : ¬FillsTop p d va := by
  rintro ⟨hva, -⟩
  have := pdx_lt_utop.2 h
  rw [hva] at this
  exact absurd this (by decide)

namespace Sound

variable {base : Nat} {p p' : Pmap} {g : Ledger} {d pp : Nat} {asid va perm : Word} {r : Int}

theorem reserved (h : Sound base p g) {f : Nat} (hf : f ∈ insert base g.dirs) :
    (∀ s ∈ tableSlots utopEntries g.dirs, p.table s ≠ some f) ∧
    (∀ s ∈ pageSlots utopEntries g.dirs, p.frame s ≠ some f) ∧
      f ∉ p.pageFreeList := by
  have hheld : g.held f ≠ 0 := by
    rcases Finset.mem_insert.1 hf with rfl | hf
    · exact h.template.1
    · exact h.acct.dir_held f hf
  refine ⟨fun s hs hc => hheld (h.table s hs f hc), fun s hs hc => hheld (h.frame s hs f hc), fun hc => hheld ?_⟩
  obtain ⟨hlt, hr, -⟩ := h.acct.of_free hc
  exact (h.acct.unref hlt hr).2.2

theorem alloc_mem (h : Sound base p g) (ha : pageAlloc p = some (pp, p')) :
    ∀ f ∈ insert base g.dirs, p'.mem f = p.mem f := by
  intro f hf
  obtain ⟨rest, hfree, rfl⟩ := pageAlloc_eq ha
  refine Function.update_of_ne ?_ _ _
  rintro rfl
  exact (h.reserved hf).2.2 (by rw [hfree]; exact List.mem_cons_self)

theorem remove_mem (h : Sound base p g) (hd : d ∈ g.dirs) (hva : va < utop) (hr : pageRemove p d asid va = some p') :
    ∀ f ∈ insert base g.dirs, p'.mem f = p.mem f := by
  obtain ⟨p₁, hr₁, -, -, -, -, -, -, hmem, hdir⟩ := h.acct.removePage hd (pdx_lt_utop.2 hva) asid
  obtain rfl : p₁ = p' := by simpa using hr₁.symm.trans hr
  intro f hf
  rcases Finset.mem_insert.1 hf with rfl | hf'
  · exact hmem f ⟨h.template.2, (h.reserved hf).1⟩
  · exact hdir f hf'

/-- `page_insert` from step 2 on writes the entry of a table, and for a new table one of the directory. -/
theorem insertFresh_tops (h : Sound base p g) (hd : d ∈ g.dirs) (hva : va < utop)
    (hi : pageInsertFresh p d asid pp va perm = some (r, p')) : SameTops (insert base g.dirs) p p' := by
  have hslot : (d, pdx va) ∈ tableSlots utopEntries g.dirs := mem_tableSlots.2 ⟨hd, pdx_lt_utop.2 hva⟩
  have hq := (h.tlb (tlbInvalidate p asid va).tlb).sound
  unfold pageInsertFresh at hi
  obtain ⟨w, hw, hres⟩ := Option.map_eq_some_iff.1 hi
  cases ht : p.table (d, pdx va) with
  | some t =>
    have hlt := h.acct.tree.table_lt _ hslot t ht
    have hwalk : pgdirWalk (tlbInvalidate p asid va) d va true = some (0, some (t, ptx va), tlbInvalidate p asid va) :=
      Acct.walk_of_table (p := tlbInvalidate p asid va) ht hlt true
    obtain rfl := Option.some.inj (hwalk.symm.trans hw)
    obtain ⟨-, rfl⟩ := Prod.mk.inj hres
    refine .of_mem fun f hf => ?_
    rw [write_mem_ne _ (e := (t, ptx va)) fun hc => (h.reserved hf).1 _ hslot (by rw [hc]; exact ht)]
    rfl
  | none =>
    have hv : ¬valid ((tlbInvalidate p asid va).mem d (pdx va)) = true := by
      show ¬valid (p.mem d (pdx va)) = true
      rw [table_eq_none.1 ht]
      simp
    unfold pgdirWalk at hw
    rw [if_neg hv, if_pos rfl] at hw
    cases ha : pageAlloc (tlbInvalidate p asid va) with
    | none =>
      rw [ha] at hw
      cases hw
      cases hres
      exact .refl p
    | some a =>
      obtain ⟨t, p₁⟩ := a
      rw [ha] at hw
      have hmem := hq.alloc_mem ha
      obtain ⟨t', ht', rfl⟩ := Option.map_eq_some_iff.1 hw
      obtain ⟨-, rfl⟩ := Prod.mk.inj hres
      have htt : t' = t := by
        obtain ⟨rest, hfree, -⟩ := pageAlloc_eq ha
        have htlt : t < p.npage := (h.acct.of_free (f := t) (by
          rw [show p.pageFreeList = t :: rest from hfree]
          exact List.mem_cons_self)).1
        have hentry : ((p₁.setRef t 1).write (d, pdx va) (page2pa t ||| pteCCacheable ||| pteV)).mem d (pdx va) =
            page2pa t ||| pteCCacheable ||| pteV := by
          rw [write_mem, if_pos ⟨rfl, rfl⟩]
        have hppn : ppn (page2pa t ||| pteCCacheable ||| pteV) = t :=
          Acct.ppn_tableEntry (Nat.lt_of_lt_of_le htlt h.acct.npage_le)
        unfold kaddr at ht'
        rw [hentry, ppn_pteAddr, hppn] at ht'
        split at ht'
        · exact (Option.some.inj ht').symm
        · cases ht'
      subst htt
      obtain ⟨rest, hfree, -⟩ := pageAlloc_eq ha
      intro f hf i hi'
      have hft : f ≠ t' := by
        rintro rfl
        exact (h.reserved hf).2.2 (by rw [show p.pageFreeList = f :: rest from hfree]; exact List.mem_cons_self)
      have hne : ¬(f = d ∧ i = pdx va) := by
        rintro ⟨-, rfl⟩
        exact absurd (pdx_lt_utop.2 hva) (Nat.not_lt.2 hi')
      rw [write_mem_ne _ (e := (t', ptx va)) hft]
      show ((p₁.setRef t' 1).write (d, pdx va) _).mem f i = _
      rw [write_mem, if_neg hne]
      exact congrFun (hmem f hf) i

/-- **`page_insert` below `UTOP`.** -/
theorem insert_tops (h : Sound base p g) (hd : d ∈ g.dirs) (hva : va < utop)
    (hi : pageInsert p d asid pp va perm = some (r, p')) : SameTops (insert base g.dirs) p p' := by
  have hslot : (d, pdx va) ∈ tableSlots utopEntries g.dirs := mem_tableSlots.2 ⟨hd, pdx_lt_utop.2 hva⟩
  unfold pageInsert at hi
  cases ht : p.table (d, pdx va) with
  | none =>
    rw [walk_eq_none ht] at hi
    exact h.insertFresh_tops hd hva hi
  | some t =>
    rw [Acct.walk_of_table ht (h.acct.tree.table_lt _ hslot t ht) false, Option.bind_some] at hi
    dsimp only at hi
    split at hi
    · obtain ⟨pp', -, hi⟩ := Option.bind_eq_some_iff.1 hi
      split at hi
      · obtain ⟨-, rfl⟩ := Prod.mk.inj (Option.some.inj hi)
        refine .of_mem fun f hf => ?_
        rw [write_mem_ne _ (e := (t, ptx va)) fun hc => (h.reserved hf).1 _ hslot (by rw [hc]; exact ht)]
        rfl
      · obtain ⟨p₁, hr, hi⟩ := Option.bind_eq_some_iff.1 hi
        have hrm := (h.remove hd hva hr).1
        exact (SameTops.of_mem (h.remove_mem hd hva hr)).trans (hrm.sound.insertFresh_tops hd hva hi)
    · exact h.insertFresh_tops hd hva hi

/-- **The refill of the TLB**, where it does not fill an entry from `UTOP` on. -/
theorem refill_tops (h : Sound base p g) {victim : Nat} (hd : d ∈ g.dirs) (hno : ¬FillsTop p d va)
    (hr : doTlbRefill p d asid va victim = some p') : SameTops (insert base g.dirs) p p' := by
  unfold doTlbRefill at hr
  obtain ⟨⟨e, p₂⟩, hl, rfl⟩ := Option.map_eq_some_iff.1 hr
  show SameTops (insert base g.dirs) p p₂
  have h₁ := (h.tlb (tlbInvalidate p asid va).tlb).sound
  unfold lookupAlloc at hl
  obtain ⟨l, hl₁, hl₂⟩ := Option.bind_eq_some_iff.1 hl
  cases l with
  | some l =>
    cases hl₂
    exact .refl p
  | none =>
    obtain ⟨p₃, hpas, hrest⟩ := Option.bind_eq_some_iff.1 hl₂
    obtain ⟨l', -, hl'⟩ := Option.bind_eq_some_iff.1 hrest
    obtain ⟨⟨pp, e'⟩, -, he⟩ := Option.map_eq_some_iff.1 hl'
    cases he
    unfold passiveAlloc at hpas
    split at hpas
    · cases hpas
    · rename_i hzone
      cases ha : pageAlloc (tlbInvalidate p asid va) with
      | none => rw [ha] at hpas; cases hpas
      | some a =>
        obtain ⟨pp, p₁⟩ := a
        rw [ha] at hpas
        obtain ⟨⟨r, p₄⟩, hi, hr⟩ := Option.bind_eq_some_iff.1 hpas
        dsimp only at hr
        split at hr
        · cases hr
          have hmem : SameTops (insert base g.dirs) p p₁ := .of_mem (h₁.alloc_mem ha)
          obtain ⟨-, -, -, hmaps⟩ := h₁.alloc ha
          refine hmem.trans ?_
          by_cases hva : va < utop
          · have hva' : pteAddr va < utop := by
              rw [← pdx_lt_utop, pdx_pteAddr]
              exact pdx_lt_utop.2 hva
            exact hmaps.sound.insert_tops hd hva' hi
          · have huv : uvpt ≤ va ∧ va < ulim := by
              rw [not_or, not_or, not_or, not_or] at hzone
              obtain ⟨-, -, h₁, h₂, h₃⟩ := hzone
              rw [BitVec.lt_def] at hva
              simp only [BitVec.lt_def, BitVec.le_def] at h₁ h₂ h₃ ⊢
              have : uenvs.toNat = utop.toNat := rfl
              omega
            have hdx := pdx_window huv.1 huv.2
            have hv := h₁.window_none hd hdx hl₁
            have hlow : ptx va < utopEntries := Nat.not_le.1 fun hle => hno ⟨hdx, hle, hv⟩
            have hv₁ : valid (p₁.mem d (ptx va)) = false := by
              rw [h₁.alloc_mem ha d (Finset.mem_insert_of_mem hd)]
              exact hv
            rw [hmaps.sound.insert_window hd (by rw [pdx_pteAddr, hdx]) (by rw [ptx_pteAddr, hv₁])] at hi
            obtain ⟨-, rfl⟩ := Prod.mk.inj (Option.some.inj hi)
            intro f _ i hi'
            have hne : ¬(f = d ∧ i = ptx (pteAddr va)) := by
              rintro ⟨-, rfl⟩
              rw [ptx_pteAddr] at hi'
              exact absurd hlow (Nat.not_lt.2 hi')
            rw [write_mem, if_neg hne]
            rfl
        · cases hr

theorem touch_tops (h : Sound base p g) (hd : d ∈ g.dirs) (hno : ¬FillsTop p d va)
    (ht : Mos.touch p d asid va = some p') : SameTops (insert base g.dirs) p p' := by
  unfold Mos.touch at ht
  split at ht
  · cases ht
    exact .refl p
  · obtain ⟨l, -, hrest⟩ := Option.bind_eq_some_iff.1 ht
    cases l with
    | some l =>
      cases hrest
      exact .refl p
    | none => exact h.refill_tops hd hno hrest

theorem store_tops (h : Sound base p g) {w : Word} (hd : d ∈ g.dirs) (hs : Mos.store p d va w = some p') :
    SameTops (insert base g.dirs) p p' := by
  unfold Mos.store at hs
  split at hs
  · cases hs
  · rename_i hul
    have hva : va < ulim := by
      rw [BitVec.le_def] at hul
      rw [BitVec.lt_def]
      omega
    obtain ⟨l, hl, hrest⟩ := Option.bind_eq_some_iff.1 hs
    cases l with
    | none => cases hrest
    | some l =>
      obtain ⟨pp, e⟩ := l
      dsimp only at hrest
      split at hrest
      · rename_i hD
        cases hrest
        have hbelow := pdx_lt_utop.2 (h.store_below hd hva hl (by simpa using hD))
        obtain ⟨l', hl', hlf⟩ := h.acct.lookup hd hbelow
        obtain rfl : some (pp, e) = l' := by simpa using hl.symm.trans hl'
        have hframe : p.frame (slotOf d va) = some pp := hlf.symm
        refine .of_mem fun f hf => write_mem_ne p (e := (pp, pageOffset va)) ?_
        rintro rfl
        exact (h.reserved hf).2.1 _ (slotOf_mem hd hbelow) hframe
      · cases hrest

/-! ## Programs -/

theorem loadIcodeMapper_tops (h : Sound base p g) {m : MapPage} (hd : d ∈ g.dirs) (hva : m.va < utop)
    (hl : Mos.loadIcodeMapper d asid m p = some (r, p')) : SameTops (insert base g.dirs) p p' := by
  rcases h.loadIcodeMapper_page hl with rfl | ⟨pp, p₁, p₂, ha, hmem, hm, -, hheld, hdir, -, hi⟩
  · exact .refl p'
  · refine SameTops.trans (.of_mem fun f hf => ?_) (hm.sound.insert_tops hd hva hi)
    have hfp : f ≠ pp := by
      rintro rfl
      rcases Finset.mem_insert.1 hf with rfl | hf
      · exact h.template.1 hheld
      · exact hdir hf
    rw [hmem f hfp, h.alloc_mem ha f hf]

/-! ## `env_free` and `env_alloc` -/

theorem freeEntries_mem {i t : Nat} (hi : i < utopEntries) :
    ∀ (js : List Nat) {p p' : Pmap}, (∀ j ∈ js, j < pageWords) →
    Sound base p g → d ∈ g.dirs → js.foldlM (fun p j => if valid (p.mem t j) then
      pageRemove p d asid (BitVec.ofNat 32 i <<< pdshift ||| BitVec.ofNat 32 j <<< pgshift) else some p) p = some p' →
    ∀ f ∈ insert base g.dirs, p'.mem f = p.mem f
  | [], p, p', _, _, _, hf => by
    cases hf
    exact fun _ _ => rfl
  | j :: js, p, p', hjs, h, hd, hf => by
    rw [List.foldlM_cons] at hf
    obtain ⟨p₁, hstep, hrest⟩ := Option.bind_eq_some_iff.1 hf
    have htail : ∀ j' ∈ js, j' < pageWords := fun j' hj' => hjs j' (List.mem_cons_of_mem _ hj')
    split at hstep
    · have hso := slotOf_free (d := d) (Nat.lt_trans hi (pdx_lt utop)) (hjs j List.mem_cons_self)
      have hva : BitVec.ofNat 32 i <<< pdshift ||| BitVec.ofNat 32 j <<< pgshift < utop := by
        have hpd := congrArg (fun s => s.2.1) hso
        exact pdx_lt_utop.1 (hpd.trans_lt hi)
      intro f hf
      rw [freeEntries_mem hi js htail (h.remove hd hva hstep).1.sound hd hrest f hf]
      exact h.remove_mem hd hva hstep f hf
    · cases hstep
      exact freeEntries_mem hi js htail h hd hrest

theorem freeTable_mem (h : Sound base p g) {i : Nat} (hd : d ∈ g.dirs) (hi : i < utopEntries)
    (hf : envFreeTable d asid p i = some p') :
    ∀ f ∈ insert base g.dirs, ∀ j, f ≠ d ∨ utopEntries ≤ j → p'.mem f j = p.mem f j := by
  unfold envFreeTable at hf
  split at hf
  · obtain ⟨t, -, hrest⟩ := Option.bind_eq_some_iff.1 hf
    obtain ⟨p₁, hloop, hrest⟩ := Option.bind_eq_some_iff.1 hrest
    obtain ⟨t', -, hrest⟩ := Option.bind_eq_some_iff.1 hrest
    obtain ⟨p₂, hdec, rfl⟩ := Option.map_eq_some_iff.1 hrest
    intro f hfD j hj
    have hne : ¬(f = d ∧ j = i) := fun hc => hj.elim (fun hfd => hfd hc.1) (fun hle => by omega)
    show p₂.mem f j = _
    rw [decref_mem hdec, write_mem, if_neg hne,
      freeEntries_mem hi (List.range pageWords) (fun j hj => List.mem_range.1 hj) h hd hloop f hfD]
  · cases hf
    exact fun _ _ _ _ => rfl

theorem freeTables_mem : ∀ (is : List Nat) {p p' : Pmap}, (∀ i ∈ is, i < utopEntries) → Sound base p g → d ∈ g.dirs →
    is.foldlM (envFreeTable d asid) p = some p' →
    ∀ f ∈ insert base g.dirs, ∀ j, f ≠ d ∨ utopEntries ≤ j → p'.mem f j = p.mem f j
  | [], p, p', _, _, _, hf => by
    cases hf
    exact fun _ _ _ _ => rfl
  | i :: is, p, p', his, h, hd, hf => by
    rw [List.foldlM_cons] at hf
    obtain ⟨p₁, hstep, hrest⟩ := Option.bind_eq_some_iff.1 hf
    have hi := his i List.mem_cons_self
    intro f hfD j hj
    rw [freeTables_mem is (fun i' hi' => his i' (List.mem_cons_of_mem _ hi'))
      (h.freeTable hd hi hstep).1.sound hd hrest f
      hfD j hj]
    exact h.freeTable_mem hd hi hstep f hfD j hj

/-- **`env_free` changes the directory of its own environment only**, and there nothing from `UTOP` on. -/
theorem freeSpace_mem (h : Sound base p g) (hd : d ∈ g.dirs) (hf : envFreePages d asid p = some p') :
    ∀ f ∈ insert base g.dirs, ∀ j, f ≠ d ∨ utopEntries ≤ j → p'.mem f j = p.mem f j := by
  unfold envFreePages at hf
  obtain ⟨p₁, hloop, hrest⟩ := Option.bind_eq_some_iff.1 hf
  obtain ⟨d', -, hrest⟩ := Option.bind_eq_some_iff.1 hrest
  obtain ⟨p₂, hdec, rfl⟩ := Option.map_eq_some_iff.1 hrest
  intro f hfD j hj
  show p₂.mem f j = _
  rw [decref_mem hdec]
  exact freeTables_mem (List.range (pdx utop)) (fun i hi => List.mem_range.1 hi) h hd hloop f hfD j hj

end Sound

end Mos
