import Mos.Frames
/-!
# Insert — `page_insert` on any page tables

When `page_insert` is out of memory, and which entry it leaves, for page tables that need not be sound.  The one case
that stands out is a directory that is its own table: an entry at the index of the directory entry then lies over it.
-/
namespace Mos

/-! ## Lookups -/

theorem lookup_inv {p : Pmap} {d pp : Nat} {va : Word} {e : PtePtr} (h : pageLookup p d va = some (some (pp, e))) :
    valid (p.mem d (pdx va)) = true ∧ e = (ppn (p.mem d (pdx va)), ptx va) ∧ valid (p.read e) = true ∧
    pp = ppn (p.read e) := by
  unfold pageLookup at h
  obtain ⟨⟨c, e', q⟩, hw, hl⟩ := Option.bind_eq_some_iff.1 h
  unfold pgdirWalk at hw
  split at hw
  · rename_i hv
    obtain ⟨t, ht, hwe⟩ := Option.map_eq_some_iff.1 hw
    cases hwe
    have htp : t = ppn (p.mem d (pdx va)) := by
      unfold kaddr at ht
      split at ht
      · rw [ppn_pteAddr] at ht
        exact (Option.some.inj ht).symm
      · cases ht
    dsimp only at hl
    split at hl
    · rename_i hve
      obtain ⟨pp', hpp, hpe⟩ := Option.map_eq_some_iff.1 hl
      cases hpe
      refine ⟨hv, by rw [htp], hve, ?_⟩
      unfold pa2page at hpp
      split at hpp
      · exact (Option.some.inj hpp).symm
      · cases hpp
    · cases hl
  · simp only [Bool.false_eq_true, if_false, Option.some.injEq, Prod.mk.injEq] at hw
    obtain ⟨-, rfl, -⟩ := hw
    cases hl

/-- The page of `va` is not mapped: there is no table, or no entry in it. -/
theorem lookup_inv_none {p : Pmap} {d : Nat} {va : Word} (h : pageLookup p d va = some none) :
    valid (p.mem d (pdx va)) = true → valid (p.mem (ppn (p.mem d (pdx va))) (ptx va)) = false := by
  intro hv
  unfold pageLookup pgdirWalk at h
  rw [if_pos hv] at h
  obtain ⟨⟨c, e', q⟩, hw, hl⟩ := Option.bind_eq_some_iff.1 h
  obtain ⟨t, ht, hwe⟩ := Option.map_eq_some_iff.1 hw
  cases hwe
  unfold kaddr at ht
  split at ht
  · rw [ppn_pteAddr] at ht
    cases ht
    dsimp only at hl
    split at hl
    · obtain ⟨pp', -, hpe⟩ := Option.map_eq_some_iff.1 hl
      cases hpe
    · rename_i hve
      exact Bool.eq_false_iff.2 hve
  · cases ht

/-! ## Out of memory -/

/-- **Mapping `pp` at `va` needs a table, and no frame is free.**  The second case is a directory that is its own table
and loses the entry when the old page is unmapped. -/
inductive NoTable (p : Pmap) (pgdir : Nat) (va : Word) (pp : Nat) : Prop where
  | missing : p.table (pgdir, pdx va) = none → p.pageFreeList = [] → NoTable p pgdir va pp
  | self : p.table (pgdir, pdx va) = some pgdir → ptx va = pdx va → pgdir < p.npage → pp ≠ pgdir → p.ppRef pgdir ≠ 0 →
      p.ppRef pgdir ≠ 1 → p.pageFreeList = [] → NoTable p pgdir va pp

section Insert

variable {p : Pmap} {pgdir pp : Nat} {asid va perm : Word}

theorem table_eq_none : p.table (pgdir, pdx va) = none ↔ valid (p.mem pgdir (pdx va)) = false := by
  unfold Pmap.table
  cases valid (p.mem pgdir (pdx va)) <;> simp

theorem table_eq_some {t : Nat} : p.table (pgdir, pdx va) = some t ↔
    valid (p.mem pgdir (pdx va)) = true ∧ ppn (p.mem pgdir (pdx va)) = t := by
  unfold Pmap.table
  cases valid (p.mem pgdir (pdx va)) <;> simp

/-- `pgdir_walk` without creating: no entry, a panic, or the entry in the table. -/
theorem walk_eq (create : Bool) {t : Nat} (ht : p.table (pgdir, pdx va) = some t) :
    pgdirWalk p pgdir va create = if t < p.npage then some (0, some (t, ptx va), p) else none := by
  obtain ⟨hv, rfl⟩ := table_eq_some.1 ht
  unfold pgdirWalk kaddr
  rw [if_pos hv, ppn_pteAddr]
  split <;> rfl

theorem walk_eq_none (ht : p.table (pgdir, pdx va) = none) : pgdirWalk p pgdir va false = some (0, none, p) := by
  unfold pgdirWalk
  rw [if_neg (by rw [table_eq_none.1 ht]; simp)]
  rfl

theorem insertFresh_noMem (ht : p.table (pgdir, pdx va) = none) (hf : p.pageFreeList = []) :
    pageInsertFresh p pgdir asid pp va perm = some (-eNoMem, tlbInvalidate p asid va) := by
  have hv : ¬valid ((tlbInvalidate p asid va).mem pgdir (pdx va)) = true := by
    show ¬valid (p.mem pgdir (pdx va)) = true
    rw [table_eq_none.1 ht]
    simp
  have hf' : (tlbInvalidate p asid va).pageFreeList = [] := hf
  simp only [pageInsertFresh, pgdirWalk, if_neg hv, if_true, pageAlloc, hf', Option.map_some]

theorem insert_noRoom (ht : p.table (pgdir, pdx va) = none) (hf : p.pageFreeList = []) :
    pageInsert p pgdir asid pp va perm = some (-eNoMem, tlbInvalidate p asid va) := by
  unfold pageInsert
  rw [walk_eq_none ht]
  exact insertFresh_noMem ht hf

theorem insertFresh_ret {r : Int} {p' : Pmap} (h : pageInsertFresh p pgdir asid pp va perm = some (r, p'))
    (hr : r < 0) :
    p.table (pgdir, pdx va) = none ∧ p.pageFreeList = [] := by
  unfold pageInsertFresh at h
  obtain ⟨⟨c, e, p₁⟩, hw, he⟩ := Option.map_eq_some_iff.1 h
  cases e with
  | some e =>
    cases he
    exact absurd hr (by decide)
  | none =>
    unfold pgdirWalk at hw
    split at hw
    · obtain ⟨t, -, hc⟩ := Option.map_eq_some_iff.1 hw
      cases hc
    · rename_i hv
      have ht : p.table (pgdir, pdx va) = none := table_eq_none.2 (Bool.eq_false_iff.2 hv)
      rw [if_pos rfl] at hw
      cases hf : p.pageFreeList with
      | nil => exact ⟨ht, rfl⟩
      | cons t rest =>
        have hf' : (tlbInvalidate p asid va).pageFreeList = t :: rest := hf
        simp only [pageAlloc, hf'] at hw
        obtain ⟨t', -, hc⟩ := Option.map_eq_some_iff.1 hw
        cases hc

/-- What `page_remove` of a mapped page does to the directory entry of `va` and to the free list. -/
theorem pageRemove_mapped {t : Nat} {p₁ : Pmap} (ht : p.table (pgdir, pdx va) = some t) (hlt : t < p.npage)
    (hv : valid (p.mem t (ptx va)) = true) (h : pageRemove p pgdir asid va = some p₁) :
    p₁.npage = p.npage ∧ p.ppRef (ppn (p.mem t (ptx va))) ≠ 0 ∧
    (∀ f i, p₁.mem f i = if f = t ∧ i = ptx va then 0 else p.mem f i) ∧
    p₁.pageFreeList = if p.ppRef (ppn (p.mem t (ptx va))) = 1 then ppn (p.mem t (ptx va)) :: p.pageFreeList
      else p.pageFreeList := by
  have hv' : valid (p.read (t, ptx va)) = true := hv
  unfold pageRemove pageLookup at h
  simp only [walk_eq false ht, if_pos hlt, Option.bind_some, if_pos hv', pa2page] at h
  split at h
  · simp only [Option.map_some, Option.bind_some] at h
    obtain ⟨p₂, hd, rfl⟩ := Option.map_eq_some_iff.1 h
    have hr : p.ppRef (ppn (p.mem t (ptx va))) ≠ 0 := by
      intro hr
      have hr' : p.ppRef (ppn (p.read (t, ptx va))) = 0 := hr
      simp only [pageDecref, hr', if_true] at hd
      cases hd
    have hd' := Acct.decref_eq hr
    have hp₂ := Option.some.inj (hd.symm.trans hd')
    refine ⟨by rw [hp₂]; rfl, hr, ?_, by rw [hp₂]; rfl⟩
    intro f i
    rw [hp₂]
    exact write_mem _ (t, ptx va) 0 f i
  · cases h

/-- **`page_insert` fails only for want of a table.** -/
theorem pageInsert_neg {r : Int} {p' : Pmap} (h : pageInsert p pgdir asid pp va perm = some (r, p')) (hr : r < 0) :
    NoTable p pgdir va pp := by
  unfold pageInsert at h
  cases ht : p.table (pgdir, pdx va) with
  | none =>
    rw [walk_eq_none ht] at h
    exact .missing ht (insertFresh_ret h hr).2
  | some t =>
    rw [walk_eq false ht] at h
    split at h
    · rename_i hlt
      simp only [Option.bind_some] at h
      split at h
      · rename_i hv
        obtain ⟨pp', hpa, h⟩ := Option.bind_eq_some_iff.1 h
        split at h
        · cases h
          exact absurd hr (by decide)
        · rename_i hne
          obtain ⟨p₁, hrm, h⟩ := Option.bind_eq_some_iff.1 h
          obtain ⟨hn, hr₁, hmem, hfl⟩ := pageRemove_mapped ht hlt hv hrm
          obtain ⟨ht₁, hf₁⟩ := insertFresh_ret h hr
          obtain ⟨hvd, hpd⟩ := table_eq_some.1 ht
          -- the directory entry is gone, so it was the entry that `page_remove` cleared
          have hself : pgdir = t ∧ pdx va = ptx va := by
            by_contra hc
            have hsame := hmem pgdir (pdx va)
            rw [if_neg hc] at hsame
            have hnv := table_eq_none.1 ht₁
            rw [hsame, hvd] at hnv
            cases hnv
          obtain ⟨rfl, hix⟩ := hself
          have hppn : ppn (p.mem pgdir (ptx va)) = pgdir := by rw [← hix]; exact hpd
          rw [hppn] at hr₁ hfl
          have hpp' : pp' = pgdir := by
            simp only [pa2page, Pmap.read, hppn, if_pos hlt] at hpa
            exact (Option.some.inj hpa).symm
          rw [hf₁] at hfl
          split at hfl
          · cases hfl
          · rename_i h1
            exact .self ht hix.symm hlt (fun hc => hne (hpp'.trans hc.symm)) hr₁ h1 hfl.symm
      · rw [(insertFresh_ret h hr).1] at ht
        cases ht
    · cases h

/-- **For want of a table `page_insert` fails.** -/
theorem pageInsert_noTable (h : NoTable p pgdir va pp) :
    ∃ p', pageInsert p pgdir asid pp va perm = some (-eNoMem, p') := by
  cases h with
  | missing ht hf => exact ⟨_, insert_noRoom ht hf⟩
  | self ht hix hlt hne hr₀ hr₁ hf =>
    obtain ⟨hvd, hpd⟩ := table_eq_some.1 ht
    have hread : p.read (pgdir, ptx va) = p.mem pgdir (pdx va) := by rw [hix]; rfl
    have hpa : pa2page p (p.read (pgdir, ptx va)) = some pgdir := by
      rw [hread, pa2page, hpd, if_pos hlt]
    have hlook : pageLookup p pgdir va = some (some (pgdir, (pgdir, ptx va))) := by
      unfold pageLookup
      simp only [walk_eq false ht, if_pos hlt, Option.bind_some, hread, hvd, if_true]
      rw [← hread, hpa]
      rfl
    have hrm : pageRemove p pgdir asid va = some (tlbInvalidate (Pmap.write { p with
        ppRef := Function.update p.ppRef pgdir (p.ppRef pgdir - 1)
        pageFreeList := p.pageFreeList } (pgdir, ptx va) 0) asid va) := by
      simp only [pageRemove, hlook, Option.bind_some, Acct.decref_eq hr₀, if_neg hr₁, Option.map_some]
    have hv : valid (p.read (pgdir, ptx va)) = true := by rw [hread]; exact hvd
    have heq : pageInsert p pgdir asid pp va perm = pageInsertFresh (tlbInvalidate (Pmap.write { p with
        ppRef := Function.update p.ppRef pgdir (p.ppRef pgdir - 1)
        pageFreeList := p.pageFreeList } (pgdir, ptx va) 0) asid va) pgdir asid pp va perm := by
      simp only [pageInsert, walk_eq false ht, if_pos hlt, Option.bind_some, if_pos hv, hpa, if_neg (Ne.symm hne), hrm]
    refine ⟨_, heq.trans (insertFresh_noMem (table_eq_none.2 ?_) hf)⟩
    show valid ((Pmap.write _ (pgdir, ptx va) 0).mem pgdir (pdx va)) = false
    rw [write_mem, if_pos ⟨rfl, hix.symm⟩]
    exact valid_zero

/-! ## The installed entry -/

theorem insertFresh_code {p' : Pmap} {i : Int} (h : pageInsertFresh p pgdir asid pp va perm = some (i, p')) :
    i = 0 ∨ i = -eNoMem := by
  obtain ⟨⟨c, e, p₁⟩, -, he⟩ := Option.map_eq_some_iff.1 h
  cases e with
  | none => cases he; exact .inr rfl
  | some e => cases he; exact .inl rfl

theorem pageInsert_code {p' : Pmap} {i : Int} (h : pageInsert p pgdir asid pp va perm = some (i, p')) :
    i = 0 ∨ i = -eNoMem := by
  obtain ⟨⟨c, e, p₁⟩, -, h⟩ := Option.bind_eq_some_iff.1 h
  cases e with
  | none => exact insertFresh_code h
  | some e =>
    dsimp only at h
    split at h
    · obtain ⟨pp', -, h⟩ := Option.bind_eq_some_iff.1 h
      split at h
      · cases h
        exact .inl rfl
      · obtain ⟨p₂, -, h⟩ := Option.bind_eq_some_iff.1 h
        exact insertFresh_code h
    · exact insertFresh_code h

/-- **The entry of `va` would lie over the directory entry that leads to it.** -/
inductive SelfEntry (p : Pmap) (pgdir : Nat) (va : Word) : Prop where
  | table : ptx va = pdx va → p.table (pgdir, pdx va) = some pgdir → SelfEntry p pgdir va
  | fresh (t : Nat) : ptx va = pdx va → p.table (pgdir, pdx va) = none → p.pageFreeList.head? = some t →
      ppn (page2pa t) = pgdir → SelfEntry p pgdir va

/-- The table of `va` has the entry `w` for it. -/
def HasEntry (p : Pmap) (pgdir : Nat) (va w : Word) : Prop :=
  ∃ t, p.table (pgdir, pdx va) = some t ∧ t < p.npage ∧ p.mem t (ptx va) = w

theorem hasEntry_write {q : Pmap} {t : Nat} {w : Word} (ht : q.table (pgdir, pdx va) = some t) (hlt : t < q.npage)
    (hne : ptx va = pdx va → t ≠ pgdir) : HasEntry (q.write (t, ptx va) w) pgdir va w := by
  refine ⟨t, ?_, hlt, ?_⟩
  · rw [table_write, if_neg]
    · exact ht
    · intro hc
      obtain ⟨hd, hi⟩ := Prod.mk.inj hc
      exact hne hi.symm hd.symm
  · rw [write_mem, if_pos ⟨rfl, rfl⟩]

theorem walk_create_entry {c : Int} {e : PtePtr} {q : Pmap} (h : pgdirWalk p pgdir va true = some (c, some e, q))
    (hs : ¬SelfEntry p pgdir va) : q.npage = p.npage ∧ ∃ t, e = (t, ptx va) ∧ q.table (pgdir, pdx va) = some t ∧
      t < q.npage ∧ (ptx va = pdx va → t ≠ pgdir) := by
  cases ht : p.table (pgdir, pdx va) with
  | some t =>
    rw [walk_eq true ht] at h
    split at h
    · rename_i hlt
      cases h
      exact ⟨rfl, t, rfl, ht, hlt, fun hi hd => hs (.table hi (hd ▸ ht))⟩
    · cases h
  | none =>
    unfold pgdirWalk at h
    rw [if_neg (by rw [table_eq_none.1 ht]; simp), if_pos rfl] at h
    cases hf : p.pageFreeList with
    | nil =>
      simp only [pageAlloc, hf] at h
      cases h
    | cons t rest =>
      simp only [pageAlloc, hf] at h
      obtain ⟨t', hk, hc⟩ := Option.map_eq_some_iff.1 h
      obtain ⟨-, rfl, rfl⟩ : 0 = c ∧ (t', ptx va) = e ∧ _ = q := by simpa using hc
      have hppn : ppn (page2pa t ||| pteCCacheable ||| pteV) = ppn (page2pa t) := by
        have hc : ppn pteCCacheable = 0 := by decide
        have hv : ppn pteV = 0 := by decide
        simp only [ppn_or, hc, hv, Nat.or_zero]
      rw [write_mem, if_pos ⟨rfl, rfl⟩, kaddr, ppn_pteAddr, hppn] at hk
      split at hk
      · rename_i hlt
        cases hk
        refine ⟨rfl, _, rfl, ?_, hlt, fun hi hd => hs (.fresh t hi ht (by rw [hf]; rfl) hd)⟩
        rw [table_write, if_pos rfl, if_pos (valid_or_pteV _), hppn]
      · cases hk

theorem insertFresh_entry {p' : Pmap} (h : pageInsertFresh p pgdir asid pp va perm = some (0, p'))
    (hs : ¬SelfEntry p pgdir va) : p'.npage = p.npage ∧ HasEntry p' pgdir va (entryOf pp perm) := by
  obtain ⟨⟨c, e, p₁⟩, hw, he⟩ := Option.map_eq_some_iff.1 h
  cases e with
  | none =>
    simp only [Prod.mk.injEq] at he
    exact absurd he.1 (by decide)
  | some e =>
    have hs₀ : ¬SelfEntry (tlbInvalidate p asid va) pgdir va := by
      intro hc
      cases hc with
      | table hi hd => exact hs (.table hi hd)
      | fresh t hi hd hf ht => exact hs (.fresh t hi hd hf ht)
    obtain ⟨hn, t, rfl, ht, hlt, hne⟩ := walk_create_entry hw hs₀
    cases he
    exact ⟨hn, hasEntry_write (q := p₁.setRef pp (p₁.ppRef pp + 1)) ht hlt hne⟩

/-- **The entry that `page_insert` installs.** -/
theorem pageInsert_entry {p' : Pmap} (h : pageInsert p pgdir asid pp va perm = some (0, p'))
    (hs : ¬SelfEntry p pgdir va) :
    p'.npage = p.npage ∧ HasEntry p' pgdir va (entryOf pp perm) := by
  unfold pageInsert at h
  cases ht : p.table (pgdir, pdx va) with
  | none =>
    rw [walk_eq_none ht] at h
    exact insertFresh_entry h hs
  | some t =>
    have hne : ptx va = pdx va → t ≠ pgdir := fun hi hd => hs (.table hi (hd ▸ ht))
    rw [walk_eq false ht] at h
    split at h
    · rename_i hlt
      simp only [Option.bind_some] at h
      split at h
      · rename_i hv
        obtain ⟨pp', -, h⟩ := Option.bind_eq_some_iff.1 h
        split at h
        · simp only [Option.some.injEq, Prod.mk.injEq, true_and] at h
          rw [← h]
          exact ⟨rfl, hasEntry_write (q := tlbInvalidate p asid va) ht hlt hne⟩
        · obtain ⟨p₁, hr, h⟩ := Option.bind_eq_some_iff.1 h
          obtain ⟨hn, -, hmem, -⟩ := pageRemove_mapped ht hlt hv hr
          have hdir : p₁.mem pgdir (pdx va) = p.mem pgdir (pdx va) := by
            rw [hmem, if_neg (fun hc => hne hc.2.symm hc.1.symm)]
          have ht₁ : p₁.table (pgdir, pdx va) = some t := by
            rw [← ht, Pmap.table, Pmap.table, hdir]
          have hs₁ : ¬SelfEntry p₁ pgdir va := by
            intro hc
            cases hc with
            | table hi hd =>
              rw [ht₁] at hd
              exact hne hi (Option.some.inj hd)
            | fresh _ _ hd =>
              rw [ht₁] at hd
              cases hd
          obtain ⟨hn', he⟩ := insertFresh_entry h hs₁
          exact ⟨hn'.trans hn, he⟩
      · exact insertFresh_entry h hs
    · cases h

/-- The page at `va` is `pp`. -/
def Installed (p : Pmap) (pgdir : Nat) (va : Word) (pp : Nat) : Prop :=
  ∃ pte, pageLookup p pgdir va = some (some (pp, pte))

theorem Installed.lt (h : Installed p pgdir va pp) : pp < p.npage ∧ pp < 2 ^ 20 := by
  obtain ⟨pte, hl⟩ := h
  obtain ⟨-, -, -, hpp⟩ := lookup_inv hl
  refine ⟨?_, hpp ▸ ppn_lt _⟩
  obtain ⟨⟨c, e, q⟩, hw, he⟩ := Option.bind_eq_some_iff.1 hl
  cases e with
  | none => cases he
  | some e =>
    dsimp only at he
    split at he
    · obtain ⟨f, hpa, hf⟩ := Option.map_eq_some_iff.1 he
      cases hf
      unfold pa2page at hpa
      split at hpa
      · rename_i hlt
        cases hpa
        exact hlt
      · cases hpa
    · cases he

/-- **`page_lookup` returns the page that was inserted exactly when `perm` adds no bit to its frame number.** -/
theorem insert_lookup {p' : Pmap} (h : pageInsert p pgdir asid pp va perm = some (0, p')) (hs : ¬SelfEntry p pgdir va)
    (hlt : pp < p.npage) (hpp : pp < 2 ^ 20) :
    Installed p' pgdir va pp ↔ pp ||| ppn perm = pp := by
  obtain ⟨hn, t, ht, htlt, hm⟩ := pageInsert_entry h hs
  have hlt' : pp < p'.npage := by
    rw [hn]
    exact hlt
  have hread : p'.read (t, ptx va) = entryOf pp perm := hm
  have hlook : pageLookup p' pgdir va = if pp ||| ppn perm < p'.npage then some (some (pp ||| ppn perm, (t, ptx va)))
      else none := by
    unfold pageLookup
    rw [walk_eq false ht, if_pos htlt]
    simp only [Option.bind_some, hread, valid_entryOf, if_true, pa2page, ppn_entryOf hpp]
    split <;> rfl
  unfold Installed
  rw [hlook]
  constructor
  · rintro ⟨pte, hpte⟩
    split at hpte
    · simp only [Option.some.injEq, Prod.mk.injEq] at hpte
      exact hpte.1
    · cases hpte
  · intro hperm
    exact ⟨(t, ptx va), by rw [hperm, if_pos hlt']⟩

end Insert

end Mos
