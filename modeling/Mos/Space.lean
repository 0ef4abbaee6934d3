import Mos.Env
import Mos.Insert
import Mos.Tlbex
/-!
# Space — address spaces the kernel keeps apart

`Sound` is what the kernel relies on when it lets an environment work on its pages: the accounts of the frames are
right, every directory has a window on itself, nothing of the directories, the tables and the frames the kernel holds
can be written through an address space, and no page maps a frame that the kernel holds.  Every operation on pages
keeps it, and `Maps` says which pages the operation may have mapped.
-/
namespace Mos

/-! ## Entries without `PTE_D` -/

/-- No store goes through the entry. -/
def ReadOnly (w : Word) : Prop := valid w = true → w &&& pteD = 0

theorem and_pteD (w : Word) : w &&& pteD = 0 ↔ w.getLsbD 8 = false := by
  have hd : pteD = BitVec.twoPow 32 8 := by decide
  rw [hd, BitVec.and_twoPow]
  cases w.getLsbD 8 with
  | false => simp
  | true => simp; decide

theorem readOnly_zero : ReadOnly 0 := fun h => absurd h (by rw [valid_zero]; simp)

theorem page2pa_pteD (pp : Nat) : (page2pa pp).getLsbD 8 = false := by
  unfold page2pa pgshift
  simp

theorem readOnly_entryOf {perm : Word} (pp : Nat) (h : perm &&& pteD = 0) : ReadOnly (entryOf pp perm) := by
  intro _
  have hc : pteCCacheable.getLsbD 8 = false := by decide
  have hv : pteV.getLsbD 8 = false := by decide
  rw [and_pteD] at h ⊢
  unfold entryOf
  simp only [BitVec.getLsbD_or, page2pa_pteD, h, hc, hv, Bool.or_self]

theorem readOnly_tableEntry (t : Nat) : ReadOnly (Acct.tableEntry t) := by
  intro _
  have hc : pteCCacheable.getLsbD 8 = false := by decide
  have hv : pteV.getLsbD 8 = false := by decide
  rw [and_pteD]
  unfold Acct.tableEntry
  simp only [BitVec.getLsbD_or, page2pa_pteD, hc, hv, Bool.or_self]

/-- The entry of a directory for itself. -/
def selfEntry (d : Nat) : Word := page2pa d ||| pteV

theorem readOnly_selfEntry (d : Nat) : ReadOnly (selfEntry d) := by
  intro _
  have hv : pteV.getLsbD 8 = false := by decide
  rw [and_pteD]
  unfold selfEntry
  simp only [BitVec.getLsbD_or, page2pa_pteD, hv, Bool.or_self]

theorem ppn_selfEntry {d : Nat} (h : d < 2 ^ 20) : ppn (selfEntry d) = d := by
  have hv : ppn pteV = 0 := by decide
  simp only [selfEntry, ppn_or, ppn_page2pa h, hv, Nat.or_zero]

/-! ## The invariant -/

/-- **The address spaces are sound**; `base` is the template the directories are made from. -/
structure Sound (base : Nat) (p : Pmap) (g : Ledger) : Prop where
  acct : Acct utopEntries p g
  one : ∀ d ∈ g.dirs, g.held d = 1
  table : ∀ s ∈ tableSlots utopEntries g.dirs, ∀ t, p.table s = some t → g.held t = 0
  frame : ∀ s ∈ pageSlots utopEntries g.dirs, ∀ f, p.frame s = some f → g.held f = 0
  template : g.held base ≠ 0 ∧ base ∉ g.dirs
  own : ∀ d ∈ g.dirs, p.mem d (pdx uvpt) = selfEntry d
  entries : ∀ d, d = base ∨ d ∈ g.dirs → ∀ i < pageWords, ReadOnly (p.mem d i)
  upper : ∀ d, d = base ∨ d ∈ g.dirs → ∀ i, utopEntries ≤ i → i < pdx uvpt → valid (p.mem d i) = true →
    g.held (ppn (p.mem d i)) ≠ 0 ∧ ppn (p.mem d i) ∉ g.dirs ∧ ∀ j < pageWords, ReadOnly (p.mem (ppn (p.mem d i)) j)

/-- **What an operation on pages does**: the spaces stay sound, and every mapping that was not there is `new`. -/
structure Maps (base : Nat) (new : Nat → Nat → Prop) (p p' : Pmap) (g g' : Ledger) : Prop where
  sound : Sound base p' g'
  dirs : g'.dirs = g.dirs
  pages : ∀ s ∈ pageSlots utopEntries g.dirs, ∀ f, p'.frame s = some f → p.frame s = some f ∨ new s.1 f

/-- No mapping is new. -/
def nothing : Nat → Nat → Prop := fun _ _ => False

namespace Maps

variable {base : Nat} {new new' : Nat → Nat → Prop} {p p₁ p' : Pmap} {g g₁ g' : Ledger}

theorem refl (h : Sound base p g) : Maps base new p p g g := ⟨h, rfl, fun _ _ _ hf => .inl hf⟩

theorem mono (h : Maps base new p p' g g') (hn : ∀ d f, new d f → new' d f) : Maps base new' p p' g g' :=
  ⟨h.sound, h.dirs, fun s hs f hf => (h.pages s hs f hf).imp_right (hn s.1 f)⟩

theorem trans (h : Maps base new p p₁ g g₁) (h' : Maps base new' p₁ p' g₁ g') :
    Maps base (fun d f => new d f ∨ new' d f) p p' g g' := by
  refine ⟨h'.sound, h'.dirs.trans h.dirs, fun s hs f hf => ?_⟩
  rcases h'.pages s (h.dirs ▸ hs) f hf with hf | hn
  · exact (h.pages s hs f hf).imp_right .inl
  · exact .inr (.inr hn)

end Maps

namespace Sound

variable {base : Nat} {p p' : Pmap} {g g' : Ledger}

theorem dir_lt (h : Sound base p g) {d : Nat} (hd : d ∈ g.dirs) : d < 2 ^ 20 :=
  Nat.lt_of_lt_of_le (h.acct.tree.dir_lt d hd) h.acct.npage_le

/-- **What keeps the spaces sound**: tables and pages use frames nobody holds, what the kernel holds is not written,
and the entries of a directory change below `UTOP` only. -/
theorem keep (h : Sound base p g) (ha : Acct utopEntries p' g') (hd : g'.dirs = g.dirs) (hh : g'.held = g.held)
    (htable : ∀ s ∈ tableSlots utopEntries g.dirs, ∀ t, p'.table s = some t → p.table s = some t ∨ g.held t = 0)
    (hframe : ∀ s ∈ pageSlots utopEntries g.dirs, ∀ f, p'.frame s = some f → p.frame s = some f ∨ g.held f = 0)
    (hmem : ∀ f, g.held f ≠ 0 → f ∉ g.dirs → p'.mem f = p.mem f)
    (hdir : ∀ d ∈ g.dirs, ∀ i, p'.mem d i = p.mem d i ∨ i < utopEntries ∧ ReadOnly (p'.mem d i)) :
    Sound base p' g' := by
  have hown : ∀ d ∈ g.dirs, ∀ i, utopEntries ≤ i → p'.mem d i = p.mem d i := by
    intro d hdm i hi
    rcases hdir d hdm i with he | ⟨hlt, -⟩
    · exact he
    · omega
  have hupper : ∀ d, d = base ∨ d ∈ g.dirs → ∀ i, utopEntries ≤ i → p'.mem d i = p.mem d i := by
    rintro d (rfl | hdm) i hi
    · exact congrFun (hmem _ h.template.1 h.template.2) i
    · exact hown d hdm i hi
  refine ⟨ha, ?_, ?_, ?_, ?_, ?_, ?_, ?_⟩
  · rw [hd, hh]
    exact h.one
  · rw [hd, hh]
    intro s hs t ht
    exact (htable s hs t ht).elim (h.table s hs t) id
  · rw [hd, hh]
    intro s hs f hf
    exact (hframe s hs f hf).elim (h.frame s hs f) id
  · rw [hd, hh]
    exact h.template
  · rw [hd]
    intro d hdm
    rw [hown d hdm _ (by decide)]
    exact h.own d hdm
  · rw [hd]
    rintro d (rfl | hdm) i hi
    · rw [hmem _ h.template.1 h.template.2]
      exact h.entries _ (.inl rfl) i hi
    · rcases hdir d hdm i with he | ⟨-, hr⟩
      · rw [he]
        exact h.entries d (.inr hdm) i hi
      · exact hr
  · rw [hd, hh]
    intro d hdm i hlo hhi hv
    rw [hupper d hdm i hlo] at hv ⊢
    obtain ⟨h₁, h₂, h₃⟩ := h.upper d hdm i hlo hhi hv
    rw [hmem _ h₁ h₂]
    exact ⟨h₁, h₂, h₃⟩

theorem congr (h : Sound base p g) (hn : p'.npage = p.npage) (href : p'.ppRef = p.ppRef)
    (hfl : p'.pageFreeList = p.pageFreeList)
    (hmem : ∀ f, ¬Outside utopEntries p g.dirs f ∨ g.held f ≠ 0 → p'.mem f = p.mem f) : Maps base nothing p p' g g := by
  have hsame : SameMaps utopEntries g.dirs p p' := SameMaps.of_mem (fun f hf => hmem f (.inl hf))
  have hacct := h.acct.congr hn href hfl (fun f hf => hmem f (.inl hf))
  refine ⟨h.keep hacct rfl rfl ?_ ?_ (fun f hf _ => hmem f (.inr hf)) ?_, rfl, ?_⟩
  · intro s hs t ht
    exact .inl (hsame.table s hs ▸ ht)
  · intro s hs f hf
    exact .inl (hsame.frame s hs ▸ hf)
  · intro d hd i
    exact .inl (congrFun (hmem d (.inl (fun ho => ho.dir hd))) i)
  · intro s hs f hf
    exact .inl (hsame.frame s hs ▸ hf)

theorem tlb (h : Sound base p g) (tlb : List TlbEntry) : Maps base nothing p { p with tlb := tlb } g g :=
  h.congr rfl rfl rfl (fun _ _ => rfl)

/-! ## Operations on pages -/

theorem alloc (h : Sound base p g) {pp : Nat} {p' : Pmap} (ha : pageAlloc p = some (pp, p')) :
    pp ∈ p.pageFreeList ∧ (∀ f ∈ p'.pageFreeList, f ∈ p.pageFreeList) ∧
    (∀ s ∈ tableSlots utopEntries g.dirs, p'.table s = p.table s) ∧
    Maps base nothing p p' g { g with limbo := insert pp g.limbo } := by
  obtain ⟨rest, hf, -⟩ := pageAlloc_eq ha
  obtain ⟨p₁, ha₁, hn, hr, hfl, hm, hacct, hsame⟩ := h.acct.alloc hf
  obtain rfl : p₁ = p' := by simpa using ha₁.symm.trans ha
  have hmem : pp ∈ p.pageFreeList := by simp [hf]
  obtain ⟨hlt, hr0, -⟩ := h.acct.of_free hmem
  obtain ⟨hout, -, hheld⟩ := h.acct.unref hlt hr0
  have hne : ∀ f, g.held f ≠ 0 → p₁.mem f = p.mem f := by
    intro f hfh
    have hft : f ≠ pp := fun hc => hfh (hc ▸ hheld)
    rw [hm, Function.update_of_ne hft]
  refine ⟨hmem, ?_, hsame.table, h.keep hacct rfl rfl ?_ ?_ (fun f hfh _ => hne f hfh) ?_, rfl, ?_⟩
  · intro f hfm
    rw [hfl] at hfm
    rw [hf]
    exact List.mem_cons_of_mem _ hfm
  · exact fun s hs t' ht' => .inl (hsame.table s hs ▸ ht')
  · exact fun s hs f hf' => .inl (hsame.frame s hs ▸ hf')
  · intro d hd i
    exact .inl (congrFun (hne d (h.acct.dir_held d hd)) i)
  · exact fun s hs f hf' => .inl (hsame.frame s hs ▸ hf')

theorem remove (h : Sound base p g) {d : Nat} {va asid : Word} (hd : d ∈ g.dirs) (hva : va < utop)
    (hr : pageRemove p d asid va = some p') : Maps base nothing p p' g g ∧
      (∀ s ∈ tableSlots utopEntries g.dirs, p'.table s = p.table s) ∧
      SetsPte utopEntries g.dirs p p' (slotOf d va) none := by
  obtain ⟨p₁, hr₁, hacct, hn, htab, hset, -, -, hmem, hmd⟩ := h.acct.removePage hd (pdx_lt_utop.2 hva) asid
  obtain rfl : p₁ = p' := by simpa using hr₁.symm.trans hr
  have hframe : ∀ s ∈ pageSlots utopEntries g.dirs, ∀ f, p₁.frame s = some f → p.frame s = some f := by
    intro s hs f hf
    unfold Pmap.frame at hf
    rw [hset s hs] at hf
    split at hf
    · cases hf
    · exact hf
  refine ⟨⟨h.keep hacct rfl rfl ?_ ?_ ?_ ?_, rfl, fun s hs f hf => .inl (hframe s hs f hf)⟩, htab, hset⟩
  · exact fun s hs t ht => .inl (htab s hs ▸ ht)
  · exact fun s hs f hf => .inl (hframe s hs f hf)
  · intro f hfh hfd
    exact hmem f ⟨hfd, fun s hs hc => hfh (h.table s hs f hc)⟩
  · exact fun d' hd' i => .inl (congrFun (hmd d' hd') i)

/-- **`page_insert` below `UTOP` of a page nobody holds.** -/
theorem insertPage (h : Sound base p g) {d pp : Nat} {va asid perm : Word} {r : Int} (hd : d ∈ g.dirs) (hva : va < utop)
    (hu : Acct.Usable utopEntries p g pp) (hheld : g.held pp = 0)
    (hlt : p.frame (slotOf d va) = some pp ∨ p.ppRef pp < 65535) (hperm : pp ||| ppn perm = pp)
    (hi : pageInsert p d asid pp va perm = some (r, p')) :
    (r = -eNoMem ∧ p.table (d, pdx va) = none ∧ p.pageFreeList = [] ∧ Maps base nothing p p' g g) ∨
    (r = 0 ∧ Acct.Inserted utopEntries p p' g d va pp perm ∧
      Maps base (fun d' f => d' = d ∧ f = pp) p p' g (g.settle pp)) := by
  have hva' : pdx va < utopEntries := pdx_lt_utop.2 hva
  rcases h.acct.insertPage hd hva' asid hu hlt hperm with ⟨ht, hf, he⟩ | ⟨p₁, he, hins⟩
  · obtain ⟨rfl, rfl⟩ : -eNoMem = r ∧ tlbInvalidate p asid va = p' := by simpa using he.symm.trans hi
    exact .inl ⟨rfl, ht, hf, h.tlb _⟩
  · obtain ⟨rfl, rfl⟩ : 0 = r ∧ p₁ = p' := by simpa using he.symm.trans hi
    have hppn : ppn (entryOf pp perm) = pp := by
      rw [ppn_entryOf (Nat.lt_of_lt_of_le hu.lt h.acct.npage_le), hperm]
    have hframe : ∀ s ∈ pageSlots utopEntries g.dirs, ∀ f, p₁.frame s = some f →
        p.frame s = some f ∨ s.1 = d ∧ f = pp := by
      intro s hs f hf
      unfold Pmap.frame at hf
      rw [hins.pte s hs] at hf
      split at hf
      · rename_i hsd
        simp only [Option.map_some, Option.some.injEq, hppn] at hf
        exact .inr ⟨by rw [hsd]; rfl, hf.symm⟩
      · exact .inl hf
    refine .inr ⟨rfl, hins, h.keep hins.acct rfl rfl ?_ ?_ ?_ ?_, rfl, hframe⟩
    · intro s hs t ht
      rcases hins.table s hs t ht with ht | ⟨-, hfree⟩
      · exact .inl ht
      · obtain ⟨hlt', hr0, -⟩ := h.acct.of_free hfree
        exact .inr (h.acct.unref hlt' hr0).2.2
    · intro s hs f hf
      rcases hframe s hs f hf with hf | ⟨-, rfl⟩
      · exact .inl hf
      · exact .inr hheld
    · intro f hfh hfd
      refine hins.mem f ⟨hfd, fun s hs hc => hfh (h.table s hs f hc)⟩ (fun _ hfree => hfh ?_)
      obtain ⟨hlt', hr0, -⟩ := h.acct.of_free hfree
      exact (h.acct.unref hlt' hr0).2.2
    · intro d' hd' i
      rcases hins.dir d' hd' i with he | ⟨hi', t, he⟩
      · exact .inl he
      · exact .inr ⟨hi', he ▸ readOnly_tableEntry t⟩

/-! ## The window of a directory on itself -/

theorem table_none {d i : Nat} (hv : valid (p.mem d i) = false) : p.table (d, i) = none := by
  unfold Pmap.table
  rw [hv]
  rfl

theorem walk_window (h : Sound base p g) {d : Nat} {va : Word} (hd : d ∈ g.dirs) (hva : pdx va = pdx uvpt)
    (create : Bool) : pgdirWalk p d va create = some (0, some (d, ptx va), p) := by
  have hm : p.mem d (pdx va) = selfEntry d := by rw [hva, h.own d hd]
  have hv : valid (selfEntry d) = true := valid_or_pteV _
  simp only [pgdirWalk, hm, hv, if_true, kaddr, ppn_pteAddr, ppn_selfEntry (h.dir_lt hd),
    if_pos (h.acct.tree.dir_lt d hd), Option.map_some]

end Sound

theorem Tree.write_above {lim : Nat} {p : Pmap} {dirs : Finset Nat} (h : Tree lim p dirs) {d i : Nat} (w : Word)
    (hd : d ∈ dirs) (hi : lim ≤ i) : SameMaps lim dirs p (p.write (d, i) w) := by
  have htable : ∀ s ∈ tableSlots lim dirs, (p.write (d, i) w).table s = p.table s := by
    intro s hs
    rw [table_write, if_neg]
    rintro rfl
    exact absurd (mem_tableSlots.1 hs).2 (Nat.not_lt.2 hi)
  refine ⟨htable, fun s hs => ?_⟩
  have hs' := Tree.slot_table hs
  cases ht : p.table (s.1, s.2.1) with
  | none => simp only [Pmap.pte, htable _ hs', ht, Option.bind_none]
  | some t =>
    have htd : t ≠ d := fun hc => h.table_dir _ hs' t ht (hc ▸ hd)
    have hpte := pte_of_table ((htable _ hs').trans ht) s.2.2
    rw [write_mem_ne p (e := (d, i)) htd] at hpte
    exact hpte.trans (pte_of_table ht s.2.2).symm

namespace Sound

variable {base : Nat} {p p' : Pmap} {g g' : Ledger}

/-- **A page appears in the window**: below `UTOP` it is an empty table, above it stays the kernel's. -/
theorem insertWindow (h : Sound base p g) {d pp i : Nat} {p₁ : Pmap} (hd : d ∈ g.dirs)
    (hself : i ≠ pdx uvpt) (hv : valid (p.mem d i) = false) (ha : pageAlloc p = some (pp, p₁)) :
    ∃ g', Maps base nothing p ((p₁.setRef pp 1).write (d, i) (entryOf pp 0)) g g' := by
  obtain ⟨rest, hf, -⟩ := pageAlloc_eq ha
  have hmem : pp ∈ p.pageFreeList := by simp [hf]
  obtain ⟨hlt, hr0, hnl⟩ := h.acct.of_free hmem
  obtain ⟨hout, hnf, hheld⟩ := h.acct.unref hlt hr0
  have hlt20 : pp < 2 ^ 20 := Nat.lt_of_lt_of_le hlt h.acct.npage_le
  have hppn : ppn (entryOf pp 0) = pp := by
    rw [ppn_entryOf hlt20]
    exact Nat.or_zero pp
  have hpd : ∀ d' ∈ g.dirs, d' ≠ pp := fun d' hd' hc => hout.dir (hc ▸ hd')
  obtain ⟨p₂, ha₂, hn, hr, hfl, hm, hacct, hsame⟩ := h.acct.alloc hf
  obtain rfl : p₂ = p₁ := by simpa using ha₂.symm.trans ha
  have hne : ∀ f, f ≠ d → f ≠ pp → ((p₂.setRef pp 1).write (d, i) (entryOf pp 0)).mem f = p.mem f := by
    intro f hfd hfp
    rw [write_mem_ne _ (e := (d, i)) hfd]
    show p₂.mem f = _
    rw [hm, Function.update_of_ne hfp]
  have hdir : ∀ d' ∈ g.dirs, ∀ j, ((p₂.setRef pp 1).write (d, i) (entryOf pp 0)).mem d' j =
      if d' = d ∧ j = i then entryOf pp 0 else p.mem d' j := by
    intro d' hd' j
    rw [write_mem]
    refine ite_congr rfl (fun _ => rfl) (fun _ => ?_)
    show p₂.mem d' j = _
    rw [hm, Function.update_of_ne (hpd d' hd')]
  by_cases hi' : i < utopEntries
  · obtain ⟨p₃, p', ha₃, hp', hacct', -, -, -, htab, hpte, -⟩ := h.acct.newTable hd hi' (table_none hv) hf
      (valid_entryOf pp 0) hppn
    obtain rfl : p₃ = p₂ := by simpa using ha₃.symm.trans ha
    rw [← hp'] at hne hdir ⊢
    have hframe := Tree.frame_congr hpte
    refine ⟨g, h.keep hacct' rfl rfl ?_ (fun s hs f hfs => .inl (hframe s hs ▸ hfs)) ?_ ?_, rfl,
      fun s hs f hfs => .inl (hframe s hs ▸ hfs)⟩
    · intro s hs t ht
      rw [htab s hs] at ht
      split at ht
      · cases ht
        exact .inr hheld
      · exact .inl ht
    · intro f hfh hfd
      exact hne f (fun hc => hfd (hc ▸ hd)) (fun hc => hfh (hc ▸ hheld))
    · intro d' hd' j
      rw [hdir d' hd' j]
      split
      · rename_i hj
        exact .inr ⟨hj.2 ▸ hi', readOnly_entryOf pp (by decide)⟩
      · exact .inl rfl
  · -- the entry is above `UTOP`: the kernel holds its page from now on
    have hlo : utopEntries ≤ i := Nat.not_lt.1 hi'
    have hr₁ : p₂.ppRef pp = 0 := by rw [hr, hr0]
    have hsuc : p₂.setRef pp (p₂.ppRef pp + 1) = p₂.setRef pp 1 := by rw [hr₁]; rfl
    have hhold : Acct utopEntries (p₂.setRef pp 1)
        ⟨g.dirs, Function.update g.held pp (g.held pp + 1), (insert pp g.limbo).erase pp⟩ :=
      hsuc ▸ hacct.hold (hacct.usable_of_limbo (Finset.mem_insert_self pp g.limbo)) (by rw [hr₁]; decide)
    have hheld' : ∀ f, f ≠ pp → Function.update g.held pp (g.held pp + 1) f = g.held f :=
      fun f hfp => Function.update_of_ne hfp _ _
    have hbp : base ≠ pp := fun hc => h.template.1 (hc ▸ hheld)
    have habove : SameMaps utopEntries g.dirs (p₂.setRef pp 1) ((p₂.setRef pp 1).write (d, i) (entryOf pp 0)) :=
      hhold.tree.write_above (entryOf pp 0) hd hlo
    have hsame₁ : SameMaps utopEntries g.dirs p (p₂.setRef pp 1) := ⟨hsame.table, hsame.pte⟩
    have hsame' := hsame₁.trans habove
    refine ⟨⟨g.dirs, Function.update g.held pp (g.held pp + 1), (insert pp g.limbo).erase pp⟩,
      ⟨?_, ?_, ?_, ?_, ?_, ?_, ?_, ?_⟩, rfl, fun s hs f hfs => .inl (hsame'.frame s hs ▸ hfs)⟩
    · refine hhold.of_refs (habove.tree rfl hhold.tree) rfl rfl rfl (fun f => ?_)
      unfold refs
      rw [count_congr habove.table, count_congr habove.frame]
    · intro d' hd'
      exact (hheld' d' (hpd d' hd')).trans (h.one d' hd')
    · intro s hs t ht
      rw [hsame'.table s hs] at ht
      have htp : t ≠ pp := fun hc => hout.table s hs (hc ▸ ht)
      exact (hheld' t htp).trans (h.table s hs t ht)
    · intro s hs f hfs
      rw [hsame'.frame s hs] at hfs
      have hfp : f ≠ pp := fun hc => hnf s hs (hc ▸ hfs)
      exact (hheld' f hfp).trans (h.frame s hs f hfs)
    · exact ⟨(hheld' base hbp).trans_ne h.template.1, h.template.2⟩
    · intro d' hd'
      rw [hdir d' hd', if_neg (fun hc => hself hc.2.symm)]
      exact h.own d' hd'
    · rintro d' (rfl | hd') j hj
      · have hbd : d' ≠ d := fun hc => h.template.2 (hc ▸ hd)
        rw [hne d' hbd hbp]
        exact h.entries d' (.inl rfl) j hj
      · rw [hdir d' hd' j]
        split
        · exact readOnly_entryOf pp (by decide)
        · exact h.entries d' (.inr hd') j hj
    · have hold : ∀ d', d' = base ∨ d' ∈ g.dirs → ∀ j, utopEntries ≤ j → j < pdx uvpt → valid (p.mem d' j) = true →
          Function.update g.held pp (g.held pp + 1) (ppn (p.mem d' j)) ≠ 0 ∧ ppn (p.mem d' j) ∉ g.dirs ∧
          ∀ l < pageWords, ReadOnly (((p₂.setRef pp 1).write (d, i) (entryOf pp 0)).mem (ppn (p.mem d' j)) l) := by
        intro d' hd' j hj₁ hj₂ hvj
        obtain ⟨h₁, h₂, h₃⟩ := h.upper d' hd' j hj₁ hj₂ hvj
        have htp : ppn (p.mem d' j) ≠ pp := fun hc => h₁ (hc ▸ hheld)
        have htd : ppn (p.mem d' j) ≠ d := fun hc => h₂ (hc ▸ hd)
        rw [hne _ htd htp]
        exact ⟨(hheld' _ htp).trans_ne h₁, h₂, h₃⟩
      rintro d' (rfl | hd') j hj₁ hj₂ hvj
      · have hbd : d' ≠ d := fun hc => h.template.2 (hc ▸ hd)
        rw [hne d' hbd hbp] at hvj ⊢
        exact hold d' (.inl rfl) j hj₁ hj₂ hvj
      · rw [hdir d' hd' j] at hvj ⊢
        split at hvj
        · rename_i hdi
          have hsucc : Function.update g.held pp (g.held pp + 1) pp ≠ 0 := by
            rw [Function.update_self]
            omega
          rw [if_pos hdi, hppn]
          refine ⟨hsucc, hout.dir, fun l _ => ?_⟩
          have hpne : pp ≠ d := fun hc => hout.dir (hc ▸ hd)
          rw [write_mem_ne _ (e := (d, i)) hpne]
          show ReadOnly (p₂.mem pp l)
          rw [hm, Function.update_self]
          exact readOnly_zero
        · rename_i hdi
          rw [if_neg hdi]
          exact hold d' (.inr hd') j hj₁ hj₂ hvj

end Sound

/-! ## Accesses -/

theorem pteAddr_toNat (va : Word) : (pteAddr va).toNat = va.toNat / 2 ^ 12 * 2 ^ 12 := by
  have h := ppn_pteAddr va
  have hlow : (pteAddr va).toNat % 2 ^ 12 = 0 := by
    have hz : pteAddr va &&& 0xFFF = 0 := by
      have h0 : (0xFFFFF000 : BitVec 32) &&& 0xFFF = 0#32 := by decide
      unfold pteAddr
      rw [BitVec.and_assoc, h0, BitVec.and_zero]
      rfl
    have hn := congrArg BitVec.toNat hz
    have hf : (0xFFF : Word).toNat = 2 ^ 12 - 1 := by decide
    rw [BitVec.toNat_and, hf, Nat.and_two_pow_sub_one_eq_mod] at hn
    exact hn
  unfold ppn pgshift at h
  rw [BitVec.toNat_ushiftRight, BitVec.toNat_ushiftRight, Nat.shiftRight_eq_div_pow, Nat.shiftRight_eq_div_pow] at h
  omega

theorem pdx_pteAddr (va : Word) : pdx (pteAddr va) = pdx va := by
  rw [pdx_eq, pdx_eq, pteAddr_toNat]
  omega

theorem ptx_pteAddr (va : Word) : ptx (pteAddr va) = ptx va := by
  rw [ptx_eq, ptx_eq, pteAddr_toNat]
  omega

theorem pdx_window {va : Word} (h₁ : uvpt ≤ va) (h₂ : va < ulim) : pdx va = pdx uvpt := by
  have hu : uvpt.toNat = 511 * 2 ^ 22 := by decide
  have hl : ulim.toNat = 512 * 2 ^ 22 := by decide
  rw [BitVec.le_def, hu] at h₁
  rw [BitVec.lt_def, hl] at h₂
  rw [pdx_eq, pdx_eq, hu]
  omega

theorem pdx_between {va : Word} (h₁ : utop ≤ va) (h₂ : va < uvpt) : utopEntries ≤ pdx va ∧ pdx va < pdx uvpt := by
  have ht : utop.toNat = 509 * 2 ^ 22 := by decide
  have hu : uvpt.toNat = 511 * 2 ^ 22 := by decide
  rw [BitVec.le_def, ht] at h₁
  rw [BitVec.lt_def, hu] at h₂
  unfold utopEntries
  rw [pdx_eq, pdx_eq, pdx_eq, ht, hu]
  omega

namespace Sound

variable {base : Nat} {p p' : Pmap} {g g' : Ledger}

theorem valid_selfEntry (d : Nat) : valid (selfEntry d) = true := valid_or_pteV _

/-- A page of the window that is not there is an invalid entry of the directory. -/
theorem window_none (h : Sound base p g) {d : Nat} {va : Word} (hd : d ∈ g.dirs) (hva : pdx va = pdx uvpt)
    (hl : pageLookup p d va = some none) : valid (p.mem d (ptx va)) = false := by
  have hinv := lookup_inv_none hl
  rw [hva, h.own d hd, ppn_selfEntry (h.dir_lt hd)] at hinv
  exact hinv (valid_selfEntry d)

theorem insert_window (h : Sound base p g) {d pp : Nat} {asid va perm : Word} (hd : d ∈ g.dirs)
    (hva : pdx va = pdx uvpt) (hv : valid (p.mem d (ptx va)) = false) : pageInsert p d asid pp va perm =
      some (0, ((tlbInvalidate p asid va).setRef pp (p.ppRef pp + 1)).write (d, ptx va) (entryOf pp perm)) := by
  have hv' : ¬valid (p.read (d, ptx va)) = true := by
    show ¬valid (p.mem d (ptx va)) = true
    rw [hv]
    simp
  have hw' := (h.tlb (tlbInvalidate p asid va).tlb).sound.walk_window hd hva true
  simp only [pageInsert, h.walk_window hd hva false, Option.bind_some, if_neg hv', pageInsertFresh]
  show (pgdirWalk { p with tlb := (tlbInvalidate p asid va).tlb } d va true).map _ = _
  rw [hw']
  rfl

/-- The pages an access may map: the environment's own, from the free list. -/
def fresh (p : Pmap) (d : Nat) : Nat → Nat → Prop := fun d' f => d' = d ∧ f ∈ p.pageFreeList

theorem passive_page {p p' : Pmap} {d : Nat} {asid va : Word} (hp : passiveAlloc p d asid va = some p') :
    utemp ≤ va ∧ (va < utop ∨ uvpt ≤ va ∧ va < ulim) ∧ ∃ pp p₁, pageAlloc p = some (pp, p₁) ∧
      pageInsert p₁ d asid pp (pteAddr va) (if uvpt ≤ va ∧ va < ulim then 0 else pteD) = some (0, p') := by
  unfold passiveAlloc at hp
  split at hp
  · cases hp
  · rename_i hzone
    cases ha : pageAlloc p with
    | none => rw [ha] at hp; cases hp
    | some r =>
      obtain ⟨pp, p₁⟩ := r
      rw [ha] at hp
      obtain ⟨⟨r, p₂⟩, hi, hr⟩ := Option.bind_eq_some_iff.1 hp
      dsimp only at hr
      split at hr
      · rename_i hr0
        cases hr
        cases hr0
        rw [not_or, not_or, not_or, not_or] at hzone
        obtain ⟨h₀, -, h₁, h₂, h₃⟩ := hzone
        simp only [BitVec.lt_def, BitVec.le_def] at h₀ h₁ h₂ h₃ ⊢
        have : uenvs.toNat = utop.toNat := rfl
        exact ⟨by omega, by omega, pp, p₁, rfl, hi⟩
      · cases hr

/-- **`passive_alloc` below `UTOP`** maps a fresh page. -/
theorem passive_below (h : Sound base p g) {d : Nat} {asid va : Word} (hd : d ∈ g.dirs) (hva : va < utop)
    (hl : pageLookup p d va = some none) (hp : passiveAlloc p d asid va = some p') : ∃ pp p₁ g₁ g',
      pageAlloc p = some (pp, p₁) ∧ Maps base nothing p p₁ g g₁ ∧ Acct.Inserted utopEntries p₁ p' g₁ d
        (pteAddr va) pp pteD ∧
      Maps base (fresh p d) p p' g g' ∧ ∀ f ∈ p'.pageFreeList, f ∈ p.pageFreeList := by
  obtain ⟨-, -, pp, p₁, ha, hi⟩ := passive_page hp
  obtain ⟨hfree, hsub, -, hmaps⟩ := h.alloc ha
  have hdw : d ∈ ({ g with limbo := insert pp g.limbo } : Ledger).dirs := hd
  have hlimbo := Finset.mem_insert_self pp g.limbo
  have hr1 : p₁.ppRef pp = 0 := (hmaps.sound.acct.limbo pp hlimbo).2
  have hva' : pteAddr va < utop := by
    rw [← pdx_lt_utop, pdx_pteAddr]
    exact pdx_lt_utop.2 hva
  have hnuv : ¬(uvpt ≤ va ∧ va < ulim) := fun hc =>
    absurd (Nat.lt_of_le_of_lt (BitVec.le_def.1 hc.1) (BitVec.lt_def.1 hva)) (by decide)
  have hslot : slotOf d (pteAddr va) = slotOf d va := by
    unfold slotOf
    rw [pdx_pteAddr, ptx_pteAddr]
  rw [if_neg hnuv] at hi
  have hheld : g.held pp = 0 := (hmaps.sound.acct.unref (hmaps.sound.acct.limbo pp hlimbo).1 hr1).2.2
  have hperm : pp ||| ppn pteD = pp := by
    have h0 : ppn pteD = 0 := by decide
    rw [h0, Nat.or_zero]
  rcases hmaps.sound.insertPage hdw hva' (hmaps.sound.acct.usable_of_limbo hlimbo) hheld
    (.inr (by rw [hr1]; decide)) hperm hi with ⟨hc, -⟩ | ⟨-, hins, hmaps'⟩
  · exact absurd hc (by decide)
  · refine ⟨pp, p₁, _, _, ha, hmaps, hins, (hmaps.trans hmaps').mono ?_, fun f hf => ?_⟩
    · rintro d' f (hf | ⟨rfl, rfl⟩)
      · exact hf.elim
      · exact ⟨rfl, hfree⟩
    · rcases hins.freeList f hf with hf | hf
      · exact hsub f hf
      · obtain ⟨l, hl', hlf⟩ := h.acct.lookup hd (pdx_lt_utop.2 hva)
        rw [hl, Option.some.injEq] at hl'
        rw [hslot] at hf
        rcases hmaps.pages _ (slotOf_mem hd (pdx_lt_utop.2 hva)) f hf with hf | hf
        · rw [← hlf, ← hl'] at hf
          cases hf
        · exact hf.elim

/-- What `passive_alloc` from `UTOP` on writes: an entry of the directory. -/
theorem passive_window_eq (h : Sound base p g) {d : Nat} {asid va : Word} (hd : d ∈ g.dirs) (hva : ¬va < utop)
    (hl : pageLookup p d va = some none) (hp : passiveAlloc p d asid va = some p') : ∃ pp p₁,
      pageAlloc p = some (pp, p₁) ∧ ptx va ≠ pdx uvpt ∧ valid (p.mem d (ptx va)) = false ∧
      p' = { (p₁.setRef pp 1).write (d, ptx va) (entryOf pp 0) with
        tlb := (tlbInvalidate p₁ asid (pteAddr va)).tlb } := by
  obtain ⟨-, hzone, pp, p₁, ha, hi⟩ := passive_page hp
  have huv := hzone.resolve_left hva
  obtain ⟨hfree, -, -, hmaps⟩ := h.alloc ha
  have hdw : d ∈ ({ g with limbo := insert pp g.limbo } : Ledger).dirs := hd
  have hr1 : p₁.ppRef pp = 0 := (hmaps.sound.acct.limbo pp (Finset.mem_insert_self pp g.limbo)).2
  have hdx := pdx_window huv.1 huv.2
  have hdx' : pdx (pteAddr va) = pdx uvpt := by rw [pdx_pteAddr, hdx]
  have hpd : pp ≠ d := fun hc => h.acct.dir_ref hd (hc ▸ (h.acct.of_free hfree).2.1)
  have hv := h.window_none hd hdx hl
  have hne : ptx va ≠ pdx uvpt := by
    intro hc
    rw [hc, h.own d hd, valid_selfEntry] at hv
    cases hv
  obtain ⟨rest, -, hp₁⟩ := pageAlloc_eq ha
  have hmd : p₁.mem d (ptx va) = p.mem d (ptx va) := by
    rw [hp₁]
    exact congrFun (Function.update_of_ne hpd.symm _ _) _
  rw [if_pos huv, hmaps.sound.insert_window hdw hdx' (by rw [ptx_pteAddr, hmd, hv])] at hi
  refine ⟨pp, p₁, ha, hne, hv, ?_⟩
  obtain ⟨-, rfl⟩ := Prod.mk.inj (Option.some.inj hi)
  rw [ptx_pteAddr, hr1]
  rfl

/-- **`passive_alloc` from `UTOP` on** makes a table appear in the window. -/
theorem passive_window (h : Sound base p g) {d : Nat} {asid va : Word} (hd : d ∈ g.dirs) (hva : ¬va < utop)
    (hl : pageLookup p d va = some none) (hp : passiveAlloc p d asid va = some p') :
    ∃ g', Maps base nothing p p' g g' ∧ ∀ f ∈ p'.pageFreeList, f ∈ p.pageFreeList := by
  obtain ⟨pp, p₁, ha, hne, hv, hp'⟩ := h.passive_window_eq hd hva hl hp
  obtain ⟨-, hsub, -, -⟩ := h.alloc ha
  obtain ⟨g', hwin⟩ := h.insertWindow hd hne hv ha
  rw [hp']
  exact ⟨g', (hwin.trans (hwin.sound.tlb _)).mono (fun _ _ hf => hf.elim id id), fun f hf => hsub f hf⟩

/-- **`passive_alloc`** maps a fresh page, or makes one appear in the window. -/
theorem passive (h : Sound base p g) {d : Nat} {asid va : Word} (hd : d ∈ g.dirs) (hl : pageLookup p d va = some none)
    (hp : passiveAlloc p d asid va = some p') :
    ∃ g', Maps base (fresh p d) p p' g g' ∧ ∀ f ∈ p'.pageFreeList, f ∈ p.pageFreeList := by
  by_cases hva : va < utop
  · obtain ⟨pp, p₁, g₁, g', -, -, -, hm, hsub⟩ := h.passive_below hd hva hl hp
    exact ⟨g', hm, hsub⟩
  · obtain ⟨g', hm, hsub⟩ := h.passive_window hd hva hl hp
    exact ⟨g', hm.mono (fun _ _ hf => hf.elim), hsub⟩

theorem refill (h : Sound base p g) {d victim : Nat} {asid va : Word} (hd : d ∈ g.dirs)
    (hr : doTlbRefill p d asid va victim = some p') :
    ∃ g', Maps base (fresh p d) p p' g g' ∧ ∀ f ∈ p'.pageFreeList, f ∈ p.pageFreeList := by
  unfold doTlbRefill at hr
  obtain ⟨⟨e, p₂⟩, hl, hp'⟩ := Option.map_eq_some_iff.1 hr
  have h₁ := (h.tlb (tlbInvalidate p asid va).tlb).sound
  have hlast : ∃ g', Maps base (fresh p d) p p₂ g g' ∧ ∀ f ∈ p₂.pageFreeList, f ∈ p.pageFreeList := by
    unfold lookupAlloc at hl
    obtain ⟨l, hl₁, hl₂⟩ := Option.bind_eq_some_iff.1 hl
    cases l with
    | some l =>
      obtain ⟨pp, e'⟩ := l
      cases hl₂
      exact ⟨g, (h.tlb (tlbInvalidate p asid va).tlb).mono (fun _ _ hf => hf.elim), fun f hf => hf⟩
    | none =>
      obtain ⟨p₃, hpas, hrest⟩ := Option.bind_eq_some_iff.1 hl₂
      obtain ⟨l', -, hl'⟩ := Option.bind_eq_some_iff.1 hrest
      obtain ⟨⟨pp, e'⟩, -, he⟩ := Option.map_eq_some_iff.1 hl'
      cases he
      obtain ⟨g', hm, hsub⟩ := h₁.passive hd hl₁ hpas
      refine ⟨g', ((h.tlb (tlbInvalidate p asid va).tlb).trans hm).mono ?_, hsub⟩
      rintro d' f (hf | hf)
      · exact hf.elim
      · exact hf
  obtain ⟨g', hm, hsub⟩ := hlast
  subst hp'
  refine ⟨g', (hm.trans (hm.sound.tlb _)).mono ?_, hsub⟩
  rintro d' f (hf | hf)
  · exact hf
  · exact hf.elim

/-- **An access of the kernel or of the environment.** -/
theorem touch (h : Sound base p g) {d : Nat} {asid va : Word} (hd : d ∈ g.dirs) (ht : Mos.touch p d asid va = some p') :
    ∃ g', Maps base (fresh p d) p p' g g' ∧ ∀ f ∈ p'.pageFreeList, f ∈ p.pageFreeList := by
  unfold Mos.touch at ht
  split at ht
  · cases ht
    exact ⟨g, .refl h, fun f hf => hf⟩
  · obtain ⟨l, -, hrest⟩ := Option.bind_eq_some_iff.1 ht
    cases l with
    | some l =>
      cases hrest
      exact ⟨g, .refl h, fun f hf => hf⟩
    | none => exact h.refill hd hrest

/-- **A store goes to a page below `UTOP`.** -/
theorem store_below (h : Sound base p g) {d pp : Nat} {va : Word} {e : PtePtr} (hd : d ∈ g.dirs) (hva : va < ulim)
    (hl : pageLookup p d va = some (some (pp, e))) (hD : p.read e &&& pteD ≠ 0) : va < utop := by
  obtain ⟨hv, he, hve, -⟩ := lookup_inv hl
  by_contra hge
  have hge' : utop ≤ va := by
    rw [BitVec.lt_def] at hge
    rw [BitVec.le_def]
    omega
  have hro : ReadOnly (p.read e) := by
    rw [he]
    by_cases hw : uvpt ≤ va
    · have hdx := pdx_window hw hva
      show ReadOnly (p.mem (ppn (p.mem d (pdx va))) (ptx va))
      rw [hdx, h.own d hd, ppn_selfEntry (h.dir_lt hd)]
      exact h.entries d (.inr hd) _ (ptx_lt va)
    · have hw' : va < uvpt := by
        rw [BitVec.le_def] at hw
        rw [BitVec.lt_def]
        omega
      obtain ⟨hlo, hhi⟩ := pdx_between hge' hw'
      exact (h.upper d (.inr hd) _ hlo hhi hv).2.2 _ (ptx_lt va)
  exact hD (hro hve)

theorem store_page (h : Sound base p g) {d : Nat} {va w : Word} (hd : d ∈ g.dirs) (hs : Mos.store p d va w = some p') :
    ∃ pp, p.frame (slotOf d va) = some pp ∧ slotOf d va ∈ pageSlots utopEntries g.dirs ∧
      p' = p.write (pp, pageOffset va) w := by
  unfold Mos.store at hs
  split at hs
  · cases hs
  · rename_i hul
    have hva : va < ulim := by
      rw [BitVec.le_def] at hul
      rw [BitVec.lt_def]
      omega
    obtain ⟨l, hl, hrest⟩ := Option.bind_eq_some_iff.1 hs
    cases l with
    | none => cases hrest
    | some l =>
      obtain ⟨pp, e⟩ := l
      dsimp only at hrest
      split at hrest
      · rename_i hD
        cases hrest
        have hbelow := pdx_lt_utop.2 (h.store_below hd hva hl (by simpa using hD))
        obtain ⟨l', hl', hlf⟩ := h.acct.lookup hd hbelow
        obtain rfl : some (pp, e) = l' := by simpa using hl.symm.trans hl'
        exact ⟨pp, hlf.symm, slotOf_mem hd hbelow, rfl⟩
      · cases hrest

/-- What a store leaves alone: directories, tables, and what the kernel holds. -/
theorem store_mem (h : Sound base p g) {d : Nat} {va w : Word} (hd : d ∈ g.dirs) (hs : Mos.store p d va w = some p')
    {f : Nat} (hf : ¬Outside utopEntries p g.dirs f ∨ g.held f ≠ 0) : p'.mem f = p.mem f := by
  obtain ⟨pp, hframe, hslot, rfl⟩ := h.store_page hd hs
  refine write_mem_ne p (e := (pp, pageOffset va)) ?_
  rintro rfl
  rcases hf with hf | hf
  · exact hf (h.acct.tree.outside_of_frame hslot hframe)
  · exact hf (h.frame _ hslot _ hframe)

theorem store (h : Sound base p g) {d : Nat} {va w : Word} (hd : d ∈ g.dirs) (hs : Mos.store p d va w = some p') :
    Maps base nothing p p' g g := by
  obtain ⟨pp, -, -, hp'⟩ := h.store_page hd hs
  have hmem : ∀ f, ¬Outside utopEntries p g.dirs f ∨ g.held f ≠ 0 → p'.mem f = p.mem f :=
    fun f hf => h.store_mem hd hs hf
  subst hp'
  exact h.congr rfl rfl rfl hmem

/-! ## Spaces come and go -/

theorem setupPgdir_mem (q : Pmap) (base pp f i : Nat) : (setupPgdir q base pp).mem f i =
    if f = pp then
      if i = pdx uvpt then selfEntry pp else if pdx utop ≤ i ∧ i < pdx uvpt then q.mem base i else q.mem pp i
    else q.mem f i := by
  show Function.update q.mem pp _ f i = _
  by_cases hf : f = pp
  · subst hf
    rw [Function.update_self, if_pos rfl]
    rfl
  · rw [Function.update_of_ne hf, if_neg hf]

theorem setup (h : Sound base p g) {pp : Nat} {p₁ : Pmap} (ha : pageAlloc p = some (pp, p₁)) :
    pp ∉ g.dirs ∧ g.held pp = 0 ∧ p₁.ppRef pp = 0 ∧ Acct utopEntries p₁ { g with limbo := insert pp g.limbo } ∧
    SameMaps utopEntries g.dirs p p₁ ∧
    (∀ f, f ≠ pp → (setupPgdir (p₁.setRef pp (p₁.ppRef pp + 1)) base pp).mem f = p.mem f) ∧
    ∀ i, (setupPgdir (p₁.setRef pp (p₁.ppRef pp + 1)) base pp).mem pp i =
      if i = pdx uvpt then selfEntry pp else if pdx utop ≤ i ∧ i < pdx uvpt then p.mem base i else 0 := by
  obtain ⟨rest, hf, -⟩ := pageAlloc_eq ha
  obtain ⟨p₂, ha₂, hn, hr, hfl, hm, hacct, hsame⟩ := h.acct.alloc hf
  obtain rfl : p₂ = p₁ := by simpa using ha₂.symm.trans ha
  have hmem : pp ∈ p.pageFreeList := by simp [hf]
  obtain ⟨hlt, hr0, -⟩ := h.acct.of_free hmem
  obtain ⟨hout, -, hheld⟩ := h.acct.unref hlt hr0
  have hbp : base ≠ pp := fun hc => h.template.1 (hc ▸ hheld)
  refine ⟨hout.dir, hheld, by rw [hr, hr0], hacct, hsame, ?_, ?_⟩
  · intro f hfp
    funext i
    rw [setupPgdir_mem, if_neg hfp]
    show p₂.mem f i = _
    rw [hm, Function.update_of_ne hfp]
  · intro i
    rw [setupPgdir_mem, if_pos rfl]
    refine ite_congr rfl (fun _ => rfl) (fun _ => ite_congr rfl (fun _ => ?_) (fun _ => ?_))
    · show p₂.mem base i = _
      rw [hm, Function.update_of_ne hbp]
    · show p₂.mem pp i = _
      rw [hm, Function.update_self]

/-- **A new directory** has the template's entries, a window on itself, and no page. -/
theorem newSpace (h : Sound base p g) {pp : Nat} {p₁ : Pmap} (ha : pageAlloc p = some (pp, p₁)) :
    pp ∉ g.dirs ∧
    Sound base (setupPgdir (p₁.setRef pp (p₁.ppRef pp + 1)) base pp)
      ⟨insert pp g.dirs, Function.update g.held pp 1, (insert pp g.limbo).erase pp⟩ ∧
    ∀ s ∈ pageSlots utopEntries (insert pp g.dirs), ∀ f,
      (setupPgdir (p₁.setRef pp (p₁.ppRef pp + 1)) base pp).frame s = some f → s.1 ≠ pp ∧ p.frame s = some f := by
  obtain ⟨hnd, hheld, hr, hacct, hsame, hne, hpp⟩ := h.setup ha
  have hsame' : SameMaps utopEntries g.dirs p (setupPgdir (p₁.setRef pp (p₁.ppRef pp + 1)) base pp) := by
    refine SameMaps.of_mem (fun f hf => hne f ?_)
    rintro rfl
    have hmem : f ∈ p.pageFreeList := by
      obtain ⟨rest, hfl, -⟩ := pageAlloc_eq ha
      simp [hfl]
    obtain ⟨hlt, hr0, -⟩ := h.acct.of_free hmem
    exact hf (h.acct.unref hlt hr0).1
  generalize hq : setupPgdir (p₁.setRef pp (p₁.ppRef pp + 1)) base pp = q at hne hpp hsame' ⊢
  have hqr : q.ppRef = Function.update p₁.ppRef pp 1 := by
    rw [← hq]
    show Function.update p₁.ppRef pp (p₁.ppRef pp + 1) = _
    rw [hr]
    rfl
  have hzero : ∀ i < utopEntries, q.mem pp i = 0 := by
    intro i hi
    have h₁ : i ≠ pdx uvpt := fun hc => absurd (hc ▸ hi) (by decide)
    have h₂ : ¬(pdx utop ≤ i ∧ i < pdx uvpt) := fun hc => absurd hi (Nat.not_lt.2 hc.1)
    rw [hpp, if_neg h₁, if_neg h₂]
  have hmem : ∀ f, f ≠ pp → q.mem f = p₁.mem f := by
    intro f hf
    obtain ⟨rest, -, rfl⟩ := pageAlloc_eq ha
    rw [hne f hf]
    exact (Function.update_of_ne hf _ _).symm
  obtain ⟨hacct', -⟩ := @Acct.newDir utopEntries p₁ q _ hacct pp (Finset.mem_insert_self pp g.limbo)
    (fun i hi => by rw [hzero i hi]; exact valid_zero) (by rw [← hq]; rfl) hqr (by rw [← hq]; rfl) hmem
  have hempty : ∀ i < utopEntries, q.table (pp, i) = none :=
    fun i hi => table_none (by rw [hzero i hi]; exact valid_zero)
  have htable : ∀ s ∈ tableSlots utopEntries (insert pp g.dirs), ∀ t, q.table s = some t →
      s ∈ tableSlots utopEntries g.dirs ∧ p.table s = some t := by
    intro s hs t ht
    obtain ⟨hs₁, hs₂⟩ := mem_tableSlots.1 hs
    rcases Finset.mem_insert.1 hs₁ with hsp | hs₁
    · have hs' : s = (pp, s.2) := by rw [← hsp]
      rw [hs', hempty _ hs₂] at ht
      cases ht
    · have hs' := mem_tableSlots.2 ⟨hs₁, hs₂⟩
      exact ⟨hs', hsame'.table s hs' ▸ ht⟩
  have hframe : ∀ s ∈ pageSlots utopEntries (insert pp g.dirs), ∀ f, q.frame s = some f →
      s ∈ pageSlots utopEntries g.dirs ∧ p.frame s = some f := by
    intro s hs f hf
    obtain ⟨hs₁, hs₂, hs₃⟩ := mem_pageSlots.1 hs
    obtain ⟨w, hw, -⟩ := frame_eq_some hf
    obtain ⟨t, ht, -, -⟩ := table_of_pte hw
    have hs' := mem_pageSlots.2 ⟨(mem_tableSlots.1 (htable _ (Tree.slot_table hs) t ht).1).1, hs₂, hs₃⟩
    exact ⟨hs', hsame'.frame s hs' ▸ hf⟩
  have hheld' : ∀ f, f ≠ pp → Function.update g.held pp 1 f = g.held f := fun f hf => Function.update_of_ne hf _ _
  have hkeep : ∀ f, g.held f = 0 → f ≠ pp → Function.update g.held pp 1 f = 0 :=
    fun f h0 hf => (hheld' f hf).trans h0
  have hdir : ∀ d, d ∈ g.dirs → d ≠ pp := fun d hd hc => hnd (hc ▸ hd)
  have hbp : base ≠ pp := fun hc => h.template.1 (hc ▸ hheld)
  have hout : ∀ f, q.table f = some pp → f ∉ tableSlots utopEntries (insert pp g.dirs) := by
    intro f hf hs
    exact hacct'.tree.table_dir f hs pp hf (Finset.mem_insert_self pp g.dirs)
  refine ⟨hnd, ⟨hacct', ?_, ?_, ?_, ?_, ?_, ?_, ?_⟩, ?_⟩
  · intro d hd
    rcases Finset.mem_insert.1 hd with rfl | hd
    · exact Function.update_self _ _ _
    · exact (hheld' d (hdir d hd)).trans (h.one d hd)
  · intro s hs t ht
    obtain ⟨hs', ht'⟩ := htable s hs t ht
    exact hkeep t (h.table s hs' t ht') (fun hc => hout s (hc ▸ ht) hs)
  · intro s hs f hf
    obtain ⟨hs', hf'⟩ := hframe s hs f hf
    refine hkeep f (h.frame s hs' f hf') (fun hc => ?_)
    exact hacct'.tree.frame_dir s hs f hf (hc ▸ Finset.mem_insert_self pp g.dirs)
  · refine ⟨(hheld' base hbp).trans_ne h.template.1, fun hc => ?_⟩
    exact (Finset.mem_insert.1 hc).elim hbp h.template.2
  · intro d hd
    rcases Finset.mem_insert.1 hd with rfl | hd
    · rw [hpp, if_pos rfl]
    · rw [hne d (hdir d hd)]
      exact h.own d hd
  · have hold : ∀ d, d = base ∨ d ∈ g.dirs → ∀ i < pageWords, ReadOnly (q.mem d i) := by
      intro d hd i hi
      have hdp : d ≠ pp := hd.elim (fun hc => hc ▸ hbp) (hdir d)
      rw [hne d hdp]
      exact h.entries d hd i hi
    rintro d (rfl | hd) i hi
    · exact hold d (.inl rfl) i hi
    · rcases Finset.mem_insert.1 hd with rfl | hd
      · rw [hpp]
        split
        · exact readOnly_selfEntry d
        · split
          · exact h.entries base (.inl rfl) i hi
          · exact readOnly_zero
      · exact hold d (.inr hd) i hi
  · have hold : ∀ d, d = base ∨ d ∈ g.dirs → ∀ i, utopEntries ≤ i → i < pdx uvpt → valid (p.mem d i) = true →
        Function.update g.held pp 1 (ppn (p.mem d i)) ≠ 0 ∧ ppn (p.mem d i) ∉ insert pp g.dirs ∧
        ∀ j < pageWords, ReadOnly (q.mem (ppn (p.mem d i)) j) := by
      intro d hd i hlo hhi hv
      obtain ⟨h₁, h₂, h₃⟩ := h.upper d hd i hlo hhi hv
      have htp : ppn (p.mem d i) ≠ pp := fun hc => h₁ (hc ▸ hheld)
      rw [hne _ htp]
      exact ⟨(hheld' _ htp).trans_ne h₁, fun hc => (Finset.mem_insert.1 hc).elim htp h₂, h₃⟩
    rintro d (rfl | hd) i hlo hhi hv
    · rw [hne d hbp] at hv ⊢
      exact hold d (.inl rfl) i hlo hhi hv
    · rcases Finset.mem_insert.1 hd with rfl | hd
      · have h₁ : i ≠ pdx uvpt := Nat.ne_of_lt hhi
        rw [hpp, if_neg h₁, if_pos ⟨hlo, hhi⟩] at hv ⊢
        exact hold base (.inl rfl) i hlo hhi hv
      · rw [hne d (hdir d hd)] at hv ⊢
        exact hold d (.inr hd) i hlo hhi hv
  · intro s hs f hf
    obtain ⟨hs', hf'⟩ := hframe s hs f hf
    exact ⟨hdir _ (mem_pageSlots.1 hs').1, hf'⟩

theorem restrict (h : Sound base p g) {d : Nat} (hd : d ∈ g.dirs) (ha : Acct utopEntries p' g')
    (hdirs : g'.dirs = g.dirs.erase d) (hm : p'.mem = p.mem) (hheld : ∀ f, f ≠ d → g'.held f = g.held f) :
    Sound base p' g' := by
  have hsub : ∀ d' ∈ g'.dirs, d' ≠ d ∧ d' ∈ g.dirs := fun d' hd' => Finset.mem_erase.1 (hdirs ▸ hd')
  have hts : ∀ s ∈ tableSlots utopEntries g'.dirs, s ∈ tableSlots utopEntries g.dirs :=
    fun s hs => mem_tableSlots.2 ⟨(hsub _ (mem_tableSlots.1 hs).1).2, (mem_tableSlots.1 hs).2⟩
  have hps : ∀ s ∈ pageSlots utopEntries g'.dirs, s ∈ pageSlots utopEntries g.dirs :=
    fun s hs => mem_pageSlots.2 ⟨(hsub _ (mem_pageSlots.1 hs).1).2, (mem_pageSlots.1 hs).2⟩
  have htable : p'.table = p.table := by
    funext s
    unfold Pmap.table
    rw [hm]
  have hframe : p'.frame = p.frame := by
    funext s
    unfold Pmap.frame Pmap.pte
    rw [htable, hm]
  have hbd : base ≠ d := fun hc => h.template.2 (hc ▸ hd)
  have hmono : ∀ d', d' = base ∨ d' ∈ g'.dirs → d' = base ∨ d' ∈ g.dirs :=
    fun d' hd' => hd'.imp_right (fun hc => (hsub d' hc).2)
  refine ⟨ha, ?_, ?_, ?_, ?_, ?_, ?_, ?_⟩
  · intro d' hd'
    obtain ⟨hne, hd'⟩ := hsub d' hd'
    rw [hheld d' hne]
    exact h.one d' hd'
  · intro s hs t ht
    rw [htable] at ht
    have htd : t ≠ d := fun hc => h.acct.tree.table_dir s (hts s hs) t ht (hc ▸ hd)
    rw [hheld t htd]
    exact h.table s (hts s hs) t ht
  · intro s hs f hf
    rw [hframe] at hf
    have hfd : f ≠ d := fun hc => h.acct.tree.frame_dir s (hps s hs) f hf (hc ▸ hd)
    rw [hheld f hfd]
    exact h.frame s (hps s hs) f hf
  · rw [hheld base hbd]
    exact ⟨h.template.1, fun hc => h.template.2 (hsub base hc).2⟩
  · intro d' hd'
    rw [hm]
    exact h.own d' (hsub d' hd').2
  · intro d' hd' i hi
    rw [hm]
    exact h.entries d' (hmono d' hd') i hi
  · intro d' hd' i hlo hhi hv
    rw [hm] at hv ⊢
    obtain ⟨h₁, h₂, h₃⟩ := h.upper d' (hmono d' hd') i hlo hhi hv
    have htd : ppn (p.mem d' i) ≠ d := fun hc => h₂ (hc ▸ hd)
    rw [hheld _ htd]
    exact ⟨h₁, fun hc => h₂ (hsub _ hc).2, h₃⟩

/-- **A directory that no environment gets** stays the kernel's. -/
theorem leakSpace (h : Sound base p g) {pp : Nat} {p₁ : Pmap} (ha : pageAlloc p = some (pp, p₁)) :
    ∃ g', Maps base nothing p (setupPgdir (p₁.setRef pp (p₁.ppRef pp + 1)) base pp) g g' := by
  obtain ⟨hnd, hheld, hr, hacct, -, hne, -⟩ := h.setup ha
  obtain ⟨-, hsound, hpages⟩ := h.newSpace ha
  have hu := hacct.usable_of_limbo (Finset.mem_insert_self pp g.limbo)
  have hhold := hacct.hold hu (by rw [hr]; decide)
  have hleak : Acct utopEntries (setupPgdir (p₁.setRef pp (p₁.ppRef pp + 1)) base pp)
      ⟨g.dirs, Function.update g.held pp 1, (insert pp g.limbo).erase pp⟩ := by
    have hone : g.held pp + 1 = 1 := by rw [hheld]
    rw [← hone]
    refine hhold.congr rfl rfl rfl (fun f hf => ?_)
    have hfp : f ≠ pp := by
      rintro rfl
      exact hf ⟨hu.outside.dir, hu.outside.table⟩
    funext i
    rw [setupPgdir_mem, if_neg hfp]
  have herase : (insert pp g.dirs).erase pp = g.dirs := Finset.erase_insert hnd
  refine ⟨_, hsound.restrict (Finset.mem_insert_self pp g.dirs) hleak herase.symm rfl (fun _ _ => rfl), rfl, ?_⟩
  intro s hs f hf
  have hs' : s ∈ pageSlots utopEntries (insert pp g.dirs) :=
    mem_pageSlots.2 ⟨Finset.mem_insert_of_mem (mem_pageSlots.1 hs).1, (mem_pageSlots.1 hs).2⟩
  exact .inl (hpages s hs' f hf).2

/-- The address of page `j` of directory entry `i`, as `env_free` makes it. -/
theorem slotOf_free {d i j : Nat} (hi : i < 1024) (hj : j < 1024) :
    slotOf d (BitVec.ofNat 32 i <<< pdshift ||| BitVec.ofNat 32 j <<< pgshift) = (d, i, j) := by
  have hor : (BitVec.ofNat 32 i <<< pdshift ||| BitVec.ofNat 32 j <<< pgshift).toNat = i * 2 ^ 22 + j * 2 ^ 12 := by
    unfold pdshift pgshift
    rw [BitVec.toNat_or, BitVec.toNat_shiftLeft, BitVec.toNat_shiftLeft, BitVec.toNat_ofNat, BitVec.toNat_ofNat,
      Nat.shiftLeft_eq, Nat.shiftLeft_eq]
    have h₂ : j % 2 ^ 32 * 2 ^ 12 % 2 ^ 32 = j * 2 ^ 12 := by omega
    have h₃ : j * 2 ^ 12 < 2 ^ 22 := by omega
    have h₁ : i % 2 ^ 32 * 2 ^ 22 % 2 ^ 32 = i * 2 ^ 22 := by
      have hi' : i < 2 ^ 32 := Nat.lt_trans hi (by decide)
      rw [Nat.mod_eq_of_lt hi']
      refine Nat.mod_eq_of_lt ?_
      calc i * 2 ^ 22 < 1024 * 2 ^ 22 := Nat.mul_lt_mul_of_pos_right hi (by decide)
        _ = 2 ^ 32 := by decide
    rw [h₁, h₂, Nat.mul_comm i, ← Nat.two_pow_add_eq_or_of_lt h₃, Nat.mul_comm]
  unfold slotOf
  rw [pdx_eq, ptx_eq, hor]
  simp only [Prod.mk.injEq, true_and]
  omega

theorem freeEntries {d i t : Nat} {asid : Word} (hi : i < utopEntries) : ∀ (js : List Nat) {p p' : Pmap},
    (∀ j ∈ js, j < pageWords) → Sound base p g → d ∈ g.dirs → p.table (d, i) = some t →
    (∀ j < pageWords, j ∉ js → p.pte (d, i, j) = none) →
    js.foldlM (fun p j => if valid (p.mem t j) then
      pageRemove p d asid (BitVec.ofNat 32 i <<< pdshift ||| BitVec.ofNat 32 j <<< pgshift) else some p) p = some p' →
    Maps base nothing p p' g g ∧ (∀ s ∈ tableSlots utopEntries g.dirs, p'.table s = p.table s) ∧
      ∀ j < pageWords, p'.pte (d, i, j) = none
  | [], p, p', _, h, _, _, hnone, hf => by
    cases hf
    exact ⟨.refl h, fun _ _ => rfl, fun j hj => hnone j hj List.not_mem_nil⟩
  | j :: js, p, p', hjs, h, hd, ht, hnone, hf => by
    rw [List.foldlM_cons] at hf
    obtain ⟨p₁, hstep, hrest⟩ := Option.bind_eq_some_iff.1 hf
    have hslot : (d, i) ∈ tableSlots utopEntries g.dirs := mem_tableSlots.2 ⟨hd, hi⟩
    have hj := hjs j List.mem_cons_self
    have hone : Maps base nothing p p₁ g g ∧ (∀ s ∈ tableSlots utopEntries g.dirs, p₁.table s = p.table s) ∧
        ∀ j' < pageWords, j' ∉ js → p₁.pte (d, i, j') = none := by
      split at hstep
      · have hso := slotOf_free (d := d) (Nat.lt_trans hi (pdx_lt utop)) hj
        have hva : BitVec.ofNat 32 i <<< pdshift ||| BitVec.ofNat 32 j <<< pgshift < utop := by
          have hpd := congrArg (fun s => s.2.1) hso
          exact pdx_lt_utop.1 (hpd.trans_lt hi)
        obtain ⟨hm, htab, hset⟩ := h.remove hd hva hstep
        refine ⟨hm, htab, fun j' hj' hn => ?_⟩
        rw [hset _ (mem_pageSlots.2 ⟨hd, hi, hj'⟩), hso]
        split
        · rfl
        · rename_i hne
          refine hnone j' hj' (fun hc => ?_)
          rcases List.mem_cons.1 hc with rfl | hc
          · exact hne rfl
          · exact hn hc
      · rename_i hv
        cases hstep
        refine ⟨.refl h, fun _ _ => rfl, fun j' hj' hn => ?_⟩
        by_cases hjj : j' = j
        · subst hjj
          rw [pte_of_table ht, if_neg hv]
        · exact hnone j' hj' (fun hc => (List.mem_cons.1 hc).elim hjj hn)
    obtain ⟨hm, htab, hnone₁⟩ := hone
    obtain ⟨hm', htab', hnone'⟩ := freeEntries hi js (fun j' hj' => hjs j' (List.mem_cons_of_mem _ hj')) hm.sound hd
      ((htab _ hslot).trans ht) hnone₁ hrest
    refine ⟨(hm.trans hm').mono ?_, fun s hs => (htab' s hs).trans (htab s hs), hnone'⟩
    rintro d' f (hf | hf) <;> exact hf

theorem decref_mem {p p' : Pmap} {pp : Nat} (h : pageDecref p pp = some p') : p'.mem = p.mem := by
  have hr : p.ppRef pp ≠ 0 := by
    intro hr
    unfold pageDecref at h
    rw [if_pos hr] at h
    cases h
  rw [Acct.decref_eq hr] at h
  cases h
  rfl

/-- **The table of a directory entry is given back** with the pages it maps. -/
theorem freeTable (h : Sound base p g) {d i : Nat} {asid : Word} (hd : d ∈ g.dirs) (hi : i < utopEntries)
    (hf : envFreeTable d asid p i = some p') : Maps base nothing p p' g g ∧ p'.table (d, i) = none ∧
      ∀ j < utopEntries, p.table (d, j) = none → p'.table (d, j) = none := by
  unfold envFreeTable at hf
  split at hf
  · rename_i hv
    obtain ⟨t, hk, hrest⟩ := Option.bind_eq_some_iff.1 hf
    obtain ⟨p₁, hloop, hrest⟩ := Option.bind_eq_some_iff.1 hrest
    obtain ⟨t', hpa, hrest⟩ := Option.bind_eq_some_iff.1 hrest
    obtain ⟨p₂, hdec, rfl⟩ := Option.map_eq_some_iff.1 hrest
    have hppn : ppn (p.mem d i) = t ∧ ppn (p.mem d i) = t' := by
      unfold kaddr at hk
      unfold pa2page at hpa
      rw [ppn_pteAddr] at hk hpa
      constructor
      · split at hk
        · exact Option.some.inj hk
        · cases hk
      · split at hpa
        · exact Option.some.inj hpa
        · cases hpa
    obtain ⟨rfl, rfl⟩ := hppn
    have hslot : (d, i) ∈ tableSlots utopEntries g.dirs := mem_tableSlots.2 ⟨hd, hi⟩
    have ht : p.table (d, i) = some (ppn (p.mem d i)) := by
      unfold Pmap.table
      rw [if_pos hv]
    obtain ⟨hm, htab, hnone⟩ := freeEntries hi (List.range pageWords) (fun j hj => List.mem_range.1 hj) h hd ht
      (fun j hj hn => absurd (List.mem_range.2 hj) hn) hloop
    obtain ⟨p₃, hdec', hacct, hn, htab₂, hpte₂⟩ := hm.sound.acct.dropTable hd hi ((htab _ hslot).trans ht) hnone
    obtain rfl : p₃ = p₂ := by simpa using hdec'.symm.trans hdec
    have hmem : ∀ f j, p₃.mem f j = if f = d ∧ j = i then 0 else p₁.mem f j := by
      intro f j
      rw [decref_mem hdec, write_mem]
    have hframe := Tree.frame_congr hpte₂
    have hdrop : Maps base nothing p₁ p₃ g g := by
      refine ⟨hm.sound.keep hacct rfl rfl ?_ (fun s hs f hf' => .inl (hframe s hs ▸ hf')) ?_ ?_, rfl,
        fun s hs f hf' => .inl (hframe s hs ▸ hf')⟩
      · intro s hs t ht'
        rw [htab₂ s hs] at ht'
        split at ht'
        · cases ht'
        · exact .inl ht'
      · intro f _ hfd
        funext j
        have hne : ¬(f = d ∧ j = i) := fun hc => hfd (hc.1 ▸ hd)
        rw [hmem, if_neg hne]
      · intro d' _ j
        rw [hmem]
        split
        · rename_i hc
          exact .inr ⟨hc.2 ▸ hi, readOnly_zero⟩
        · exact .inl rfl
    refine ⟨((hm.trans hdrop).trans (hdrop.sound.tlb _)).mono ?_, ?_, ?_⟩
    · rintro d' f ((hf | hf) | hf) <;> exact hf
    · show p₃.table (d, i) = none
      rw [htab₂ _ hslot, if_pos rfl]
    · intro j hj hjn
      show p₃.table (d, j) = none
      have hslot' : (d, j) ∈ tableSlots utopEntries g.dirs := mem_tableSlots.2 ⟨hd, hj⟩
      rw [htab₂ _ hslot']
      split
      · rfl
      · rw [htab _ hslot', hjn]
  · rename_i hv
    cases hf
    exact ⟨.refl h, table_none (Bool.eq_false_iff.2 hv), fun _ _ hj => hj⟩

theorem freeTables {d : Nat} {asid : Word} : ∀ (is : List Nat) {p p' : Pmap}, (∀ i ∈ is, i < utopEntries) →
    Sound base p g → d ∈ g.dirs → (∀ i < utopEntries, i ∉ is → p.table (d, i) = none) →
    is.foldlM (envFreeTable d asid) p = some p' →
    Maps base nothing p p' g g ∧ ∀ i < utopEntries, p'.table (d, i) = none
  | [], p, p', _, h, _, hnone, hf => by
    cases hf
    exact ⟨.refl h, fun i hi => hnone i hi List.not_mem_nil⟩
  | i :: is, p, p', his, h, hd, hnone, hf => by
    rw [List.foldlM_cons] at hf
    obtain ⟨p₁, hstep, hrest⟩ := Option.bind_eq_some_iff.1 hf
    obtain ⟨hm, hi, hother⟩ := h.freeTable hd (his i List.mem_cons_self) hstep
    obtain ⟨hm', hnone'⟩ := freeTables is (fun j hj => his j (List.mem_cons_of_mem _ hj)) hm.sound hd (fun j hj hn => by
      by_cases hji : j = i
      · rw [hji]
        exact hi
      · exact hother j hj (hnone j hj (fun hc => (List.mem_cons.1 hc).elim hji hn))) hrest
    refine ⟨(hm.trans hm').mono ?_, hnone'⟩
    rintro d' f (hf | hf) <;> exact hf

/-- **An address space is given back**: the kernel holds its directory no more. -/
theorem freeSpace_held (h : Sound base p g) {d : Nat} {asid : Word} (hd : d ∈ g.dirs)
    (hf : envFreePages d asid p = some p') :
    Sound base p' { g with dirs := g.dirs.erase d, held := Function.update g.held d 0 } ∧
      ∀ s ∈ pageSlots utopEntries (g.dirs.erase d), ∀ f, p'.frame s = some f → p.frame s = some f := by
  unfold envFreePages at hf
  obtain ⟨p₁, hloop, hrest⟩ := Option.bind_eq_some_iff.1 hf
  obtain ⟨d', hpa, hrest⟩ := Option.bind_eq_some_iff.1 hrest
  obtain ⟨p₂, hdec, rfl⟩ := Option.map_eq_some_iff.1 hrest
  obtain ⟨hm, hnone⟩ := freeTables (List.range (pdx utop)) (fun i hi => List.mem_range.1 hi) h hd
    (fun i hi hn => absurd (List.mem_range.2 hi) hn) hloop
  obtain rfl : d = d' := by
    unfold pa2page at hpa
    rw [ppn_page2pa (h.dir_lt hd)] at hpa
    split at hpa
    · exact Option.some.inj hpa
    · cases hpa
  obtain ⟨p₃, hdec', hmem, hn, hacct⟩ := hm.sound.acct.dropDir hd (h.one d hd) hnone
  obtain rfl : p₃ = p₂ := by simpa using hdec'.symm.trans hdec
  have hsound := hm.sound.restrict hd hacct rfl hmem (fun f hfd => Function.update_of_ne hfd _ _)
  refine ⟨(hsound.tlb _).sound, ?_⟩
  intro s hs f hf'
  have hs' : s ∈ pageSlots utopEntries g.dirs :=
    mem_pageSlots.2 ⟨Finset.mem_of_mem_erase (mem_pageSlots.1 hs).1, (mem_pageSlots.1 hs).2⟩
  have hf₁ : p₁.frame s = some f := by
    have hf₃ : p₃.frame s = some f := hf'
    unfold Pmap.frame Pmap.pte Pmap.table at hf₃ ⊢
    rw [hmem] at hf₃
    exact hf₃
  exact (hm.pages s hs' f hf₁).elim id (fun hc => hc.elim)

theorem freeSpace (h : Sound base p g) {d : Nat} {asid : Word} (hd : d ∈ g.dirs)
    (hf : envFreePages d asid p = some p') : ∃ g', Sound base p' g' ∧ g'.dirs = g.dirs.erase d ∧
      ∀ s ∈ pageSlots utopEntries (g.dirs.erase d), ∀ f, p'.frame s = some f → p.frame s = some f := by
  obtain ⟨hsound, hpages⟩ := h.freeSpace_held hd hf
  exact ⟨_, hsound, rfl, hpages⟩

end Sound

end Mos
