import Mathlib.Data.Fintype.Basic
import Mos.Bare
/-!
# Returning — `env_free` gives back the memory of an environment

`env_free` goes over the entries of the directory below `UTOP`, and drops one reference for every page and every table
it finds, and one for the directory.  While no directory has other entries of its own, this is every reference the
environment has: a frame that nothing else refers to ends up on the free list, once, and the count of any other frame
is again the number of its references.
-/
namespace Mos

/-! ## References of directories -/

/-- The directories of the environments. -/
def Kernel.dirs (k : Kernel) : Finset Nat :=
  (Finset.univ.filter fun e => (k.envs e).envStatus ≠ .free).image fun e => (k.envs e).envPgdir

/-- **The references of `f` from the directories `D`**: as a directory, as a table of one of their own entries, and as
a page of such a table. -/
def refsFrom (k : Kernel) (D : Finset Nat) (f : Nat) : Nat :=
  (if f ∈ D then 1 else 0) + count (D ×ˢ k.ownEntries) k.pm.table f +
    count (D ×ˢ k.ownEntries ×ˢ Finset.range pageWords) k.pm.frame f

theorem mem_ownPages {k : Kernel} {D : Finset Nat} {s : Nat × Nat × Nat} :
    s ∈ D ×ˢ k.ownEntries ×ˢ Finset.range pageWords ↔ s.1 ∈ D ∧ s.2.1 ∈ k.ownEntries ∧ s.2.2 < pageWords := by
  rw [Finset.mem_product, Finset.mem_product, Finset.mem_range]

/-- **The memory of `e` is returned.** -/
structure Returned (k k' : Kernel) (e : EnvIx) : Prop where
  freed : ∀ f < k.pm.npage, k.pm.ppRef f ≠ 0 → (k.pm.ppRef f).toNat = refsFrom k {(k.envs e).envPgdir} f →
    k'.pm.pageFreeList.count f = 1
  shared : ∀ f < k'.pm.npage, 0 < refsFrom k' k'.dirs f → (k'.pm.ppRef f).toNat = refsFrom k' k'.dirs f

theorem utop_own {k : Kernel} {i : Nat} (h : i < utopEntries) : i ∈ k.ownEntries := by
  have hlt : utopEntries < pageWords := pdx_lt utop
  have huv : utopEntries < pdx uvpt := by decide
  exact mem_ownEntries.2 ⟨Nat.lt_trans h hlt, Nat.ne_of_lt (Nat.lt_trans h huv), .inl h⟩

namespace Framed

variable {k : Kernel} {g : Ledger}

theorem dirs_eq (h : Framed k g) : k.dirs = g.dirs := by
  ext d
  rw [h.dirs d]
  simp [Kernel.dirs]

/-- **A bare directory has the references below `UTOP`.** -/
theorem refsFrom_eq (h : Framed k g) (hb : Bare k) {D : Finset Nat} (hD : D ⊆ g.dirs) (f : Nat) : refsFrom k D f =
    (if f ∈ D then 1 else 0) + count (tableSlots utopEntries D) k.pm.table f +
      count (pageSlots utopEntries D) k.pm.frame f := by
  have hnone : ∀ d ∈ D, ∀ i ∈ k.ownEntries, ¬i < utopEntries → k.pm.table (d, i) = none := by
    intro d hd i hi hlt
    obtain ⟨e, he, rfl⟩ := (h.dirs d).1 (hD hd)
    exact Sound.table_none (hb e he i hi (Nat.not_lt.1 hlt))
  have htables : count (D ×ˢ k.ownEntries) k.pm.table f = count (tableSlots utopEntries D) k.pm.table f := by
    refine count_subset (fun s hs => ?_) (fun s hs hn => ?_) f
    · obtain ⟨hd, hi⟩ := mem_tableSlots.1 hs
      exact Finset.mem_product.2 ⟨hd, utop_own hi⟩
    · obtain ⟨hd, hi⟩ := Finset.mem_product.1 hs
      exact hnone s.1 hd s.2 hi fun hlt => hn (mem_tableSlots.2 ⟨hd, hlt⟩)
  have hframes : count (D ×ˢ k.ownEntries ×ˢ Finset.range pageWords) k.pm.frame f =
      count (pageSlots utopEntries D) k.pm.frame f := by
    refine count_subset (fun s hs => ?_) (fun s hs hn => ?_) f
    · obtain ⟨hd, hi, hj⟩ := mem_pageSlots.1 hs
      exact mem_ownPages.2 ⟨hd, utop_own hi, hj⟩
    · obtain ⟨hd, hi, hj⟩ := mem_ownPages.1 hs
      have ht := hnone s.1 hd s.2.1 hi fun hlt => hn (mem_pageSlots.2 ⟨hd, hlt, hj⟩)
      unfold Pmap.frame
      rw [show s = (s.1, s.2.1, s.2.2) from rfl, Acct.pte_none_of_table ht]
      rfl
  unfold refsFrom
  rw [htables, hframes]

theorem ref_eq (h : Framed k g) (hb : Bare k) {f : Nat} (hf : f < k.pm.npage) (hpos : 0 < refsFrom k k.dirs f) :
    (k.pm.ppRef f).toNat = refsFrom k k.dirs f := by
  rw [h.dirs_eq, h.refsFrom_eq hb (Finset.Subset.refl _)] at hpos ⊢
  rw [h.sound.acct.ref f hf]
  unfold refs
  have hheld : g.held f = if f ∈ g.dirs then 1 else 0 := by
    split
    · rename_i hd
      exact h.sound.one f hd
    · rename_i hd
      rw [if_neg hd] at hpos
      by_cases ht : count (tableSlots utopEntries g.dirs) k.pm.table f = 0
      · obtain ⟨s, hs⟩ := Finset.card_pos.1 (show 0 < count (pageSlots utopEntries g.dirs) k.pm.frame f by omega)
        obtain ⟨hs, hsf⟩ := Finset.mem_filter.1 hs
        exact h.sound.frame s hs f hsf
      · obtain ⟨s, hs⟩ := Finset.card_pos.1 (Nat.pos_of_ne_zero ht)
        obtain ⟨hs, hsf⟩ := Finset.mem_filter.1 hs
        exact h.sound.table s hs f hsf
  rw [hheld]
  omega

end Framed

/-! ## The pages of a directory -/

namespace Sound

variable {base d : Nat} {p p' : Pmap} {g : Ledger}

theorem freeEntries_some (asid : Word) (t : Nat) {i : Nat} (hi : i < utopEntries) :
    ∀ (js : List Nat) {p : Pmap}, (∀ j ∈ js, j < pageWords) →
    Sound base p g → d ∈ g.dirs → ∃ p', js.foldlM (fun p j => if valid (p.mem t j) then
      pageRemove p d asid (BitVec.ofNat 32 i <<< pdshift ||| BitVec.ofNat 32 j <<< pgshift) else some p) p = some p' ∧
      p'.npage = p.npage
  | [], p, _, _, _ => ⟨p, rfl, rfl⟩
  | j :: js, p, hjs, h, hd => by
    have htail : ∀ j' ∈ js, j' < pageWords := fun j' hj' => hjs j' (List.mem_cons_of_mem _ hj')
    rw [List.foldlM_cons]
    by_cases hv : valid (p.mem t j) = true
    · have hso := slotOf_free (d := d) (Nat.lt_trans hi (pdx_lt utop)) (hjs j List.mem_cons_self)
      have hva : BitVec.ofNat 32 i <<< pdshift ||| BitVec.ofNat 32 j <<< pgshift < utop := by
        have hpd := congrArg (fun s => s.2.1) hso
        exact pdx_lt_utop.1 (hpd.trans_lt hi)
      obtain ⟨p₁, hr, -, hn, -⟩ := h.acct.removePage hd (pdx_lt_utop.2 hva) asid
      obtain ⟨p', hrest, hn'⟩ := freeEntries_some asid t hi js htail (h.remove hd hva hr).1.sound hd
      rw [if_pos hv, hr]
      exact ⟨p', hrest, hn'.trans hn⟩
    · obtain ⟨p', hrest, hn'⟩ := freeEntries_some asid t hi js htail h hd
      rw [if_neg hv]
      exact ⟨p', hrest, hn'⟩

theorem freeTable_some (asid : Word) (h : Sound base p g) {i : Nat} (hd : d ∈ g.dirs) (hi : i < utopEntries) :
    ∃ p', envFreeTable d asid p i = some p' ∧ p'.npage = p.npage := by
  unfold envFreeTable
  split
  · rename_i hv
    have hslot : (d, i) ∈ tableSlots utopEntries g.dirs := mem_tableSlots.2 ⟨hd, hi⟩
    have ht : p.table (d, i) = some (ppn (p.mem d i)) := by
      unfold Pmap.table
      rw [if_pos hv]
    have hlt := h.acct.tree.table_lt _ hslot _ ht
    obtain ⟨p₁, hloop, hn⟩ := freeEntries_some asid (ppn (p.mem d i)) hi (List.range pageWords)
      (fun j hj => List.mem_range.1 hj) h hd
    obtain ⟨hm, htab, hnone⟩ := h.freeEntries hi (List.range pageWords) (fun j hj => List.mem_range.1 hj) hd ht
      (fun j hj hn => absurd (List.mem_range.2 hj) hn) hloop
    obtain ⟨p₂, hdec, -, hn₂, -⟩ := hm.sound.acct.dropTable hd hi ((htab _ hslot).trans ht) hnone
    refine ⟨tlbInvalidate p₂ asid (uvpt + BitVec.ofNat 32 i <<< pgshift), ?_, hn₂.trans hn⟩
    have hk : kaddr p (pteAddr (p.mem d i)) = some (ppn (p.mem d i)) := by
      unfold kaddr
      rw [ppn_pteAddr, if_pos hlt]
    have hp : pa2page (p₁.write (d, i) 0) (pteAddr (p.mem d i)) = some (ppn (p.mem d i)) := by
      unfold pa2page
      rw [ppn_pteAddr]
      exact if_pos (hn.symm ▸ hlt)
    dsimp only
    rw [hk, Option.bind_some, hloop, Option.bind_some, hp, Option.bind_some, hdec, Option.map_some]
  · exact ⟨p, rfl, rfl⟩

theorem freeTables_some (asid : Word) :
    ∀ (is : List Nat) {p : Pmap}, (∀ i ∈ is, i < utopEntries) → Sound base p g → d ∈ g.dirs →
    ∃ p', is.foldlM (envFreeTable d asid) p = some p' ∧ p'.npage = p.npage
  | [], p, _, _, _ => ⟨p, rfl, rfl⟩
  | i :: is, p, his, h, hd => by
    have hi := his i List.mem_cons_self
    obtain ⟨p₁, hstep, hn⟩ := h.freeTable_some asid hd hi
    obtain ⟨p', hrest, hn'⟩ := freeTables_some asid is (fun i' hi' => his i' (List.mem_cons_of_mem _ hi'))
      (h.freeTable hd hi hstep).1.sound hd
    rw [List.foldlM_cons, hstep]
    exact ⟨p', hrest, hn'.trans hn⟩

/-- **`env_free` comes to the end of a directory.** -/
theorem freeSpace_some (asid : Word) (h : Sound base p g) (hd : d ∈ g.dirs) :
    ∃ p', envFreePages d asid p = some p' ∧ p'.npage = p.npage := by
  obtain ⟨p₁, hloop, hn⟩ := h.freeTables_some asid (List.range (pdx utop)) (fun i hi => List.mem_range.1 hi) hd
  obtain ⟨hm, hnone⟩ := freeTables (List.range (pdx utop)) (fun i hi => List.mem_range.1 hi) h hd
    (fun i hi hn => absurd (List.mem_range.2 hi) hn) hloop
  obtain ⟨p₂, hdec, -, hn₂, -⟩ := hm.sound.acct.dropDir hd (h.one d hd) hnone
  have hp : pa2page p₁ (page2pa d) = some d := by
    unfold pa2page
    rw [ppn_page2pa (h.dir_lt hd)]
    exact if_pos (hn.symm ▸ h.acct.tree.dir_lt d hd)
  refine ⟨tlbInvalidate p₂ asid (uvpt + BitVec.ofNat 32 (pdx uvpt) <<< pgshift), ?_, hn₂.trans hn⟩
  unfold envFreePages
  rw [hloop, Option.bind_some, hp, Option.bind_some, hdec, Option.map_some]

/-- **What only `d` refers to is free**, once, after `d` is gone. -/
theorem freeSpace_free {asid : Word} (h : Sound base p g) (hd : d ∈ g.dirs) (hf : envFreePages d asid p = some p')
    {f : Nat} (hlt : f < p.npage) (hr : p.ppRef f ≠ 0)
    (hone : (p.ppRef f).toNat = (if f = d then 1 else 0) + count (tableSlots utopEntries {d}) p.table f +
      count (pageSlots utopEntries {d}) p.frame f) :
    p'.pageFreeList.count f = 1 := by
  obtain ⟨hsound, hpages⟩ := h.freeSpace_held hd hf
  have hn : p'.npage = p.npage := by
    obtain ⟨q, hq, hn⟩ := h.freeSpace_some asid hd
    obtain rfl := Option.some.inj (hq.symm.trans hf)
    exact hn
  have hunion : {d} ∪ g.dirs.erase d = g.dirs := by
    rw [← Finset.insert_eq, Finset.insert_erase hd]
  have hdisj : Disjoint {d} (g.dirs.erase d) := by
    rw [Finset.disjoint_singleton_left]
    exact Finset.notMem_erase d g.dirs
  -- the references are those of `d` and those of the others
  have htables : count (tableSlots utopEntries g.dirs) p.table f =
      count (tableSlots utopEntries {d}) p.table f + count (tableSlots utopEntries (g.dirs.erase d)) p.table f := by
    rw [← count_union]
    · unfold tableSlots
      rw [← Finset.union_product, hunion]
    · exact Finset.disjoint_product.2 (.inl hdisj)
  have hframes : count (pageSlots utopEntries g.dirs) p.frame f =
      count (pageSlots utopEntries {d}) p.frame f + count (pageSlots utopEntries (g.dirs.erase d)) p.frame f := by
    rw [← count_union]
    · unfold pageSlots
      rw [← Finset.union_product, hunion]
    · exact Finset.disjoint_product.2 (.inl hdisj)
  have hrefs := h.acct.ref f hlt
  unfold refs at hrefs
  -- the others keep theirs
  have htables' : count (tableSlots utopEntries (g.dirs.erase d)) p'.table f ≤
      count (tableSlots utopEntries (g.dirs.erase d)) p.table f := by
    refine Nat.le_of_eq (count_congr (fun s hs => ?_) f)
    obtain ⟨hsd, -⟩ := mem_tableSlots.1 hs
    have hmem : p'.mem s.1 s.2 = p.mem s.1 s.2 := h.freeSpace_mem hd hf s.1
      (Finset.mem_insert_of_mem (Finset.mem_of_mem_erase hsd)) s.2 (.inl (Finset.ne_of_mem_erase hsd))
    unfold Pmap.table
    rw [hmem]
  have hframes' : count (pageSlots utopEntries (g.dirs.erase d)) p'.frame f ≤
      count (pageSlots utopEntries (g.dirs.erase d)) p.frame f := count_le fun s hs hsf => hpages s hs f hsf
  have hzero : refs utopEntries p' { g with dirs := g.dirs.erase d, held := Function.update g.held d 0 } f = 0 := by
    show count (tableSlots utopEntries (g.dirs.erase d)) p'.table f +
      count (pageSlots utopEntries (g.dirs.erase d)) p'.frame f + Function.update g.held d 0 f = 0
    by_cases hfd : f = d
    · subst hfd
      have hheld := h.one f hd
      rw [if_pos rfl] at hone
      rw [Function.update_self]
      omega
    · rw [if_neg hfd] at hone
      rw [Function.update_of_ne hfd]
      omega
  have hzero' : p'.ppRef f = 0 := by
    have href := hsound.acct.ref f (hn.symm ▸ hlt)
    rw [hzero] at href
    exact BitVec.eq_of_toNat_eq href
  have hlimbo : f ∉ g.limbo := fun hc => hr (h.acct.limbo f hc).2
  exact List.count_eq_one_of_mem hsound.acct.nodup ((hsound.acct.free f).2 ⟨hn.symm ▸ hlt, hzero', hlimbo⟩)

end Sound

/-! ## Runs -/

/-- What a run keeps. -/
structure Kept (k : Kernel) : Prop where
  alive : k.procs.Alive
  framed : ∃ g, Framed k g
  bare : Bare k

namespace Kept

variable {k k' : Kernel}

theorem linked (h : Linked k) : Kept k := ⟨booted_alive h.booted, linked_framed h, Bare.linked h⟩

theorem step {a : Act} (h : Kept k) (hsafe : MapSafe k a ∧ TopSafe k a) (hs : Mos.step k a = some k') : Kept k' := by
  obtain ⟨g, hg⟩ := h.framed
  obtain ⟨g', hsh⟩ := hg.step h.alive hsafe.1 hs
  exact ⟨alive_of_moves h.alive (step_moves hs), ⟨g', hsh.framed⟩, h.bare.step hg h.alive hsafe.2 hs⟩

/-- **`env_free` of one environment.** -/
theorem returned (h : Kept k) {e : EnvIx} (he : (k.envs e).envStatus ≠ .free) (hf : envFree k e = some k') :
    Returned k k' e := by
  obtain ⟨g, hg⟩ := h.framed
  have hd := hg.mem he
  obtain ⟨g', hsh⟩ := hg.free he hf
  have hb' := h.bare.free hg he hf
  have hf₀ := hf
  unfold envFree at hf₀
  obtain ⟨pm, hpm, hrest⟩ := Option.bind_eq_some_iff.1 hf₀
  obtain ⟨q, -, hk'⟩ := Option.map_eq_some_iff.1 hrest
  have hpm' : k'.pm = pm := by
    rw [← hk']
    rfl
  refine ⟨fun f hlt hr hone => ?_, fun f hlt hpos => hsh.framed.ref_eq hb' hlt hpos⟩
  rw [hg.refsFrom_eq h.bare (Finset.singleton_subset_iff.2 hd)] at hone
  simp only [Finset.mem_singleton] at hone
  rw [hpm']
  exact hg.sound.freeSpace_free hd hpm hlt hr hone

end Kept

/-- **Memory is returned** in every run whose calls are safe and whose accesses fill no entry from `UTOP` on: the
pages of any environment can be given back, and `env_free` leaves nothing behind. -/
theorem memory_returned (k : Kernel) (h : Run Linked Mos.step (fun k a => MapSafe k a ∧ TopSafe k a) k) (e : EnvIx)
    (he : (k.envs e).envStatus ≠ .free) : (∃ pm, envFreePages (k.envs e).envPgdir (k.envs e).envAsid k.pm = some pm) ∧
      ∀ k', envFree k e = some k' → Returned k k' e := by
  have hk := Run.invariant Kept (fun _ => Kept.linked) (fun _ _ _ hi ho hs => hi.step ho hs) k h
  obtain ⟨g, hg⟩ := hk.framed
  obtain ⟨pm, hpm, -⟩ := hg.sound.freeSpace_some (k.envs e).envAsid (hg.mem he)
  exact ⟨⟨pm, hpm⟩, fun k' => hk.returned he⟩

/-! ## The small machine -/

/-- A check that implies the guard of `memory_returned`. -/
def returnSafeB (k : Kernel) (a : Act) : Bool :=
  Granted.mapSafeB { kernel := k, grants := fun _ _ => False } a && decide (TopSafe k a)

theorem returnSafe_of_returnSafeB (k : Kernel) (a : Act) (h : returnSafeB k a = true) : MapSafe k a ∧ TopSafe k a := by
  unfold returnSafeB at h
  rw [Bool.and_eq_true, decide_eq_true_eq] at h
  exact ⟨Granted.mapSafe_of_mapSafeB _ a h.1, h.2⟩

/-- A page is allocated, and the environment goes. -/
theorem memory_returned_page : ∃ k k', (k.frameAt 0 2 0).isSome ∧ envFree k 0 = some k' ∧ Returned k k' 0 := by
  obtain ⟨k, hr, hk⟩ :=
    @Run.exists_of_exec Kernel Act Linked Mos.step (fun k a => MapSafe k a ∧ TopSafe k a) returnSafeB
    returnSafe_of_returnSafeB [.tick, .exec stackFrame, .syscall (.memAlloc 0 0x800000 pteD) 0]
    (mipsInit smallBoard [emptyProgram]) Granted.linked_small
    (fun k => decide ((k.envs 0).envStatus ≠ .free) && (k.frameAt 0 2 0).isSome && (envFree k 0).isSome)
    (by decide +kernel)
  rw [Bool.and_eq_true, Bool.and_eq_true, decide_eq_true_eq] at hk
  obtain ⟨⟨hlive, hpage⟩, hfree⟩ := hk
  obtain ⟨k', hk'⟩ := Option.isSome_iff_exists.1 hfree
  exact ⟨k, k', hpage, hk', (memory_returned k hr 0 hlive).2 k' hk'⟩

/-- A frame in one own entry of the directory `d`, and nowhere else in it. -/
theorem refsFrom_single {k : Kernel} {d f i₀ : Nat} (hfd : f ≠ d) (hi₀ : i₀ ∈ k.ownEntries)
    (ht : k.pm.table (d, i₀) = some f) (hother : ∀ i ∈ k.ownEntries, k.pm.table (d, i) = some f → i = i₀)
    (hpage : ∀ i ∈ k.ownEntries, ∀ j < pageWords, k.pm.frame (d, i, j) ≠ some f) : refsFrom k {d} f = 1 := by
  have htables : count ({d} ×ˢ k.ownEntries) k.pm.table f = 1 := by
    have hslot : (d, i₀) ∈ {d} ×ˢ k.ownEntries := Finset.mem_product.2 ⟨Finset.mem_singleton_self d, hi₀⟩
    refine count_eq_one hslot ht fun s hs hsf => ?_
    obtain ⟨hd, hi⟩ := Finset.mem_product.1 hs
    obtain ⟨d', i⟩ := s
    obtain rfl := Finset.mem_singleton.1 hd
    rw [hother i hi hsf]
  have hframes : count ({d} ×ˢ k.ownEntries ×ˢ Finset.range pageWords) k.pm.frame f = 0 := by
    have hnone : ∀ s : Nat × Nat × Nat, s.1 = d ∧ s.2.1 ∈ k.ownEntries ∧ s.2.2 < pageWords → k.pm.frame s ≠ some f := by
      rintro ⟨d', i, j⟩ ⟨rfl, hi, hj⟩
      exact hpage i hi j hj
    rw [count_eq_zero]
    simpa only [mem_ownPages, Finset.mem_singleton] using hnone
  unfold refsFrom
  have hnot : f ∉ ({d} : Finset Nat) := fun hc => hfd (Finset.mem_singleton.1 hc)
  rw [htables, hframes, if_neg hnot]

/-- The own entry `i₀` of `e` has a frame that nothing else refers to. -/
def aloneB (k : Kernel) (e : EnvIx) (i₀ : Nat) : Bool :=
  (k.pm.table ((k.envs e).envPgdir, i₀)).any fun f =>
    decide (f < k.pm.npage ∧ k.pm.ppRef f = 1 ∧ f ≠ (k.envs e).envPgdir) &&
    (List.range pageWords).all fun i =>
      decide (i = pdx uvpt ∨ ¬(i < utopEntries ∨ pdx uvpt < i ∨ valid (k.pm.mem k.basePgdir i) = false)) ||
      (k.pm.table ((k.envs e).envPgdir, i)).all fun t => decide (t = f → i = i₀) &&
        (List.range pageWords).all fun j => decide (k.pm.frame ((k.envs e).envPgdir, i, j) ≠ some f)

theorem of_aloneB {k : Kernel} {e : EnvIx} {i₀ : Nat} (h : aloneB k e i₀ = true) (hi₀ : i₀ ∈ k.ownEntries) :
    ∃ f < k.pm.npage, k.pm.table ((k.envs e).envPgdir, i₀) = some f ∧ k.pm.ppRef f = 1 ∧
      refsFrom k {(k.envs e).envPgdir} f = 1 := by
  obtain ⟨f, hf, hall⟩ := (Option.any_eq_true _ _).1 h
  rw [Bool.and_eq_true, decide_eq_true_eq] at hall
  obtain ⟨⟨hlt, hr, hfd⟩, hall⟩ := hall
  have hown : ∀ i ∈ k.ownEntries, ∀ t, k.pm.table ((k.envs e).envPgdir, i) = some t → (t = f → i = i₀) ∧
      ∀ j < pageWords, k.pm.frame ((k.envs e).envPgdir, i, j) ≠ some f := by
    intro i hi t ht
    obtain ⟨hlt, hne, hemp⟩ := mem_ownEntries.1 hi
    have hone := List.all_eq_true.1 hall i (List.mem_range.2 hlt)
    rw [Bool.or_eq_true, decide_eq_true_eq, ht, Option.all_some, Bool.and_eq_true, decide_eq_true_eq] at hone
    rcases hone with hc | ⟨hti, hpages⟩
    · exact absurd hc (not_or.2 ⟨hne, not_not.2 hemp⟩)
    · exact ⟨hti, fun j hj => of_decide_eq_true (List.all_eq_true.1 hpages j (List.mem_range.2 hj))⟩
  refine ⟨f, hlt, hf, hr, refsFrom_single hfd hi₀ hf (fun i hi ht => (hown i hi f ht).1 rfl) fun i hi j hj hc => ?_⟩
  obtain ⟨w, hw, -⟩ := frame_eq_some hc
  obtain ⟨t, ht, -⟩ := table_of_pte hw
  exact (hown i hi t ht).2 j hj hc

/-- **`passive_alloc` fills an entry that `env_free` does not visit**: a read of `vpd` from index 512 on. -/
theorem memory_returned_fails : ¬∀ k, Reach Linked Mos.step k → ∀ e, (k.envs e).envStatus ≠ .free →
    ∀ k', envFree k e = some k' → Returned k k' e := by
  obtain ⟨k, hr, hk⟩ := @Run.exists_of_exec Kernel Act Linked Mos.step (fun _ _ => True) (fun _ _ => true)
    (fun _ _ _ => trivial) [.tick, .exec stackFrame, .miss (uvpt + 0x200000) 0]
    (mipsInit smallBoard [emptyProgram]) Granted.linked_small
    (fun k => decide ((k.envs 0).envStatus ≠ .free) && aloneB k 0 512 && (envFree k 0).any fun (k' : Kernel) =>
      (k.pm.table ((k.envs 0).envPgdir, 512)).any fun f => decide (f ∉ k'.pm.pageFreeList)) (by decide +kernel)
  rw [Bool.and_eq_true, Bool.and_eq_true, decide_eq_true_eq] at hk
  obtain ⟨⟨hlive, halone⟩, hleft⟩ := hk
  obtain ⟨k', hk', hleft⟩ := (Option.any_eq_true _ _).1 hleft
  obtain ⟨f, hlt, hf, hone, hrefs⟩ :=
    of_aloneB halone (mem_ownEntries.2 ⟨by decide, by decide, .inr (.inl (by decide))⟩)
  rw [hf, Option.any_some, decide_eq_true_eq] at hleft
  intro hall
  have hcount := (hall k hr 0 hlive k' hk').freed f hlt (by rw [hone]; decide) (by rw [hone, hrefs]; rfl)
  rw [List.count_eq_zero_of_not_mem hleft] at hcount
  cases hcount

end Mos
