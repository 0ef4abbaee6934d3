import Mos.Isolation
import Mos.Keeping
/-!
# Integrity — where the contents of a page come from

A page of an environment is a frame that a live environment has mapped.  No operation of the kernel writes to a page,
and one that becomes a page is blank.  So what a word of a page holds was stored there, at an address that an
environment had mapped to the page with `PTE_D`.
-/
namespace Mos

/-- The frame is mapped from one of the directories. -/
def Pmap.Page (p : Pmap) (D : Finset Nat) (f : Nat) : Prop := ∃ s ∈ pageSlots utopEntries D, p.frame s = some f

/-- **What an operation leaves of the pages**: a page keeps its words, and a frame that becomes a page has none. -/
structure Clean (D : Finset Nat) (p p' : Pmap) : Prop where
  kept : ∀ f, p.Page D f → p'.Page D f → p'.mem f = p.mem f
  blank : ∀ f, ¬p.Page D f → p'.Page D f → p'.mem f = fun _ => 0

namespace Clean

variable {D : Finset Nat} {p p₁ p' : Pmap}

theorem of_sub (hsub : ∀ f, p'.Page D f → p.Page D f) (hmem : ∀ f, p.Page D f → p'.mem f = p.mem f) : Clean D p p' :=
  ⟨fun f hf _ => hmem f hf, fun f hf hf' => absurd (hsub f hf') hf⟩

theorem trans (h : Clean D p p₁) (h' : Clean D p₁ p') (hk : ∀ f, p.Page D f → p₁.Page D f) : Clean D p p' := by
  refine ⟨fun f hf hf' => ?_, fun f hf hf' => ?_⟩
  · rw [h'.kept f (hk f hf) hf', h.kept f hf (hk f hf)]
  · by_cases h₁ : p₁.Page D f
    · rw [h'.kept f h₁ hf', h.blank f hf h₁]
    · exact h'.blank f h₁ hf'

end Clean

theorem Keeps.page {D : Finset Nat} {p p' : Pmap} (h : Keeps D p p') (f : Nat) (hf : p.Page D f) : p'.Page D f := by
  obtain ⟨s, hs, hf⟩ := hf
  exact ⟨s, hs, h.frame hs hf⟩

theorem SameMaps.page {D : Finset Nat} {p p' : Pmap} (h : SameMaps utopEntries D p p') (f : Nat) :
    p'.Page D f ↔ p.Page D f := by
  unfold Pmap.Page
  refine exists_congr fun s => and_congr_right fun hs => ?_
  rw [h.frame s hs]

namespace Sound

variable {base d : Nat} {asid va : Word} {p p' : Pmap} {g g' : Ledger}

theorem page_usable (h : Sound base p g) {f : Nat} (hf : p.Page g.dirs f) : Acct.Usable utopEntries p g f := by
  obtain ⟨s, hs, hf⟩ := hf
  exact h.acct.usable_of_frame hs hf

theorem same_clean (hs : SameMaps utopEntries g.dirs p p') (hm : ∀ f, p.Page g.dirs f → p'.mem f = p.mem f) :
    Clean g.dirs p p' :=
  .of_sub (fun f => (hs.page f).1) hm

theorem tlb_clean (tlb : List TlbEntry) : Clean g.dirs p { p with tlb := tlb } :=
  same_clean ⟨fun _ _ => rfl, fun _ _ => rfl⟩ fun _ _ => rfl

theorem alloc_mem_ne (h : Sound base p g) {pp f : Nat} (ha : pageAlloc p = some (pp, p')) (hf : p.Page g.dirs f) :
    f ≠ pp ∧ p'.mem f = p.mem f := by
  obtain ⟨rest, hr, rfl⟩ := pageAlloc_eq ha
  have hne : f ≠ pp := by
    rintro rfl
    exact (h.page_usable hf).notFree (by simp [hr])
  exact ⟨hne, Function.update_of_ne hne _ _⟩

theorem alloc_clean (h : Sound base p g) {pp : Nat} (ha : pageAlloc p = some (pp, p')) : Clean g.dirs p p' :=
  same_clean (h.alloc_same ha) fun _ hf => (h.alloc_mem_ne ha hf).2

theorem remove_clean (h : Sound base p g) (hd : d ∈ g.dirs) (hva : va < utop) (hr : pageRemove p d asid va = some p') :
    Clean g.dirs p p' := by
  obtain ⟨p₁, hr₁, -, -, -, hset, -, -, hmem, -⟩ := h.acct.removePage hd (pdx_lt_utop.2 hva) asid
  obtain rfl : p₁ = p' := by simpa using hr₁.symm.trans hr
  apply Clean.of_sub
  · rintro f ⟨s, hs, hf⟩
    refine ⟨s, hs, ?_⟩
    unfold Pmap.frame at hf ⊢
    rw [hset s hs] at hf
    split at hf
    · cases hf
    · exact hf
  · exact fun f hf => hmem f (h.page_usable hf).outside

/-- **`page_insert` of a page**, which is one already or blank. -/
theorem inserted_clean {pp : Nat} {perm : Word} (h : Sound base p g)
    (hins : Acct.Inserted utopEntries p p' g d va pp perm) (hu : Acct.Usable utopEntries p g pp)
    (hperm : pp ||| ppn perm = pp) (hblank : ¬p.Page g.dirs pp → p.mem pp = fun _ => 0) :
    Clean g.dirs p p' := by
  have hmem : ∀ f, Acct.Usable utopEntries p g f → p'.mem f = p.mem f :=
    fun f hf => hins.mem f hf.outside fun _ => hf.notFree
  refine ⟨fun f hf _ => hmem f (h.page_usable hf), fun f hf hf' => ?_⟩
  obtain ⟨s, hs, hfr⟩ := hf'
  unfold Pmap.frame at hfr
  rw [hins.pte s hs] at hfr
  split at hfr
  · have hpp : ppn (entryOf pp perm) = pp := by rw [ppn_entryOf (Nat.lt_of_lt_of_le hu.lt h.acct.npage_le), hperm]
    rw [Option.map_some, hpp, Option.some.injEq] at hfr
    subst hfr
    rw [hmem pp hu, hblank hf]
  · exact absurd ⟨s, hs, hfr⟩ hf

/-! ## Accesses -/

theorem passive_clean (h : Sound base p g) (hd : d ∈ g.dirs) (hl : pageLookup p d va = some none)
    (hp : passiveAlloc p d asid va = some p') : Clean g.dirs p p' := by
  by_cases hva : va < utop
  · obtain ⟨-, -, pp, p₁, ha, hi⟩ := passive_page hp
    obtain ⟨-, -, -, hm⟩ := h.alloc ha
    have hlimbo := Finset.mem_insert_self pp g.limbo
    have hu := hm.sound.acct.usable_of_limbo hlimbo
    have hr0 : p₁.ppRef pp = 0 := (hm.sound.acct.limbo pp hlimbo).2
    have hva' : pteAddr va < utop := by
      rw [← pdx_lt_utop, pdx_pteAddr]
      exact pdx_lt_utop.2 hva
    have hnuv : ¬(uvpt ≤ va ∧ va < ulim) := fun hc =>
      absurd (Nat.lt_of_le_of_lt (BitVec.le_def.1 hc.1) (BitVec.lt_def.1 hva)) (by decide)
    have hperm : pp ||| ppn pteD = pp := by
      have h0 : ppn pteD = 0 := by decide
      simp [h0]
    rw [if_neg hnuv] at hi
    have hdw : d ∈ ({ g with limbo := insert pp g.limbo } : Ledger).dirs := hd
    rcases hm.sound.insertPage hdw hva' hu (hm.sound.acct.unref hu.lt hr0).2.2
        (.inr (by rw [hr0]; decide)) hperm hi with
      ⟨hc, -⟩ | ⟨-, hins, -⟩
    · exact absurd hc (by decide)
    · refine (h.alloc_clean ha).trans (hm.sound.inserted_clean hins hu hperm fun _ => ?_) fun f hf => ?_
      · obtain ⟨rest, -, rfl⟩ := pageAlloc_eq ha
        exact Function.update_self _ _ _
      · exact ((h.alloc_same ha).page f).2 hf
  · obtain ⟨g', hwin, -⟩ := h.passive_window hd hva hl hp
    obtain ⟨pp, p₁, ha, -, -, rfl⟩ := h.passive_window_eq hd hva hl hp
    apply Clean.of_sub
    · rintro f ⟨s, hs, hf⟩
      rcases hwin.pages s hs f hf with hf | hf
      · exact ⟨s, hs, hf⟩
      · exact hf.elim
    · intro f hf
      obtain ⟨-, hmem⟩ := h.alloc_mem_ne ha hf
      have hfd : f ≠ d := fun hc => (h.page_usable hf).outside.dir (hc ▸ hd)
      show ((p₁.setRef pp 1).write (d, ptx va) (entryOf pp 0)).mem f = p.mem f
      rw [write_mem_ne _ (e := (d, ptx va)) hfd]
      exact hmem

theorem refill_clean (h : Sound base p g) {victim : Nat} (hd : d ∈ g.dirs)
    (hr : doTlbRefill p d asid va victim = some p') :
    Clean g.dirs p p' := by
  unfold doTlbRefill at hr
  obtain ⟨⟨e, p₂⟩, hl, rfl⟩ := Option.map_eq_some_iff.1 hr
  have h₁ := (h.tlb (tlbInvalidate p asid va).tlb).sound
  have hwr : ∀ {q : Pmap} {tlb : List TlbEntry}, Clean g.dirs p q → Clean g.dirs p { q with tlb := tlb } :=
    fun hq => ⟨hq.kept, hq.blank⟩
  unfold lookupAlloc at hl
  obtain ⟨l, hl₁, hl₂⟩ := Option.bind_eq_some_iff.1 hl
  cases l with
  | some l =>
    cases hl₂
    exact hwr (tlb_clean _)
  | none =>
    obtain ⟨p₃, hpas, hrest⟩ := Option.bind_eq_some_iff.1 hl₂
    obtain ⟨l', -, hl'⟩ := Option.bind_eq_some_iff.1 hrest
    obtain ⟨⟨pp, e'⟩, -, he⟩ := Option.map_eq_some_iff.1 hl'
    cases he
    have hc := h₁.passive_clean hd hl₁ hpas
    exact hwr ⟨hc.kept, hc.blank⟩

theorem touch_clean (h : Sound base p g) (hd : d ∈ g.dirs) (ht : Mos.touch p d asid va = some p') :
    Clean g.dirs p p' := by
  have hself : Clean g.dirs p p := tlb_clean p.tlb
  unfold Mos.touch at ht
  split at ht
  · cases ht
    exact hself
  · obtain ⟨l, -, hrest⟩ := Option.bind_eq_some_iff.1 ht
    cases l with
    | some l =>
      cases hrest
      exact hself
    | none => exact h.refill_clean hd hrest

/-! ## Spaces come and go -/

theorem setup_mem (h : Sound base p g) {pp f : Nat} {p₁ : Pmap} (ha : pageAlloc p = some (pp, p₁))
    (hf : p.Page g.dirs f) :
    (setupPgdir (p₁.setRef pp (p₁.ppRef pp + 1)) base pp).mem f = p.mem f := by
  obtain ⟨-, -, -, -, -, hne, -⟩ := h.setup ha
  exact hne f (h.alloc_mem_ne ha hf).1

/-- The loop of `env_free` over a table writes to no frame outside the directories and tables. -/
theorem freeEntries_outside {i t : Nat} (hi : i < utopEntries) :
    ∀ (js : List Nat) {p p' : Pmap}, (∀ j ∈ js, j < pageWords) →
    Sound base p g → d ∈ g.dirs → js.foldlM (fun p j => if valid (p.mem t j) then
      pageRemove p d asid (BitVec.ofNat 32 i <<< pdshift ||| BitVec.ofNat 32 j <<< pgshift) else some p) p = some p' →
    (∀ s ∈ tableSlots utopEntries g.dirs, p'.table s = p.table s) ∧
      ∀ f, Outside utopEntries p g.dirs f → p'.mem f = p.mem f
  | [], p, p', _, _, _, hf => by
    cases hf
    exact ⟨fun _ _ => rfl, fun _ _ => rfl⟩
  | j :: js, p, p', hjs, h, hd, hf => by
    rw [List.foldlM_cons] at hf
    obtain ⟨p₁, hstep, hrest⟩ := Option.bind_eq_some_iff.1 hf
    have htail : ∀ j' ∈ js, j' < pageWords := fun j' hj' => hjs j' (List.mem_cons_of_mem _ hj')
    split at hstep
    · have hso := slotOf_free (d := d) (Nat.lt_trans hi (pdx_lt utop)) (hjs j List.mem_cons_self)
      have hva : BitVec.ofNat 32 i <<< pdshift ||| BitVec.ofNat 32 j <<< pgshift < utop := by
        have hpd := congrArg (fun s => s.2.1) hso
        exact pdx_lt_utop.1 (hpd.trans_lt hi)
      obtain ⟨p₂, hr₂, -, -, htab, -, -, -, hmem, -⟩ := h.acct.removePage hd (pdx_lt_utop.2 hva) asid
      obtain rfl : p₂ = p₁ := by simpa using hr₂.symm.trans hstep
      obtain ⟨htab', hmem'⟩ := freeEntries_outside hi js htail (h.remove hd hva hstep).1.sound hd hrest
      refine ⟨fun s hs => (htab' s hs).trans (htab s hs), fun f hf => ?_⟩
      rw [hmem' f ⟨hf.dir, fun s hs => htab s hs ▸ hf.table s hs⟩, hmem f hf]
    · cases hstep
      exact freeEntries_outside hi js htail h hd hrest

theorem freeTable_outside (h : Sound base p g) {i : Nat} (hd : d ∈ g.dirs) (hi : i < utopEntries)
    (hf : envFreeTable d asid p i = some p') (f : Nat) (ho : Outside utopEntries p g.dirs f) :
    p'.mem f = p.mem f ∧ Outside utopEntries p' g.dirs f := by
  unfold envFreeTable at hf
  split at hf
  · obtain ⟨t, -, hrest⟩ := Option.bind_eq_some_iff.1 hf
    obtain ⟨p₁, hloop, hrest⟩ := Option.bind_eq_some_iff.1 hrest
    obtain ⟨t', -, hrest⟩ := Option.bind_eq_some_iff.1 hrest
    obtain ⟨p₂, hdec, rfl⟩ := Option.map_eq_some_iff.1 hrest
    obtain ⟨htab, hmem⟩ := freeEntries_outside hi (List.range pageWords) (fun j hj => List.mem_range.1 hj) h hd hloop
    have hmem₂ : ∀ f j, p₂.mem f j = if f = d ∧ j = i then 0 else p₁.mem f j := by
      intro f j
      rw [decref_mem hdec, write_mem]
    refine ⟨?_, ho.dir, fun s hs ht => ?_⟩
    · funext j
      have hne : ¬(f = d ∧ j = i) := fun hc => ho.dir (hc.1 ▸ hd)
      show p₂.mem f j = _
      rw [hmem₂, if_neg hne, hmem f ho]
    · refine ho.table s hs ?_
      rw [← htab s hs]
      have ht : p₂.table s = some f := ht
      unfold Pmap.table at ht ⊢
      rw [hmem₂] at ht
      split at ht
      · rw [valid_zero] at ht
        cases ht
      · exact ht
  · cases hf
    exact ⟨rfl, ho⟩

theorem freeTables_outside :
    ∀ (is : List Nat) {p p' : Pmap}, (∀ i ∈ is, i < utopEntries) → Sound base p g → d ∈ g.dirs →
    is.foldlM (envFreeTable d asid) p = some p' → ∀ f, Outside utopEntries p g.dirs f → p'.mem f = p.mem f
  | [], p, p', _, _, _, hf => by
    cases hf
    exact fun _ _ => rfl
  | i :: is, p, p', his, h, hd, hf => by
    rw [List.foldlM_cons] at hf
    obtain ⟨p₁, hstep, hrest⟩ := Option.bind_eq_some_iff.1 hf
    have hi := his i List.mem_cons_self
    intro f ho
    obtain ⟨hm, ho₁⟩ := h.freeTable_outside hd hi hstep f ho
    rw [freeTables_outside is (fun i' hi' => his i' (List.mem_cons_of_mem _ hi'))
      (h.freeTable hd hi hstep).1.sound hd hrest f ho₁,
      hm]

/-- **`env_free` writes to no page.** -/
theorem freeSpace_page (h : Sound base p g) (hd : d ∈ g.dirs) (hf : envFreePages d asid p = some p') {f : Nat}
    (hp : p.Page g.dirs f) : p'.mem f = p.mem f := by
  unfold envFreePages at hf
  obtain ⟨p₁, hloop, hrest⟩ := Option.bind_eq_some_iff.1 hf
  obtain ⟨d', -, hrest⟩ := Option.bind_eq_some_iff.1 hrest
  obtain ⟨p₂, hdec, rfl⟩ := Option.map_eq_some_iff.1 hrest
  show p₂.mem f = _
  rw [decref_mem hdec]
  exact freeTables_outside (List.range (pdx utop)) (fun i hi => List.mem_range.1 hi) h hd hloop f
    (h.page_usable hp).outside

end Sound

/-! ## Environments -/

/-- The frame is a page of `e`. -/
def Kernel.PageOf (k : Kernel) (e : EnvIx) (f : Nat) : Prop :=
  (k.envs e).envStatus ≠ .free ∧ ∃ i < utopEntries, ∃ j < pageWords, k.frameAt e i j = some f

/-- The frame is a page of somebody. -/
def Kernel.Visible (k : Kernel) (f : Nat) : Prop := ∃ e, k.PageOf e f

/-- `e` has the frame mapped at `va`, with `PTE_D`. -/
def Kernel.Writable (k : Kernel) (e : EnvIx) (va : Word) (f : Nat) : Prop :=
  pdx va < utopEntries ∧ ∃ w, k.pm.pte (slotOf (k.envs e).envPgdir va) = some w ∧ ppn w = f ∧ w &&& pteD ≠ 0

/-- The addresses of `n` words. -/
def wordAddrs (va : Word) : Nat → List Word
  | 0 => []
  | n + 1 => va :: wordAddrs (va + 4) n

/-- One of the addresses is that of word `o` of the frame. -/
def Kernel.Hits (k : Kernel) (e : EnvIx) (vas : List Word) (f o : Nat) : Prop :=
  ∃ va ∈ vas, k.Writable e va f ∧ pageOffset va = o

/-- **What a step leaves of the pages**: words that are not in `skip` stay, or are those of a new page and blank. -/
structure Preserves (skip : Nat → Nat → Prop) (k k' : Kernel) : Prop where
  kept : ∀ f o, ¬skip f o → k.Visible f → k'.Visible f → k'.pm.mem f o = k.pm.mem f o
  blank : ∀ f o, ¬skip f o → ¬k.Visible f → k'.Visible f → k'.pm.mem f o = 0

theorem visible_iff {k : Kernel} {D : Finset Nat}
    (hD : ∀ d, d ∈ D ↔ ∃ e, (k.envs e).envStatus ≠ .free ∧ (k.envs e).envPgdir = d) (f : Nat) :
    k.Visible f ↔ k.pm.Page D f := by
  constructor
  · rintro ⟨e, he, i, hi, j, hj, hf⟩
    exact ⟨_, mem_pageSlots.2 ⟨(hD _).2 ⟨e, he, rfl⟩, hi, hj⟩, hf⟩
  · rintro ⟨⟨d, i, j⟩, hs, hf⟩
    obtain ⟨hd, hi, hj⟩ := mem_pageSlots.1 hs
    obtain ⟨e, he, rfl⟩ := (hD d).1 hd
    exact ⟨e, he, i, hi, j, hj, hf⟩

namespace Preserves

variable {skip skip' : Nat → Nat → Prop} {k k₁ k' : Kernel} {g g' : Ledger}

theorem mono (h : Preserves skip k k') (hs : ∀ f o, skip f o → skip' f o) : Preserves skip' k k' :=
  ⟨fun f o hf => h.kept f o (mt (hs f o) hf), fun f o hf => h.blank f o (mt (hs f o) hf)⟩

theorem trans (h : Preserves skip k k₁) (h' : Preserves skip k₁ k') (hk : ∀ f, k.Visible f → k₁.Visible f) :
    Preserves skip k k' := by
  refine ⟨fun f o hn hf hf' => ?_, fun f o hn hf hf' => ?_⟩
  · rw [h'.kept f o hn (hk f hf) hf', h.kept f o hn hf (hk f hf)]
  · by_cases h₁ : k₁.Visible f
    · rw [h'.kept f o hn h₁ hf', h.blank f o hn hf h₁]
    · exact h'.blank f o hn h₁ hf'

theorem of_nobody (h : Framed k g) (hs : Shares nobody k k' g')
    (hmem : ∀ f, k.pm.Page g.dirs f → k'.pm.mem f = k.pm.mem f) :
    Preserves skip k k' := by
  have hsub : ∀ f, k'.Visible f → k.Visible f := by
    rintro f ⟨e, he, i, hi, j, hj, hf⟩
    obtain ⟨he₀, hf₀⟩ := (hs.pages e he i hi j hj f hf).resolve_right id
    exact ⟨e, he₀, i, hi, j, hj, hf₀⟩
  exact ⟨fun f o _ hf _ => congrFun (hmem f ((visible_iff h.dirs f).1 hf)) o, fun f _ _ hf hf' =>
    absurd (hsub f hf') hf⟩

theorem of_clean (h : Framed k g) {pm : Pmap} (hc : Clean g.dirs k.pm pm) : Preserves skip k (k.setPm pm) := by
  have hv : ∀ f, (k.setPm pm).Visible f ↔ pm.Page g.dirs f := fun f => visible_iff (k := k.setPm pm) h.dirs f
  constructor
  · intro f o _ hf hf'
    exact congrFun (hc.kept f ((visible_iff h.dirs f).1 hf) ((hv f).1 hf')) o
  · intro f o _ hf hf'
    exact congrFun (hc.blank f (mt (visible_iff h.dirs f).2 hf) ((hv f).1 hf')) o

theorem refl (k : Kernel) : Preserves skip k k := ⟨fun _ _ _ _ _ => rfl, fun _ _ _ hf hf' => absurd hf' hf⟩

theorem then_same (h : Preserves skip k k₁) (hs : SameSpaces k₁ k') : Preserves skip k k' := by
  have hsub : ∀ f, k'.Visible f → k₁.Visible f := by
    rintro f ⟨e, he, i, hi, j, hj, hf⟩
    have he₁ := (hs.status e).1 he
    unfold Kernel.frameAt at hf
    rw [hs.pm, hs.pgdir e he₁] at hf
    exact ⟨e, he₁, i, hi, j, hj, hf⟩
  refine ⟨fun f o hn hf hf' => ?_, fun f o hn hf hf' => ?_⟩
  · rw [hs.pm]
    exact h.kept f o hn hf (hsub f hf')
  · rw [hs.pm]
    exact h.blank f o hn hf (hsub f hf')

theorem of_same (hs : SameSpaces k k') : Preserves skip k k' := (refl k).then_same hs

end Preserves

theorem Retains.visible {k k' : Kernel} (h : Retains k k')
    (hst : ∀ e, (k.envs e).envStatus ≠ .free → (k'.envs e).envStatus ≠ .free) (f : Nat) (hf : k.Visible f) :
    k'.Visible f := by
  obtain ⟨e, he, i, hi, j, hj, hf⟩ := hf
  have hso : ∀ d, slotOf d (BitVec.ofNat 32 i <<< pdshift ||| BitVec.ofNat 32 j <<< pgshift) = (d, i, j) :=
    fun d => Sound.slotOf_free (Nat.lt_trans hi (pdx_lt utop)) hj
  have hva : BitVec.ofNat 32 i <<< pdshift ||| BitVec.ofNat 32 j <<< pgshift < utop := by
    have hpd := congrArg (fun s => s.2.1) (hso 0)
    exact pdx_lt_utop.1 (hpd.trans_lt hi)
  have hkeep := h e he _ hva f
  unfold Kernel.frameOf at hkeep
  rw [hso, hso] at hkeep
  exact ⟨e, hst e he, i, hi, j, hj, hkeep hf⟩

/-! ## Accesses -/

namespace Framed

variable {k k₁ k' : Kernel} {g g' : Ledger} {c cur : EnvIx} {skip : Nat → Nat → Prop}

theorem writable_of_keeps (h : Framed k g) {pm : Pmap} (hk : Keeps g.dirs k.pm pm)
    (hlive : (k.envs c).envStatus ≠ .free) {va : Word} {f : Nat} (hw : k.Writable c va f) :
    (k.setPm pm).Writable c va f := by
  obtain ⟨hva, w, hw, hf⟩ := hw
  exact ⟨hva, w, hk _ (slotOf_mem (h.mem hlive) hva) w hw, hf⟩

theorem touch_preserves (h : Framed k g) {va : Word} (hc : k.curenv = some c) (hlive : (k.envs c).envStatus ≠ .free)
    (ht : k.touch c va = some k') : Preserves skip k k' := by
  obtain ⟨pm, hpm, rfl⟩ := Option.map_eq_some_iff.1 ht
  rw [h.cur c hc] at hpm
  exact .of_clean h (h.sound.touch_clean (h.mem hlive) hpm)

theorem touch_writable (h : Framed k g) {va : Word} (hc : k.curenv = some c) (hlive : (k.envs c).envStatus ≠ .free)
    (ht : k.touch c va = some k') {va' : Word} {f : Nat} (hw : k.Writable c va' f) : k'.Writable c va' f := by
  obtain ⟨pm, hpm, rfl⟩ := Option.map_eq_some_iff.1 ht
  rw [h.cur c hc] at hpm
  exact h.writable_of_keeps (h.sound.touch_keeps (h.mem hlive) hpm) hlive hw

/-- **A store goes to the page of its address**, which is mapped with `PTE_D`, and there to its word. -/
theorem store_preserves (h : Framed k g) {va w : Word} {pm : Pmap} (hc : k.curenv = some c)
    (hlive : (k.envs c).envStatus ≠ .free) (hs : Mos.store k.pm k.curPgdir va w = some pm) :
    Preserves ((k.setPm pm).Hits c [va]) k (k.setPm pm) ∧
      ∀ va' f, k.Writable c va' f → (k.setPm pm).Writable c va' f := by
  have hn := h.store hc hlive hs
  rw [h.cur c hc] at hs
  have hmono : ∀ va' f, k.Writable c va' f → (k.setPm pm).Writable c va' f := fun _ _ =>
    h.writable_of_keeps (h.sound.store_keeps (h.mem hlive) hs) hlive
  refine ⟨?_, hmono⟩
  obtain ⟨pp, hw, hpm⟩ : ∃ pp, k.Writable c va pp ∧ pm = k.pm.write (pp, pageOffset va) w := by
    obtain ⟨pp, hf, hslot, hpm⟩ := h.sound.store_page (h.mem hlive) hs
    refine ⟨pp, ⟨(mem_pageSlots.1 hslot).2.1, ?_⟩, hpm⟩
    unfold Mos.store at hs
    split at hs
    · cases hs
    · obtain ⟨l, hl, hrest⟩ := Option.bind_eq_some_iff.1 hs
      cases l with
      | none => cases hrest
      | some l =>
        obtain ⟨pp', e⟩ := l
        dsimp only at hrest
        split at hrest
        · rename_i hD
          obtain ⟨hv, rfl, hve, rfl⟩ := lookup_inv hl
          have ht : k.pm.table ((k.envs c).envPgdir, pdx va) = some (ppn (k.pm.mem (k.envs c).envPgdir (pdx va))) := by
            unfold Pmap.table
            rw [if_pos hv]
          have hpte := (pte_of_table (j := ptx va) ht).trans (if_pos hve)
          have hset : k.pm.read (ppn (k.pm.mem (k.envs c).envPgdir (pdx va)), ptx va) &&& pteD ≠ 0 := by simpa using hD
          refine ⟨_, hpte, ?_, hset⟩
          have hframe : k.pm.frame (slotOf (k.envs c).envPgdir va) = some _ := congrArg (Option.map ppn) hpte
          exact Option.some.inj (hframe.symm.trans hf)
        · cases hrest
  have hsub : ∀ f, (k.setPm pm).Visible f → k.Visible f := by
    rintro f ⟨e, he, i, hi, j, hj, hf⟩
    obtain ⟨he₀, hf₀⟩ := (hn.pages e he i hi j hj f hf).resolve_right id
    exact ⟨e, he₀, i, hi, j, hj, hf₀⟩
  refine ⟨fun f o hskip _ _ => ?_, fun f _ _ hf hf' => absurd (hsub f hf') hf⟩
  show pm.mem f o = _
  rw [hpm, write_mem]
  refine if_neg fun ⟨hf, ho⟩ => hskip ?_
  subst hf ho
  exact ⟨va, List.mem_singleton_self va, hmono _ _ hw, rfl⟩

theorem storeWords_preserves :
    ∀ {ws : List Word} {va : Word} {k k' : Kernel} {g : Ledger}, Framed k g → k.curenv = some c →
    (k.envs c).envStatus ≠ .free → k.storeWords c va ws = some k' →
    Preserves (k'.Hits c (wordAddrs va ws.length)) k k' ∧ ∀ va' f, k.Writable c va' f → k'.Writable c va' f
  | [], _, k, k', g, _, _, _, hs => by
    cases hs
    exact ⟨.refl k, fun _ _ hf => hf⟩
  | w :: ws, va, k, k', g, h, hc, hlive, hs => by
    unfold Kernel.storeWords at hs
    obtain ⟨k₁, h₁, h₂⟩ := Option.bind_eq_some_iff.1 hs
    obtain ⟨g₁, hs₁, -⟩ := h.touch hc hlive h₁
    have hp₁ : Preserves (k'.Hits c (wordAddrs va (w :: ws).length)) k k₁ := h.touch_preserves hc hlive h₁
    have hw₁ : ∀ va' f, k.Writable c va' f → k₁.Writable c va' f := fun _ _ => h.touch_writable hc hlive h₁
    have hv₁ := (h.touch_retains hc hlive h₁).visible
    obtain ⟨pm₁, rfl⟩ := touch_eq h₁
    obtain ⟨pm₂, hst, h₃⟩ := Option.bind_eq_some_iff.1 h₂
    have hs₂ := hs₁.framed.store hc hlive hst
    obtain ⟨hp₂, hw₂⟩ := hs₁.framed.store_preserves hc hlive hst
    have hv₂ : ∀ f, (k.setPm pm₁).Visible f → ((k.setPm pm₁).setPm pm₂).Visible f := by
      have hst' := hst
      rw [hs₁.framed.cur c hc] at hst'
      exact (Retains.of_keeps hs₁.framed (hs₁.framed.sound.store_keeps (hs₁.framed.mem hlive) hst')).visible
        fun _ he => he
    obtain ⟨hp₃, hw₃⟩ := storeWords_preserves hs₂.framed hc hlive h₃
    -- the first word, then the others
    have hfirst : Preserves (k'.Hits c (wordAddrs va (w :: ws).length)) (k.setPm pm₁) ((k.setPm pm₁).setPm pm₂) := by
      refine hp₂.mono fun f o hit => ?_
      obtain ⟨va', hva', hw, ho⟩ := hit
      rw [List.mem_singleton] at hva'
      exact ⟨va', hva' ▸ List.mem_cons_self, hw₃ _ _ hw, ho⟩
    have hothers : Preserves (k'.Hits c (wordAddrs va (w :: ws).length)) ((k.setPm pm₁).setPm pm₂) k' := by
      refine hp₃.mono fun f o hit => ?_
      obtain ⟨va', hva', hw, ho⟩ := hit
      exact ⟨va', List.mem_cons_of_mem _ hva', hw, ho⟩
    exact ⟨hp₁.trans (hfirst.trans hothers hv₂) (hv₁ fun _ he => he), fun va' f hf => hw₃ _ _ (hw₂ _ _ (hw₁ _ _ hf))⟩

theorem touchRange_preserves {va : Word} {len : Nat} : ∀ {k k' : Kernel} {g : Ledger}, Framed k g → k.curenv = some c →
    (k.envs c).envStatus ≠ .free → k.touchRange c va len = some k' → Preserves skip k k' := by
  unfold Kernel.touchRange
  generalize List.range len = is
  induction is with
  | nil =>
    intro k k' g _ _ _ ht
    cases ht
    exact .refl k
  | cons i is ih =>
    intro k k' g h hc hlive ht
    rw [List.foldlM_cons] at ht
    obtain ⟨k₁, h₁, h₂⟩ := Option.bind_eq_some_iff.1 ht
    obtain ⟨g₁, hs, -⟩ := h.touch hc hlive h₁
    have hp : Preserves skip k k₁ := h.touch_preserves hc hlive h₁
    have hv := (h.touch_retains hc hlive h₁).visible
    obtain ⟨pm, rfl⟩ := touch_eq h₁
    exact hp.trans (ih hs.framed hc hlive h₂) (hv fun _ he => he)

theorem readArgs_preserves (h : Framed k g) (hc : k.curenv = some c) (hlive : (k.envs c).envStatus ≠ .free)
    (hr : Mos.readArgs k c = some k') : Preserves skip k k' := by
  obtain ⟨k₁, h₁, h₂⟩ := Option.bind_eq_some_iff.1 hr
  have hn := h.ktf k.ktf.nextInstr
  have hp₀ : Preserves skip k { k with ktf := k.ktf.nextInstr } := .of_same (.of_eq rfl rfl rfl)
  obtain ⟨g₁, hs₁, -⟩ := hn.framed.touch (by exact hc) (by exact hlive) h₁
  have hp₁ : Preserves skip { k with ktf := k.ktf.nextInstr } k₁ :=
    hn.framed.touch_preserves (by exact hc) (by exact hlive) h₁
  have hv₁ := (hn.framed.touch_retains (by exact hc) (by exact hlive) h₁).visible
  obtain ⟨pm₁, rfl⟩ := touch_eq h₁
  have hp₂ : Preserves skip _ k' := hs₁.framed.touch_preserves (by exact hc) (by exact hlive) h₂
  exact hp₀.trans (hp₁.trans hp₂ (hv₁ fun _ he => he)) fun f hf => hf

/-! ## Calls -/

theorem free_preserves {e : EnvIx} (h : Framed k g) (hlive : (k.envs e).envStatus ≠ .free)
    (hf : envFree k e = some k') :
    Preserves skip k k' := by
  obtain ⟨g', hs⟩ := h.free hlive hf
  refine .of_nobody h hs fun f hp => ?_
  obtain ⟨pm, hpm, hrest⟩ := Option.bind_eq_some_iff.1 hf
  obtain ⟨q, -, rfl⟩ := Option.map_eq_some_iff.1 hrest
  exact h.sound.freeSpace_page (h.mem hlive) hpm hp

theorem destroy_preserves {e : EnvIx} (h : Framed k g) (hlive : (k.envs e).envStatus ≠ .free)
    (hd : envDestroy k e = some k') :
    Preserves skip k k' := by
  obtain ⟨k₁, hf, hrest⟩ := Option.bind_eq_some_iff.1 hd
  have hp : Preserves skip k k₁ := h.free_preserves hlive hf
  split at hrest
  · have hidle : SameSpaces k₁ { k₁ with curenv := none } := .of_eq rfl rfl rfl
    exact hp.then_same (hidle.trans (schedule_spaces hrest).1)
  · cases hrest
    exact hp

variable {r : Sysret × Kernel}

theorem memAlloc_preserves (h : Framed k g) {envid va perm : Word} (hlive : (k.envs cur).envStatus ≠ .free)
    (hsafe : CallSafe k cur (.memAlloc envid va perm)) (hc : sysMemAlloc k cur envid va perm = some r) :
    Preserves skip k r.2 := by
  unfold sysMemAlloc at hc
  split at hc
  · rw [ret_eq hc]
    exact .refl k
  rename_i hva
  split at hc
  · rw [ret_eq hc]
    exact .refl k
  rename_i e he
  split at hc
  · rw [ret_eq hc]
    exact .refl k
  rename_i pp pm₁ ha
  obtain ⟨⟨i, pm⟩, hi, hr⟩ := Option.bind_eq_some_iff.1 hc
  rw [ret_eq hr]
  have helive := envid2env_live hlive he
  have hva' : va < utop := legal_lt (by simpa using hva)
  obtain ⟨rest, hf, hpm₁⟩ := pageAlloc_eq ha
  have hhead : k.pm.pageFreeList.head? = some pp := by simp [hf]
  obtain ⟨-, -, htab, hm⟩ := h.sound.alloc ha
  have hclean := h.sound.alloc_clean ha
  have hsame := h.sound.alloc_same ha
  have hlimbo := Finset.mem_insert_self pp g.limbo
  have hu := hm.sound.acct.usable_of_limbo hlimbo
  have hr0 : pm₁.ppRef pp = 0 := (hm.sound.acct.limbo pp hlimbo).2
  have hheld : g.held pp = 0 := (hm.sound.acct.unref hu.lt hr0).2.2
  have hnone : Preserves skip k (k.setPm (tlbInvalidate pm₁ (k.envs e).envAsid va)) :=
    .of_clean h (hclean.trans (Sound.tlb_clean (tlbInvalidate pm₁ (k.envs e).envAsid va).tlb) fun f => (hsame.page f).2)
  rcases hsafe e va pp ⟨he, rfl, hhead⟩ with ⟨ht, hpool⟩ | hmap
  · have hslot : ((k.envs e).envPgdir, pdx va) ∈ tableSlots utopEntries g.dirs :=
      mem_tableSlots.2 ⟨h.mem helive, pdx_lt_utop.2 hva'⟩
    have hfree₁ : pm₁.pageFreeList = [] := by
      rw [Syscall.pool, hf] at hpool
      rw [hpm₁]
      exact hpool
    rw [insert_noRoom ((htab _ hslot).trans ht) hfree₁] at hi
    cases hi
    exact hnone
  · rcases hm.sound.insertPage (h.mem helive) hva' hu hheld (.inr (by rw [hr0]; decide)) hmap.1 hi with
      ⟨rfl, ht, hfree, -⟩ | ⟨rfl, hins, -⟩
    · rw [insert_noRoom ht hfree] at hi
      cases hi
      exact hnone
    · have hblank : pm₁.mem pp = fun _ => 0 := by simp [hpm₁]
      exact .of_clean h (hclean.trans (hm.sound.inserted_clean hins hu hmap.1 fun _ => hblank)
        fun f => (hsame.page f).2)

theorem insertMapped_preserves (h : Framed k g) {src dst : EnvIx} {srcva va perm asid : Word} {pp : Nat} {i : Int}
    {pm : Pmap} (hsrc : (k.envs src).envStatus ≠ .free) (hdst : (k.envs dst).envStatus ≠ .free) (hsva : srcva < utop)
    (hva : va < utop) (hf : k.frameOf src srcva = some pp)
    (hsafe : k.pm.table ((k.envs dst).envPgdir, pdx va) = none ∧ k.pm.pageFreeList = [] ∨ FrameSafe k dst va perm pp)
    (hi : pageInsert k.pm (k.envs dst).envPgdir asid pp va perm = some (i, pm)) : Preserves skip k (k.setPm pm) := by
  have hnone : Preserves skip k (k.setPm (tlbInvalidate k.pm asid va)) :=
    .of_clean h (Sound.tlb_clean (tlbInvalidate k.pm asid va).tlb)
  rcases hsafe with ⟨ht, hfree⟩ | hsafe
  · rw [insert_noRoom ht hfree] at hi
    cases hi
    exact hnone
  have hslot := slotOf_mem (h.mem hsrc) (pdx_lt_utop.2 hsva)
  have hu := h.sound.acct.usable_of_frame hslot hf
  rcases h.sound.insertPage (h.mem hdst) hva hu (h.sound.frame _ hslot pp hf) hsafe.2 hsafe.1 hi with
    ⟨rfl, ht, hfree, -⟩ | ⟨rfl, hins, -⟩
  · rw [insert_noRoom ht hfree] at hi
    cases hi
    exact hnone
  · exact .of_clean h (h.sound.inserted_clean hins hu hsafe.1 fun hp => absurd ⟨_, hslot, hf⟩ hp)

theorem memMap_preserves (h : Framed k g) {srcid srcva dstid dstva perm : Word}
    (hlive : (k.envs cur).envStatus ≠ .free) (hsafe : CallSafe k cur (.memMap srcid srcva dstid dstva perm))
    (hc : sysMemMap k cur srcid srcva dstid dstva perm = some r) :
    Preserves skip k r.2 := by
  unfold sysMemMap at hc
  split at hc
  · rw [ret_eq hc]
    exact .refl k
  rename_i hva
  rw [Bool.not_eq_true, Bool.or_eq_false_iff] at hva
  split at hc
  · rw [ret_eq hc]
    exact .refl k
  rename_i src hsrc
  split at hc
  · rw [ret_eq hc]
    exact .refl k
  rename_i dst hdst
  obtain ⟨l, hl, hrest⟩ := Option.bind_eq_some_iff.1 hc
  cases l with
  | none =>
    rw [ret_eq hrest]
    exact .refl k
  | some l =>
    obtain ⟨pp, pte⟩ := l
    obtain ⟨⟨i, pm⟩, hi, hr⟩ := Option.bind_eq_some_iff.1 hrest
    rw [ret_eq hr]
    have hslive := envid2env_live hlive hsrc
    have hf : k.frameOf src srcva = some pp := (h.lookup hslive (legal_lt hva.1) hl).symm
    exact h.insertMapped_preserves hslive (envid2env_live hlive hdst) (legal_lt hva.1) (legal_lt hva.2) hf
      (hsafe dst dstva pp ⟨hdst, rfl, src, hsrc, hf⟩) hi

theorem ipcTrySend_preserves (h : Framed k g) {envid value srcva perm : Word} (hlive : (k.envs cur).envStatus ≠ .free)
    (hsafe : CallSafe k cur (.ipcTrySend envid value srcva perm))
    (hc : sysIpcTrySend k cur envid value srcva perm = some r) : Preserves skip k r.2 := by
  -- the receiver's record is written, and its space stays
  have hwoken : ∀ {k₁ : Kernel} (e : EnvIx) (q : Tailq EnvIx) (pm : Pmap), (k.envs e).envStatus ≠
      .free → k₁ = k.setPm pm →
      SameSpaces k₁ ((woken k cur e value perm q).setPm pm) := by
    rintro k₁ e q pm he rfl
    have hset : SameSpaces k (k.setEnv e fun v => v.deliver value (k.envs cur).envId perm) :=
      .setEnv k e ⟨fun _ => he, fun _ => by simp [Env.deliver]⟩ rfl
    exact ⟨rfl, rfl, hset.status, hset.pgdir⟩
  cases send_inv hc with
  | refused => exact .refl k
  | value e q he => exact .of_same (hwoken e q k.pm (envid2env_live hlive he) rfl)
  | lost e q he => exact .of_same (hwoken e q k.pm (envid2env_live hlive he) rfl)
  | page e q pp pte i pm he hr hq h0 hva hl hi =>
    have helive := envid2env_live hlive he
    have hf : k.frameOf cur srcva = some pp := (h.lookup hlive (legal_lt hva) hl).symm
    have hp : Preserves skip k (k.setPm pm) :=
      h.insertMapped_preserves hlive helive (legal_lt hva) (h.dst e) hf (hsafe e _ pp ⟨h0, he, hr, rfl, hf⟩) hi
    exact hp.then_same (hwoken e q pm helive rfl)

theorem exofork_preserves (h : Framed k g) (hal : k.procs.Alive) (hc : sysExofork k cur = some r) :
    Preserves skip k r.2 := by
  have hfree : ∀ {e rest}, k.envFreeList = e :: rest → (k.envs e).envStatus = .free := by
    intro e rest hf
    exact hal.free e (by simp [Kernel.procs, hf])
  unfold sysExofork at hc
  split at hc
  · rename_i i k₁ ha
    rw [ret_eq hc]
    rcases envAlloc_inv ha with ⟨-, -, rfl⟩ | ⟨e, rest, pp, pm₁, hf, hall, -⟩
    · exact .refl k₁
    · obtain ⟨g', hs⟩ := h.allocated_free hall (hfree hf) fun hrun => hal.running e hrun (hfree hf)
      refine .of_nobody h hs fun f hp => ?_
      rw [hall.pm]
      exact h.sound.setup_mem hall.alloc hp
  · rename_i e k₁ ha
    rw [ret_eq hc]
    rcases envAlloc_inv ha with ⟨i, hr, -⟩ | ⟨e', rest, pp, pm₁, hf, hall, hr⟩
    · cases hr
    · obtain rfl : e = e' := by simpa using hr
      obtain ⟨g', hs⟩ := h.allocated_live hall (hfree hf) (fun hrun => hal.running e hrun (hfree hf)) (f := fun v =>
        { v with envTf := k₁.ktf.setReg 2 0, envStatus := .notRunnable, envPri := (k₁.envs cur).envPri })
        rfl (by simp) rfl rfl
      refine .of_nobody h hs fun f hp => ?_
      show k₁.pm.mem f = k.pm.mem f
      rw [hall.pm]
      exact h.sound.setup_mem hall.alloc hp

end Framed

/-- Where a call stores to the caller's memory. -/
def Syscall.stored : Syscall → List Word
  | .readDev va _ _ _ => [va]
  | _ => []

namespace Framed

variable {k k' : Kernel} {g : Ledger} {cur : EnvIx} {r : Sysret × Kernel}

/-- **A call writes to no page**, `sys_read_dev` apart. -/
theorem call_preserves (h : Framed k g) (hal : k.procs.Alive) (hcur : k.curenv = some cur) {c : Syscall}
    (hsafe : CallSafe k cur c) (hc : syscallTable k cur c = some r) : Preserves (r.2.Hits cur c.stored) k r.2 := by
  have hlive : (k.envs cur).envStatus ≠ .free := hal.running cur hcur
  have hret : ∀ {i : Int} {skip : Nat → Nat → Prop}, ret i k = some r → Preserves skip k r.2 := by
    intro i skip hr
    rw [ret_eq hr]
    exact .refl k
  have hread : ∀ {va : Word} {len : Nat} {i : Int} {skip : Nat → Nat → Prop},
      (k.touchRange cur va len).bind (ret i) = some r →
      Preserves skip k r.2 := by
    intro va len i skip hb
    obtain ⟨k₁, h₁, hr⟩ := Option.bind_eq_some_iff.1 hb
    rw [ret_eq hr]
    exact h.touchRange_preserves hcur hlive h₁
  have hkill : ∀ {jobs : Nat → Job} {e : EnvIx} {s : Sysret} {skip : Nat → Nat → Prop}, (k.envs e).envStatus ≠ .free →
      destroyAndReturn { k with jobs := jobs } cur e s = some r → Preserves skip k r.2 := by
    intro jobs e s skip he hd
    obtain ⟨k₁, h₁, rfl⟩ := Option.map_eq_some_iff.1 hd
    have hjobs : Shares nobody k { k with jobs := jobs } g := h.other rfl rfl rfl rfl rfl
    have hp : Preserves skip { k with jobs := jobs } k₁ := hjobs.framed.destroy_preserves (by exact he) h₁
    exact ⟨hp.kept, hp.blank⟩
  cases c with
  | putchar => cases hc; exact .refl k
  | printCons s num =>
    simp only [syscallTable, sysPrintCons] at hc
    split at hc
    · exact hret hc
    · exact hread hc
  | getenvid => exact hret hc
  | yield =>
    obtain ⟨k₁, h₁, rfl⟩ := Option.map_eq_some_iff.1 hc
    exact .of_same (schedule_spaces h₁).1
  | envDestroy envid =>
    simp only [syscallTable, sysEnvDestroy] at hc
    split at hc
    · exact hret hc
    · rename_i e he
      exact @hkill k.jobs e (.ret 0) _ (envid2env_live hlive he) hc
  | setTlbModEntry envid func =>
    simp only [syscallTable, sysSetTlbModEntry] at hc
    split at hc
    · exact hret hc
    · rename_i e he
      rw [ret_eq hc]
      exact .of_same (.setEnv k e (f := fun v => { v with envUserTlbModEntry := func }) Iff.rfl rfl)
  | memAlloc envid va perm => exact h.memAlloc_preserves hlive hsafe hc
  | memMap srcid srcva dstid dstva perm => exact h.memMap_preserves hlive hsafe hc
  | memUnmap envid va =>
    simp only [syscallTable, sysMemUnmap] at hc
    split at hc
    · exact hret hc
    · rename_i hva
      split at hc
      · exact hret hc
      · rename_i e he
        obtain ⟨pm, hpm, hr⟩ := Option.bind_eq_some_iff.1 hc
        rw [ret_eq hr]
        exact .of_clean h (h.sound.remove_clean (h.mem (envid2env_live hlive he)) (legal_lt (by simpa using hva)) hpm)
  | exofork => exact h.exofork_preserves hal hc
  | setEnvStatus envid status =>
    simp only [syscallTable, sysSetEnvStatus] at hc
    split at hc
    · exact hret hc
    · rename_i st hst
      split at hc
      · exact hret hc
      · rename_i e he
        obtain ⟨q, -, hr⟩ := Option.bind_eq_some_iff.1 hc
        rw [ret_eq hr]
        have hset : SameSpaces (k.setSched q) ((k.setSched q).setEnv e fun v => { v with envStatus := st }) :=
          .setEnv _ e ⟨fun _ => envid2env_live hlive he, fun _ => statusOfWord_ne_free hst⟩ rfl
        exact .of_same ((SameSpaces.of_eq rfl rfl rfl : SameSpaces k (k.setSched q)).trans hset)
  | setTrapframe envid va tf =>
    simp only [syscallTable, sysSetTrapframe] at hc
    split at hc
    · exact hret hc
    · split at hc
      · exact hret hc
      · rename_i e he
        obtain ⟨k₁, h₁, hr⟩ := Option.bind_eq_some_iff.1 hc
        have hp : Preserves (r.2.Hits cur (Syscall.setTrapframe envid va tf).stored) k k₁ :=
          h.touchRange_preserves hcur hlive h₁
        split at hr
        · rw [ret_eq hr] at hp ⊢
          exact hp.then_same (.of_eq rfl rfl rfl)
        · rw [ret_eq hr] at hp ⊢
          exact hp.then_same (.setEnv k₁ e (f := fun v => { v with envTf := tf }) Iff.rfl rfl)
  | panic => cases hc
  | ipcTrySend envid value srcva perm => exact h.ipcTrySend_preserves hlive hsafe hc
  | ipcRecv dstva =>
    simp only [syscallTable, sysIpcRecv] at hc
    split at hc
    · exact hret hc
    · obtain ⟨q, -, hrest⟩ := Option.bind_eq_some_iff.1 hc
      obtain ⟨k₁, h₁, rfl⟩ := Option.map_eq_some_iff.1 hrest
      have hset : SameSpaces k (k.setEnv cur fun v => v.startRecv dstva) :=
        .setEnv k cur ⟨fun _ => hlive, fun _ => by simp [Env.startRecv]⟩ rfl
      have hq : SameSpaces (k.setEnv cur fun v => v.startRecv dstva)
          { (k.setEnv cur fun v => v.startRecv dstva).setSched q with
            ktf := (k.setEnv cur fun v => v.startRecv dstva).ktf.setReg 2 0 } := .of_eq rfl rfl rfl
      exact .of_same ((hset.trans hq).trans (schedule_spaces h₁).1)
  | cgetc ch => exact hret hc
  | writeDev va pa len =>
    simp only [syscallTable, sysWriteDev] at hc
    split at hc
    · exact hret hc
    · exact hread hc
  | readDev va pa len w =>
    simp only [syscallTable, sysReadDev] at hc
    split at hc
    · exact hret hc
    · obtain ⟨k₁, h₁, hrest⟩ := Option.bind_eq_some_iff.1 hc
      obtain ⟨pm, hpm, hr⟩ := Option.bind_eq_some_iff.1 hrest
      obtain ⟨g', hs, -⟩ := h.touch hcur hlive h₁
      have hv := (h.touch_retains hcur hlive h₁).visible
      have hp : Preserves (r.2.Hits cur (Syscall.readDev va pa len w).stored) k k₁ := h.touch_preserves hcur hlive h₁
      obtain ⟨pm₁, rfl⟩ := touch_eq h₁
      rw [ret_eq hr] at hp ⊢
      refine hp.trans ?_ (hv fun _ he => he)
      exact (hs.framed.store_preserves hcur hlive hpm).1
  | getEnvParentId envid =>
    simp only [syscallTable, sysGetEnvParentId] at hc
    split at hc <;> exact hret hc
  | addJob envid cmd =>
    simp only [syscallTable, sysAddJob] at hc
    split at hc
    · cases hc
      exact .of_same (.of_eq rfl rfl rfl)
    · cases hc
  | printJobs => cases hc; exact .refl k
  | tryDoneJobStatus envid =>
    obtain ⟨e, he, hd⟩ := Option.bind_eq_some_iff.1 hc
    exact hkill (envid2env_live (by exact hlive) he) hd
  | killJob jobId =>
    simp only [syscallTable, sysKillJob] at hc
    split at hc
    · cases hc
      exact .refl k
    · obtain ⟨i, -, hrest⟩ := Option.bind_eq_some_iff.1 hc
      split at hrest
      · cases hrest
        exact .refl k
      · obtain ⟨e, he, hd⟩ := Option.bind_eq_some_iff.1 hrest
        exact hkill (envid2env_live (by exact hlive) he) hd
  | getEnvidByJob jobId =>
    simp only [syscallTable, sysGetEnvidByJob] at hc
    split at hc
    · exact hret hc
    · obtain ⟨i, -, hi⟩ := Option.bind_eq_some_iff.1 hc
      split at hi <;> exact hret hi

end Framed

/-! ## Steps and runs -/

/-- Where `do_tlb_mod` puts the context. -/
def modFrame (k : Kernel) : Word :=
  let sp := k.ktf.regs 29
  (if sp < ustacktop ∨ sp ≥ uxstacktop then uxstacktop else sp) - BitVec.ofNat 32 sizeofTrapframe

/-- The addresses at which a step stores to the memory of the running environment. -/
def Act.stored (k : Kernel) : Act → List Word
  | .store va _ => [va]
  | .mod _ => wordAddrs (modFrame k) k.ktf.words.length
  | .syscall c _ => c.stored
  | _ => []

/-- The running environment stores to word `o` of the frame, at an address that it has mapped to it with `PTE_D`. -/
def Stores (k k' : Kernel) (a : Act) (f o : Nat) : Prop := ∃ cur, k.curenv = some cur ∧ k'.Hits cur (a.stored k) f o

/-- **A step writes to no word of a page but by a store of the running environment.** -/
theorem Framed.step_preserves {k k' : Kernel} {g : Ledger} (h : Framed k g) (hal : k.procs.Alive) {a : Act}
    (hsafe : MapSafe k a) (hs : Mos.step k a = some k') : Preserves (Stores k k' a) k k' := by
  cases a with
  | tick => exact .of_same (schedule_spaces hs).1
  | exec tf =>
    obtain ⟨cur, -, hu⟩ := Option.bind_eq_some_iff.1 hs
    cases hu
    exact .of_same (.of_eq rfl rfl rfl)
  | miss va victim =>
    obtain ⟨cur, hcur, hu⟩ := Option.bind_eq_some_iff.1 hs
    simp only [userStep] at hu
    split at hu
    · cases hu
    · obtain ⟨pm, hpm, rfl⟩ := Option.map_eq_some_iff.1 hu
      rw [h.cur cur hcur] at hpm
      exact .of_clean h (h.sound.refill_clean (h.mem (hal.running cur hcur)) hpm)
  | store va w =>
    obtain ⟨cur, hcur, hu⟩ := Option.bind_eq_some_iff.1 hs
    obtain ⟨pm, hpm, rfl⟩ := Option.map_eq_some_iff.1 hu
    exact (h.store_preserves hcur (hal.running cur hcur) hpm).1.mono fun f o hf => ⟨cur, hcur, hf⟩
  | mod va =>
    obtain ⟨cur, hcur, hu⟩ := Option.bind_eq_some_iff.1 hs
    simp only [userStep, doTlbMod] at hu
    obtain ⟨k₁, hw, hrest⟩ := Option.bind_eq_some_iff.1 hu
    split at hrest
    · cases hrest
    · cases hrest
      have hn := h.ktf { k.ktf with cp0Badvaddr := va }
      have hp := (hn.framed.storeWords_preserves (by exact hcur) (by exact hal.running cur hcur) hw).1
      have hp' : Preserves (k₁.Hits cur (wordAddrs (modFrame k) k.ktf.words.length)) k k₁ := ⟨hp.kept, hp.blank⟩
      exact Preserves.then_same (hp'.mono fun f o hf => ⟨cur, hcur, hf⟩) (.of_eq rfl rfl rfl)
  | syscall c v0 =>
    obtain ⟨cur, hcur, hu⟩ := Option.bind_eq_some_iff.1 hs
    obtain ⟨k₁, r, hargs, hc, rfl⟩ := doSyscall_inv hu
    have hlive := hal.running cur hcur
    obtain ⟨g₁, hs₁, -⟩ := h.readArgs hcur hlive hargs
    have hp₁ : Preserves (Stores k (setV0 v0 r) (.syscall c v0)) k k₁ := h.readArgs_preserves hcur hlive hargs
    have hv₁ := (h.readArgs_retains hcur hlive hargs).visible
    obtain ⟨pm, rfl⟩ := readArgs_eq hargs
    have hp₂ := hs₁.framed.call_preserves hal hcur (hsafe cur _ hcur hargs) hc
    have hv0 : (setV0 v0 r).pm = r.2.pm ∧ (setV0 v0 r).basePgdir = r.2.basePgdir ∧ (setV0 v0 r).envs = r.2.envs := by
      obtain ⟨_ | _ | _, k₂⟩ := r <;> exact ⟨rfl, rfl, rfl⟩
    refine (hp₁.trans (hp₂.mono fun f o hf => ⟨cur, hcur, ?_⟩) (hv₁ fun _ he => he)).then_same
      (.of_eq hv0.1 hv0.2.1 hv0.2.2)
    unfold Kernel.Hits Kernel.Writable
    rw [hv0.1, hv0.2.2]
    exact hf
  | noSys =>
    obtain ⟨cur, -, hu⟩ := Option.bind_eq_some_iff.1 hs
    cases hu
    exact .of_same (.of_eq rfl rfl rfl)

/-- The page of `va` stays in `e`, and nobody stores to word `o` of it. -/
def LeavesAlone (e : EnvIx) (va : Word) (f o : Nat) (k : Kernel) (a : Act) : Prop :=
  MapSafe k a ∧ ∀ k', step k a = some k' → (k'.envs e).envStatus ≠ .free ∧ k'.frameOf e va = some f ∧ ¬Stores k k' a f o

theorem visible_of_frameOf {k : Kernel} {e : EnvIx} {va : Word} {f : Nat} (hlive : (k.envs e).envStatus ≠ .free)
    (hva : va < utop) (hf : k.frameOf e va = some f) : k.Visible f :=
  ⟨e, hlive, pdx va, pdx_lt_utop.2 hva, ptx va, ptx_lt va, hf⟩

/-- **Memory integrity**: whatever else runs and stores elsewhere, a word of a page stays until an environment stores
to it, at an address that it has mapped to the page with `PTE_D`. -/
theorem page_kept (k : Kernel) (h : Run Linked step MapSafe k) (e : EnvIx) (hlive : (k.envs e).envStatus ≠ .free)
    (va : Word) (hva : va < utop) (f : Nat) (hf : k.frameOf e va = some f) (o : Nat) (k' : Kernel)
    (hr : Run (· = k) step (LeavesAlone e va f o) k') : k'.pm.mem f o = k.pm.mem f o := by
  have hacc : Accounted k :=
    Run.invariant Accounted (fun _ => Accounted.linked) (fun _ _ _ hi ho hs => hi.step_safe ho hs) k h
  have hall : Accounted k' ∧ k'.Visible f ∧ k'.pm.mem f o = k.pm.mem f o := by
    refine Run.invariant (fun s => Accounted s ∧ s.Visible f ∧ s.pm.mem f o = k.pm.mem f o) ?_ ?_ k' hr
    · rintro s rfl
      exact ⟨hacc, visible_of_frameOf hlive hva hf, rfl⟩
    · intro s a s' ⟨hi, hv, hm⟩ ⟨hsafe, hstay⟩ hs
      obtain ⟨hlive', hf', hno⟩ := hstay s' hs
      obtain ⟨g, hg⟩ := hi.framed
      have hv' := visible_of_frameOf hlive' hva hf'
      refine ⟨hi.step_safe hsafe hs, hv', ?_⟩
      rw [(hg.step_preserves hi.alive hsafe hs).kept f o hno hv hv', hm]
  exact hall.2.2

/-! ## Authors -/

/-- The kernel, and who has stored to which word of a page since it became one. -/
structure Authored where
  kernel : Kernel
  authors : Nat → Nat → EnvIx → Prop

namespace Authored

def step (s : Authored) (a : Act) : Option Authored :=
  (Mos.step s.kernel a).map fun k' => ⟨k', fun f o x =>
    s.kernel.Visible f ∧ s.authors f o x ∨ s.kernel.curenv = some x ∧ Stores s.kernel k' a f o⟩

/-- After `mips_init` a page has the environment whose program was loaded to it as its author. -/
def Booted (s : Authored) : Prop := Linked s.kernel ∧ s.authors = fun f _ x => s.kernel.PageOf x f

/-- **No residue**: a word of a page that is not zero was stored there, since the frame became a page, by an
environment that had it mapped.  Nothing of what a frame held before it was given back is left in any word of it. -/
theorem no_residue (s : Authored) (h : Run Booted step (fun s a => MapSafe s.kernel a) s) (f o : Nat)
    (hf : s.kernel.Visible f) (hw : s.kernel.pm.mem f o ≠ 0) : ∃ x, s.authors f o x := by
  have hinv : Accounted s.kernel ∧ ∀ f o, s.kernel.Visible f → s.kernel.pm.mem f o ≠ 0 → ∃ x, s.authors f o x := by
    refine Run.invariant
      (fun s : Authored => Accounted s.kernel ∧ ∀ f o, s.kernel.Visible f → s.kernel.pm.mem f o ≠ 0 →
        ∃ x, s.authors f o x)
      ?_ ?_ s h
    · intro s hb
      refine ⟨Accounted.linked hb.1, fun f o hf _ => ?_⟩
      rw [hb.2]
      exact hf
    · intro s a s' ⟨hi, ha⟩ hsafe hs
      obtain ⟨k', hk', rfl⟩ := Option.map_eq_some_iff.1 hs
      refine ⟨hi.step_safe hsafe hk', fun f o hf hw => ?_⟩
      obtain ⟨g, hg⟩ := hi.framed
      have hp := hg.step_preserves hi.alive hsafe hk'
      by_cases hst : Stores s.kernel k' a f o
      · obtain ⟨cur, hcur, hhits⟩ := hst
        exact ⟨cur, .inr ⟨hcur, cur, hcur, hhits⟩⟩
      · by_cases hv : s.kernel.Visible f
        · have hw' : s.kernel.pm.mem f o ≠ 0 := by
            rw [← hp.kept f o hst hv hf]
            exact hw
          obtain ⟨x, hx⟩ := ha f o hv hw'
          exact ⟨x, .inl ⟨hv, hx⟩⟩
        · exact absurd (hp.blank f o hst hv hf) hw
  exact hinv.2 f o hf hw

/-! ## The small machine -/

/-- The small machine after boot. -/
def small : Option Authored :=
  (mipsInit smallBoard [emptyProgram]).map fun k => { kernel := k, authors := fun f _ x => k.PageOf x f }

/-- The environment stores to a page of its own. -/
theorem no_residue_store : ∃ s : Authored, ∃ f x, s.kernel.pm.mem f 0 = 5 ∧ s.authors f 0 x := by
  obtain ⟨s, hr, hs⟩ := @Run.exists_of_exec Authored Act Booted step (fun s a => MapSafe s.kernel a)
    (fun s a => Granted.mapSafeB { kernel := s.kernel, grants := fun _ _ => False } a)
    (fun s a => Granted.mapSafe_of_mapSafeB { kernel := s.kernel, grants := fun _ _ => False } a)
    [.tick, .exec stackFrame, .syscall (.memAlloc 0 0x800000 pteD) 0, .store 0x800000 5] small
    (by
      intro s hs
      obtain ⟨k, hk, rfl⟩ := Option.map_eq_some_iff.1 hs
      exact ⟨Granted.linked_small k hk, rfl⟩)
    (fun s => decide ((s.kernel.envs 0).envStatus ≠ .free) && (s.kernel.frameAt 0 2 0).any fun f =>
      decide (s.kernel.pm.mem f 0 = 5))
    (by decide +kernel)
  rw [Bool.and_eq_true, decide_eq_true_eq] at hs
  obtain ⟨hlive, hpage⟩ := hs
  obtain ⟨f, hf, h5⟩ := (Option.any_eq_true _ _).1 hpage
  have h5 := of_decide_eq_true h5
  have hne : s.kernel.pm.mem f 0 ≠ 0 := by
    rw [h5]
    decide
  obtain ⟨x, hx⟩ := no_residue s hr f 0 ⟨0, hlive, 2, by decide, 0, by decide, hf⟩ hne
  exact ⟨s, f, x, h5, hx⟩

end Authored

theorem Kernel.Writable.frameOf {k : Kernel} {e : EnvIx} {va : Word} {f : Nat} (h : k.Writable e va f) :
    k.frameOf e va = some f := by
  obtain ⟨-, w, hw, rfl, -⟩ := h
  exact congrArg (Option.map ppn) hw

/-- A check that implies `LeavesAlone`: nothing is stored to the page. -/
def leavesAloneB (e : EnvIx) (va : Word) (f : Nat) (k : Kernel) (a : Act) : Bool :=
  Granted.mapSafeB { kernel := k, grants := fun _ _ => False } a &&
  (step k a).all fun k' => decide ((k'.envs e).envStatus ≠ .free ∧ k'.frameOf e va = some f) &&
    k.curenv.all fun cur => (a.stored k).all fun va' => decide (k'.frameOf cur va' ≠ some f)

theorem leavesAlone_of_leavesAloneB {e : EnvIx} {va : Word} {f o : Nat} (k : Kernel) (a : Act)
    (h : leavesAloneB e va f k a = true) :
    LeavesAlone e va f o k a := by
  unfold leavesAloneB at h
  rw [Bool.and_eq_true] at h
  obtain ⟨hsafe, hstay⟩ := h
  refine ⟨Granted.mapSafe_of_mapSafeB _ a hsafe, fun k' hs => ?_⟩
  rw [hs, Option.all_some, Bool.and_eq_true, decide_eq_true_eq] at hstay
  refine ⟨hstay.1.1, hstay.1.2, ?_⟩
  rintro ⟨cur, hcur, va', hva', hw, -⟩
  have hno := hstay.2
  rw [hcur, Option.all_some, List.all_eq_true] at hno
  exact of_decide_eq_true (hno va' hva') hw.frameOf

/-- The environment stores to a page, maps another one, stores to that, unmaps it, and makes a child. -/
theorem page_kept_child :
    ∃ (k k' : Kernel) (f : Nat), k.frameOf 0 0x800000 = some f ∧ k.pm.mem f 0 = 5 ∧ k'.pm.mem f 0 = k.pm.mem f 0 := by
  obtain ⟨k, hr, hk⟩ := @Run.exists_of_exec Kernel Act Linked Mos.step MapSafe
    (fun k a => Granted.mapSafeB { kernel := k, grants := fun _ _ => False } a)
    (fun k a => Granted.mapSafe_of_mapSafeB { kernel := k, grants := fun _ _ => False } a)
    [.tick, .exec stackFrame, .syscall (.memAlloc 0 0x800000 pteD) 0, .store 0x800000 5]
    (mipsInit smallBoard [emptyProgram]) Granted.linked_small
    (fun k => decide ((k.envs 0).envStatus ≠ .free) && (k.frameOf 0 0x800000).any fun f => decide (k.pm.mem f 0 = 5) &&
      (exec step (leavesAloneB 0 0x800000 f) [.syscall (.memAlloc 0 0x801000 pteD) 0, .store 0x801000 7,
        .syscall .exofork 0,
        .syscall (.memUnmap 0 0x801000) 0, .tick] k).isSome) (by decide +kernel)
  rw [Bool.and_eq_true, decide_eq_true_eq] at hk
  obtain ⟨hlive, hpage⟩ := hk
  obtain ⟨f, hf, hrest⟩ := (Option.any_eq_true _ _).1 hpage
  rw [Bool.and_eq_true, decide_eq_true_eq] at hrest
  obtain ⟨k', hk'⟩ := Option.isSome_iff_exists.1 hrest.2
  have hrun : Run (· = k) step (LeavesAlone 0 0x800000 f 0) k' :=
    Run.of_exec leavesAlone_of_leavesAloneB _ k k' (.start k rfl) hk'
  exact ⟨k, k', f, hf, hrest.1, page_kept k hr 0 hlive 0x800000 (by decide) f hf 0 k' hrun⟩

end Mos
