import Mos.Counter
import Mos.Receiving
/-!
# Keeping — what an access leaves mapped

An access maps a page only where none is mapped, and a store goes to a mapped page, which is no table.  So neither
changes an entry that is valid, in the space it is made in or in any other.
-/
namespace Mos

/-! ## Entries -/

/-- Every valid entry of the directories stays. -/
def Keeps (D : Finset Nat) (p p' : Pmap) : Prop :=
  ∀ s ∈ pageSlots utopEntries D, ∀ w, p.pte s = some w → p'.pte s = some w

namespace Keeps

variable {D : Finset Nat} {p p₁ p' : Pmap}

theorem refl (p : Pmap) : Keeps D p p := fun _ _ _ hw => hw

theorem trans (h : Keeps D p p₁) (h' : Keeps D p₁ p') : Keeps D p p' := fun s hs w hw => h' s hs w (h s hs w hw)

theorem of_same (h : SameMaps utopEntries D p p') : Keeps D p p' := fun s hs _ hw => (h.pte s hs).trans hw

theorem of_setsPte {s₀ : Nat × Nat × Nat} {v : Option Word} (h : SetsPte utopEntries D p p' s₀ v)
    (hnone : p.pte s₀ = none) :
    Keeps D p p' := by
  intro s hs w hw
  rw [h s hs, if_neg]
  · exact hw
  · rintro rfl
    rw [hnone] at hw
    cases hw

theorem frame (h : Keeps D p p') {s : Nat × Nat × Nat} (hs : s ∈ pageSlots utopEntries D) {f : Nat}
    (hf : p.frame s = some f) :
    p'.frame s = some f := by
  obtain ⟨w, hw, rfl⟩ := Option.map_eq_some_iff.1 hf
  rw [Pmap.frame, h s hs w hw]
  rfl

/-- The valid entries of the directories and the tables they lead to are not written. -/
theorem of_mem (hdir : ∀ d ∈ D, ∀ i < utopEntries, valid (p.mem d i) = true → p'.mem d i = p.mem d i)
    (htable : ∀ s ∈ tableSlots utopEntries D, ∀ t, p.table s = some t → p'.mem t = p.mem t) : Keeps D p p' := by
  intro s hs w hw
  obtain ⟨t, ht, hv, rfl⟩ := table_of_pte hw
  have hslot := Tree.slot_table hs
  obtain ⟨hd, hi⟩ := mem_tableSlots.1 hslot
  have ht' : p'.table (s.1, s.2.1) = some t := by
    unfold Pmap.table at ht ⊢
    dsimp only at ht ⊢
    split at ht
    · rename_i hv
      rw [hdir s.1 hd s.2.1 hi hv, if_pos hv]
      exact ht
    · cases ht
  have hmem := htable _ hslot t ht
  rw [show s = (s.1, s.2.1, s.2.2) from rfl, pte_of_table ht', hmem, if_pos hv]

end Keeps

namespace Sound

variable {base d : Nat} {asid va : Word} {p p' : Pmap} {g : Ledger}

theorem alloc_same (h : Sound base p g) {pp : Nat} (ha : pageAlloc p = some (pp, p')) :
    SameMaps utopEntries g.dirs p p' := by
  obtain ⟨rest, hf, -⟩ := pageAlloc_eq ha
  obtain ⟨p₁, ha₁, -, -, -, -, -, hsame⟩ := h.acct.alloc hf
  obtain rfl : p₁ = p' := by simpa using ha₁.symm.trans ha
  exact hsame

theorem pte_none (h : Sound base p g) (hd : d ∈ g.dirs) (hva : va < utop) (hl : pageLookup p d va = some none) :
    p.pte (slotOf d va) = none := by
  obtain ⟨l, hl', hf⟩ := h.acct.lookup hd (pdx_lt_utop.2 hva)
  rw [hl, Option.some.injEq] at hl'
  rw [← hl', Option.map_none] at hf
  exact Option.map_eq_none_iff.1 hf.symm

theorem passive_keeps (h : Sound base p g) (hd : d ∈ g.dirs) (hl : pageLookup p d va = some none)
    (hp : passiveAlloc p d asid va = some p') : Keeps g.dirs p p' := by
  by_cases hva : va < utop
  · obtain ⟨pp, p₁, g₁, g', ha, hm, hins, -⟩ := h.passive_below hd hva hl hp
    have hsame := h.alloc_same ha
    have hpte := hins.pte
    rw [hm.dirs] at hpte
    have hslot : slotOf d (pteAddr va) = slotOf d va := by
      unfold slotOf
      rw [pdx_pteAddr, ptx_pteAddr]
    rw [hslot] at hpte
    refine (Keeps.of_same hsame).trans (.of_setsPte hpte ?_)
    rw [hsame.pte _ (slotOf_mem hd (pdx_lt_utop.2 hva))]
    exact h.pte_none hd hva hl
  · obtain ⟨pp, p₁, ha, hne, hv, rfl⟩ := h.passive_window_eq hd hva hl hp
    have hsame := h.alloc_same ha
    obtain ⟨-, -, -, hm⟩ := h.alloc ha
    refine (Keeps.of_same hsame).trans (.of_mem ?_ ?_)
    · intro d' _ i hi hv'
      show ((p₁.setRef pp 1).write (d, ptx va) (entryOf pp 0)).mem d' i = p₁.mem d' i
      rw [write_mem, if_neg]
      · rfl
      · -- the entry that is written is not valid
        rintro ⟨rfl, rfl⟩
        have htab := hsame.table (d', ptx va) (mem_tableSlots.2 ⟨hd, hi⟩)
        unfold Pmap.table at htab
        rw [if_pos hv', hv] at htab
        cases htab
    · intro s hs t ht
      have htd : t ≠ d := fun hc => hm.sound.acct.tree.table_dir s hs t ht (hc ▸ hd)
      exact write_mem_ne _ (e := (d, ptx va)) htd

theorem refill_keeps (h : Sound base p g) {victim : Nat} (hd : d ∈ g.dirs)
    (hr : doTlbRefill p d asid va victim = some p') :
    Keeps g.dirs p p' := by
  unfold doTlbRefill at hr
  obtain ⟨⟨e, p₂⟩, hl, rfl⟩ := Option.map_eq_some_iff.1 hr
  have h₁ := (h.tlb (tlbInvalidate p asid va).tlb).sound
  show Keeps g.dirs p p₂
  unfold lookupAlloc at hl
  obtain ⟨l, hl₁, hl₂⟩ := Option.bind_eq_some_iff.1 hl
  cases l with
  | some l =>
    cases hl₂
    exact .refl p
  | none =>
    obtain ⟨p₃, hpas, hrest⟩ := Option.bind_eq_some_iff.1 hl₂
    obtain ⟨l', -, hl'⟩ := Option.bind_eq_some_iff.1 hrest
    obtain ⟨⟨pp, e'⟩, -, he⟩ := Option.map_eq_some_iff.1 hl'
    cases he
    exact h₁.passive_keeps hd hl₁ hpas

theorem touch_keeps (h : Sound base p g) (hd : d ∈ g.dirs) (ht : Mos.touch p d asid va = some p') :
    Keeps g.dirs p p' := by
  unfold Mos.touch at ht
  split at ht
  · cases ht
    exact .refl p
  · obtain ⟨l, -, hrest⟩ := Option.bind_eq_some_iff.1 ht
    cases l with
    | some l =>
      cases hrest
      exact .refl p
    | none => exact h.refill_keeps hd hrest

theorem setup_keeps (h : Sound base p g) {pp : Nat} {p₁ : Pmap} (ha : pageAlloc p = some (pp, p₁)) :
    Keeps g.dirs p (setupPgdir (p₁.setRef pp (p₁.ppRef pp + 1)) base pp) := by
  obtain ⟨hmem, -⟩ := h.alloc ha
  obtain ⟨hlt, hr, -⟩ := h.acct.of_free hmem
  have hout := (h.acct.unref hlt hr).1
  obtain ⟨-, -, -, -, -, hsame, -⟩ := h.setup ha
  exact .of_same (SameMaps.of_mem (fun f hf => hsame f (fun hc => hf (hc ▸ hout))))

theorem store_keeps (h : Sound base p g) {w : Word} (hd : d ∈ g.dirs) (hs : Mos.store p d va w = some p') :
    Keeps g.dirs p p' :=
  .of_same (SameMaps.of_mem (fun _ hf => h.store_mem hd hs (.inl hf)))

end Sound

/-! ## Environments -/

/-- Every page of a live environment stays mapped to its frame. -/
def Retains (k k' : Kernel) : Prop :=
  ∀ e, (k.envs e).envStatus ≠ .free → ∀ va < utop, ∀ f, k.frameOf e va = some f → k'.frameOf e va = some f

namespace Retains

variable {k k₁ k' : Kernel} {g : Ledger}

theorem refl (k : Kernel) : Retains k k := fun _ _ _ _ _ hf => hf

theorem trans (h : Retains k k₁) (h' : Retains k₁ k')
    (hlive : ∀ e, (k₁.envs e).envStatus ≠ .free ↔ (k.envs e).envStatus ≠ .free) :
    Retains k k' :=
  fun e he va hva f hf => h' e ((hlive e).2 he) va hva f (h e he va hva f hf)

theorem of_same (hs : SameSpaces k k') : Retains k k' := by
  intro e he va _ f hf
  unfold Kernel.frameOf at hf ⊢
  rw [hs.pm, hs.pgdir e he]
  exact hf

theorem of_keeps (h : Framed k g) {pm : Pmap} (hk : Keeps g.dirs k.pm pm) : Retains k (k.setPm pm) :=
  fun _ he _ hva _ hf => hk.frame (slotOf_mem (h.mem he) (pdx_lt_utop.2 hva)) hf

end Retains

namespace Framed

variable {k k' : Kernel} {g : Ledger} {c : EnvIx}

theorem touch_retains (h : Framed k g) {va : Word} (hc : k.curenv = some c) (hlive : (k.envs c).envStatus ≠ .free)
    (ht : k.touch c va = some k') : Retains k k' := by
  obtain ⟨pm, hpm, rfl⟩ := Option.map_eq_some_iff.1 ht
  rw [h.cur c hc] at hpm
  exact .of_keeps h (h.sound.touch_keeps (h.mem hlive) hpm)

theorem storeWords_retains :
    ∀ {ws : List Word} {va : Word} {k k' : Kernel} {g : Ledger}, Framed k g → k.curenv = some c →
    (k.envs c).envStatus ≠ .free → k.storeWords c va ws = some k' → Retains k k'
  | [], _, k, k', g, _, _, _, hs => by
    cases hs
    exact .refl _
  | w :: ws, va, k, k', g, h, hc, hlive, hs => by
    unfold Kernel.storeWords at hs
    obtain ⟨k₁, h₁, h₂⟩ := Option.bind_eq_some_iff.1 hs
    obtain ⟨g₁, hs₁, -⟩ := h.touch hc hlive h₁
    have ho := h.touch_retains hc hlive h₁
    obtain ⟨pm₁, rfl⟩ := touch_eq h₁
    obtain ⟨pm₂, hst, h₃⟩ := Option.bind_eq_some_iff.1 h₂
    have hs₂ := hs₁.framed.store hc hlive hst
    have hst' := hst
    rw [hs₁.framed.cur c hc] at hst'
    have ho₂ := Retains.of_keeps hs₁.framed (hs₁.framed.sound.store_keeps (hs₁.framed.mem hlive) hst')
    exact (ho.trans ho₂ (fun _ => Iff.rfl)).trans (storeWords_retains hs₂.framed hc hlive h₃) (fun _ => Iff.rfl)

theorem readArgs_retains (h : Framed k g) (hc : k.curenv = some c) (hlive : (k.envs c).envStatus ≠ .free)
    (hr : Mos.readArgs k c = some k') : Retains k k' := by
  obtain ⟨k₁, h₁, h₂⟩ := Option.bind_eq_some_iff.1 hr
  have hn := h.ktf k.ktf.nextInstr
  obtain ⟨g₁, hs₁, -⟩ := hn.framed.touch (by exact hc) (by exact hlive) h₁
  have ho := hn.framed.touch_retains (by exact hc) (by exact hlive) h₁
  obtain ⟨pm₁, rfl⟩ := touch_eq h₁
  exact ho.trans (hs₁.framed.touch_retains (by exact hc) (by exact hlive) h₂) (fun _ => Iff.rfl)

/-- **A step that is no system call keeps every page where it is.** -/
theorem step_retains (h : Framed k g) (hal : k.procs.Alive) {a : Act} (ha : ∀ c v0, a ≠ .syscall c v0)
    (hs : Mos.step k a = some k') : Retains k k' := by
  cases a with
  | tick => exact .of_same (schedule_spaces hs).1
  | exec tf =>
    obtain ⟨cur, -, hu⟩ := Option.bind_eq_some_iff.1 hs
    cases hu
    exact .refl k
  | miss va victim =>
    obtain ⟨cur, hcur, hu⟩ := Option.bind_eq_some_iff.1 hs
    simp only [userStep] at hu
    split at hu
    · cases hu
    · obtain ⟨pm, hpm, rfl⟩ := Option.map_eq_some_iff.1 hu
      rw [h.cur cur hcur] at hpm
      exact .of_keeps h (h.sound.refill_keeps (h.mem (hal.running cur hcur)) hpm)
  | store va w =>
    obtain ⟨cur, hcur, hu⟩ := Option.bind_eq_some_iff.1 hs
    obtain ⟨pm, hpm, rfl⟩ := Option.map_eq_some_iff.1 hu
    rw [h.cur cur hcur] at hpm
    exact .of_keeps h (h.sound.store_keeps (h.mem (hal.running cur hcur)) hpm)
  | mod va =>
    obtain ⟨cur, hcur, hu⟩ := Option.bind_eq_some_iff.1 hs
    simp only [userStep, doTlbMod] at hu
    obtain ⟨k₁, hw, hrest⟩ := Option.bind_eq_some_iff.1 hu
    split at hrest
    · cases hrest
    · cases hrest
      have hn := h.ktf { k.ktf with cp0Badvaddr := va }
      have hret : Retains k k₁ := hn.framed.storeWords_retains (by exact hcur) (by exact hal.running cur hcur) hw
      exact hret
  | syscall c v0 => exact absurd rfl (ha c v0)
  | noSys =>
    obtain ⟨cur, -, hu⟩ := Option.bind_eq_some_iff.1 hs
    cases hu
    exact .refl k

/-! ## Calls -/

theorem touchRange_retains {va : Word} {len : Nat} : ∀ {k k' : Kernel} {g : Ledger}, Framed k g → k.curenv = some c →
    (k.envs c).envStatus ≠ .free → k.touchRange c va len = some k' → Retains k k' ∧ ∃ pm, k' = k.setPm pm := by
  unfold Kernel.touchRange
  generalize List.range len = is
  induction is with
  | nil =>
    intro k k' g h _ _ ht
    cases ht
    exact ⟨.refl k, k.pm, rfl⟩
  | cons i is ih =>
    intro k k' g h hc hlive ht
    rw [List.foldlM_cons] at ht
    obtain ⟨k₁, h₁, h₂⟩ := Option.bind_eq_some_iff.1 ht
    obtain ⟨g₁, hs, -⟩ := h.touch hc hlive h₁
    have hret := h.touch_retains hc hlive h₁
    obtain ⟨pm, rfl⟩ := touch_eq h₁
    obtain ⟨hret', pm', rfl⟩ := ih hs.framed hc hlive h₂
    exact ⟨hret.trans hret' (fun _ => Iff.rfl), pm', rfl⟩

end Framed

/-- The call maps or unmaps the page of `va` in `e`. -/
def Syscall.remaps (k : Kernel) (cur : EnvIx) : Syscall → EnvIx → Word → Prop
  | .memAlloc envid va' _ => fun e va => envid2env k cur envid true = some e ∧ vpn va' = vpn va
  | .memMap _ _ dstid dstva _ => fun e va => envid2env k cur dstid true = some e ∧ vpn dstva = vpn va
  | .memUnmap envid va' => fun e va => envid2env k cur envid true = some e ∧ vpn va' = vpn va
  | _ => fun _ _ => False

/-- **What stays of the live environments**: the address they receive at, and the pages outside `skip`. -/
structure Leaves (skip : EnvIx → Word → Prop) (k k' : Kernel) : Prop where
  dst : ∀ e, (k.envs e).envStatus ≠ .free → (k'.envs e).envIpcDstva = (k.envs e).envIpcDstva
  pages : ∀ e, (k.envs e).envStatus ≠ .free → ∀ va < utop, ¬skip e va → ∀ f, k.frameOf e va = some f →
    k'.frameOf e va = some f

namespace Leaves

variable {skip : EnvIx → Word → Prop} {k k' : Kernel}

theorem of_retains (h : Retains k k') (hd : ∀ e, (k'.envs e).envIpcDstva = (k.envs e).envIpcDstva) : Leaves skip k k' :=
  ⟨fun e _ => hd e, fun e he va hva _ f hf => h e he va hva f hf⟩

theorem refl (k : Kernel) : Leaves skip k k := .of_retains (.refl k) (fun _ => rfl)

theorem setEnv (k : Kernel) (e : EnvIx) {f : Env → Env} (hp : (f (k.envs e)).envPgdir = (k.envs e).envPgdir)
    (hd : (f (k.envs e)).envIpcDstva = (k.envs e).envIpcDstva) : Leaves skip k (k.setEnv e f) := by
  refine ⟨fun x _ => k.setEnv_field e x hd, fun x _ va _ _ f hf => ?_⟩
  unfold Kernel.frameOf at hf ⊢
  rw [k.setEnv_field e x hp]
  exact hf

theorem trans {k₁ : Kernel} (h : Leaves skip k k₁) (h' : Leaves skip k₁ k')
    (hlive : ∀ e, (k₁.envs e).envStatus ≠ .free ↔ (k.envs e).envStatus ≠ .free) : Leaves skip k k' :=
  ⟨fun e he => (h'.dst e ((hlive e).2 he)).trans (h.dst e he),
    fun e he va hva hs f hf => h'.pages e ((hlive e).2 he) va hva hs f (h.pages e he va hva hs f hf)⟩

theorem of_setsPte {g : Ledger} (h : Framed k g) {e : EnvIx} {va : Word} {v : Option Word} {pm : Pmap}
    (he : (k.envs e).envStatus ≠ .free) (hskip : ∀ va', vpn va = vpn va' → skip e va')
    (hs : SetsPte utopEntries g.dirs k.pm pm (slotOf (k.envs e).envPgdir va) v) : Leaves skip k (k.setPm pm) := by
  refine ⟨fun _ _ => rfl, fun x hx va' hva' hno f hf => ?_⟩
  show (pm.pte (slotOf (k.envs x).envPgdir va')).map ppn = some f
  rw [hs _ (slotOf_mem (h.mem hx) (pdx_lt_utop.2 hva')), if_neg]
  · exact hf
  · intro hc
    obtain rfl := h.inj x e hx he (congrArg Prod.fst hc)
    refine hno (hskip va' ?_)
    rw [slotOf_vpn, slotOf_vpn] at hc
    simp only [Prod.mk.injEq, true_and] at hc
    rw [← Nat.div_add_mod (vpn va) pageWords, ← Nat.div_add_mod (vpn va') pageWords, hc.1, hc.2]

end Leaves

namespace Framed

variable {k k' : Kernel} {g : Ledger} {cur : EnvIx} {r : Sysret × Kernel}

theorem memAlloc_leaves (h : Framed k g) {envid va perm : Word} (hlive : (k.envs cur).envStatus ≠ .free)
    (hsafe : CallSafe k cur (.memAlloc envid va perm)) (hc : sysMemAlloc k cur envid va perm = some r) :
    Leaves ((Syscall.memAlloc envid va perm).remaps k cur) k r.2 := by
  unfold sysMemAlloc at hc
  split at hc
  · rw [ret_eq hc]
    exact .refl k
  rename_i hva
  split at hc
  · rw [ret_eq hc]
    exact .refl k
  rename_i e he
  split at hc
  · rw [ret_eq hc]
    exact .refl k
  rename_i pp pm₁ ha
  obtain ⟨⟨i, pm⟩, hi, hr⟩ := Option.bind_eq_some_iff.1 hc
  rw [ret_eq hr]
  have helive := envid2env_live hlive he
  have hva' : va < utop := legal_lt (by simpa using hva)
  obtain ⟨rest, hf, hpm₁⟩ := pageAlloc_eq ha
  have hhead : k.pm.pageFreeList.head? = some pp := by rw [hf]; rfl
  obtain ⟨-, -, htab, hm⟩ := h.sound.alloc ha
  have hsame := h.sound.alloc_same ha
  have hlimbo := Finset.mem_insert_self pp g.limbo
  have hr0 : pm₁.ppRef pp = 0 := (hm.sound.acct.limbo pp hlimbo).2
  have hheld : g.held pp = 0 := (hm.sound.acct.unref (hm.sound.acct.limbo pp hlimbo).1 hr0).2.2
  have hnone : ∀ {q : Pmap}, SameMaps utopEntries g.dirs k.pm q →
      Leaves ((Syscall.memAlloc envid va perm).remaps k cur) k
      (k.setPm q) := fun hq => .of_retains (.of_keeps h (.of_same hq)) (fun _ => rfl)
  rcases hsafe e va pp ⟨he, rfl, hhead⟩ with ⟨ht, hpool⟩ | hmap
  · have hslot : ((k.envs e).envPgdir, pdx va) ∈ tableSlots utopEntries g.dirs :=
      mem_tableSlots.2 ⟨h.mem helive, pdx_lt_utop.2 hva'⟩
    have hfree₁ : pm₁.pageFreeList = [] := by
      rw [hpm₁]
      show rest = []
      rw [Syscall.pool, hf] at hpool
      exact hpool
    rw [insert_noRoom ((htab _ hslot).trans ht) hfree₁] at hi
    cases hi
    exact hnone (hsame.trans ⟨fun _ _ => rfl, fun _ _ => rfl⟩)
  · rcases hm.sound.insertPage (h.mem helive) hva' (hm.sound.acct.usable_of_limbo hlimbo) hheld
        (.inr (by rw [hr0]; decide))
      hmap.1 hi with ⟨rfl, ht, hfree, -⟩ | ⟨rfl, hins, -⟩
    · rw [insert_noRoom ht hfree] at hi
      cases hi
      exact hnone (hsame.trans ⟨fun _ _ => rfl, fun _ _ => rfl⟩)
    · refine .of_setsPte h helive (fun va' hv => ⟨he, hv⟩) (v := some (entryOf pp perm)) fun s hs => ?_
      rw [← hsame.pte s hs]
      exact hins.pte s hs

theorem memMap_leaves (h : Framed k g) {srcid srcva dstid dstva perm : Word} (hlive : (k.envs cur).envStatus ≠ .free)
    (hsafe : CallSafe k cur (.memMap srcid srcva dstid dstva perm))
    (hc : sysMemMap k cur srcid srcva dstid dstva perm = some r) :
    Leaves ((Syscall.memMap srcid srcva dstid dstva perm).remaps k cur) k r.2 := by
  unfold sysMemMap at hc
  split at hc
  · rw [ret_eq hc]
    exact .refl k
  rename_i hva
  rw [Bool.not_eq_true, Bool.or_eq_false_iff] at hva
  split at hc
  · rw [ret_eq hc]
    exact .refl k
  rename_i src hsrc
  split at hc
  · rw [ret_eq hc]
    exact .refl k
  rename_i dst hdst
  obtain ⟨l, hl, hrest⟩ := Option.bind_eq_some_iff.1 hc
  cases l with
  | none =>
    rw [ret_eq hrest]
    exact .refl k
  | some l =>
    obtain ⟨pp, pte⟩ := l
    obtain ⟨⟨i, pm⟩, hi, hr⟩ := Option.bind_eq_some_iff.1 hrest
    rw [ret_eq hr]
    have hslive := envid2env_live hlive hsrc
    have hdlive := envid2env_live hlive hdst
    have hf : k.frameOf src srcva = some pp := (h.lookup hslive (legal_lt hva.1) hl).symm
    have hslot := slotOf_mem (h.mem hslive) (pdx_lt_utop.2 (legal_lt hva.1))
    have hnone : Leaves ((Syscall.memMap srcid srcva dstid dstva perm).remaps k cur) k
        (k.setPm (tlbInvalidate k.pm (k.envs dst).envAsid dstva)) :=
      .of_retains (.of_keeps h (.of_same ⟨fun _ _ => rfl, fun _ _ => rfl⟩)) (fun _ => rfl)
    rcases hsafe dst dstva pp ⟨hdst, rfl, src, hsrc, hf⟩ with ⟨ht, hfree⟩ | hmap
    · rw [insert_noRoom ht hfree] at hi
      cases hi
      exact hnone
    · rcases h.sound.insertPage (h.mem hdlive) (legal_lt hva.2) (h.sound.acct.usable_of_frame hslot hf)
        (h.sound.frame _ hslot pp hf) hmap.2 hmap.1 hi with ⟨rfl, ht, hfree, -⟩ | ⟨rfl, hins, -⟩
      · rw [insert_noRoom ht hfree] at hi
        cases hi
        exact hnone
      · exact .of_setsPte h hdlive (fun va' hv => ⟨hdst, hv⟩) hins.pte

theorem allocated_leaves {skip : EnvIx → Word → Prop} (h : Framed k g) {e : EnvIx} {pp : Nat} {pm₁ : Pmap}
    (ha : Allocated k k' e pp pm₁) (hfree : (k.envs e).envStatus = .free) : Leaves skip k k' := by
  have hother : ∀ x, (k.envs x).envStatus ≠ .free → k'.envs x = k.envs x :=
    fun x hx => ha.other x (fun hc => hx (hc ▸ hfree))
  refine ⟨fun x hx => by rw [hother x hx], fun x hx va hva _ f hf => ?_⟩
  unfold Kernel.frameOf
  rw [hother x hx, ha.pm]
  exact (h.sound.setup_keeps ha.alloc).frame (slotOf_mem (h.mem hx) (pdx_lt_utop.2 hva)) hf

/-- **A call that neither receives nor sends nor changes a status** takes no page away but where it maps or unmaps. -/
theorem call_leaves (h : Framed k g) (hal : k.procs.Alive) (hcur : k.curenv = some cur) {c : Syscall}
    (hrecv : ∀ dstva, c ≠ .ipcRecv dstva) (hsend : ∀ envid value srcva perm, c ≠ .ipcTrySend envid value srcva perm)
    (hsafe : CallSafe k cur c) (hc : syscallTable k cur c = some r)
    (hst : ∀ e, (r.2.envs e).envStatus = (k.envs e).envStatus) : Leaves (c.remaps k cur) k r.2 := by
  have hlive : (k.envs cur).envStatus ≠ .free := hal.running cur hcur
  have hret : ∀ {i : Int}, ret i k = some r → Leaves (c.remaps k cur) k r.2 := by
    intro i hr
    rw [ret_eq hr]
    exact .refl k
  -- nobody is destroyed
  have hdestroy : ∀ {p : Procs} {e : EnvIx}, p.Destroys e r.2.procs → (k.envs e).envStatus ≠ .free →
      Leaves (c.remaps k cur) k r.2 := by
    intro p e hd he
    have hfree := congrFun (Tracked.destroys_flags hd).1 e
    rw [Procs.setStatus_status, if_pos rfl] at hfree
    exact absurd ((hst e).symm.trans hfree) he
  cases c with
  | putchar => cases hc; exact .refl k
  | printCons s num =>
    simp only [syscallTable, sysPrintCons] at hc
    split at hc
    · exact hret hc
    · obtain ⟨k₁, h₁, hr⟩ := Option.bind_eq_some_iff.1 hc
      obtain ⟨hkeep, pm, rfl⟩ := h.touchRange_retains hcur hlive h₁
      rw [ret_eq hr]
      exact .of_retains hkeep (fun _ => rfl)
  | getenvid => exact hret hc
  | yield =>
    obtain ⟨k₁, h₁, rfl⟩ := Option.map_eq_some_iff.1 hc
    obtain ⟨hsp, -, hd⟩ := schedule_spaces h₁
    exact .of_retains (.of_same ⟨hsp.pm, hsp.base, hsp.status, hsp.pgdir⟩) hd
  | envDestroy envid =>
    simp only [syscallTable, sysEnvDestroy] at hc
    split at hc
    · exact hret hc
    · rename_i e he
      exact hdestroy (destroyAndReturn_procs hc) (envid2env_live hlive he)
  | setTlbModEntry envid func =>
    simp only [syscallTable, sysSetTlbModEntry] at hc
    split at hc
    · exact hret hc
    · rename_i e he
      rw [ret_eq hc]
      exact .setEnv k e (f := fun v => { v with envUserTlbModEntry := func }) rfl rfl
  | memAlloc envid va perm => exact h.memAlloc_leaves hlive hsafe hc
  | memMap srcid srcva dstid dstva perm => exact h.memMap_leaves hlive hsafe hc
  | memUnmap envid va =>
    simp only [syscallTable, sysMemUnmap] at hc
    split at hc
    · exact hret hc
    · rename_i hva
      split at hc
      · exact hret hc
      · rename_i e he
        obtain ⟨pm, hpm, hr⟩ := Option.bind_eq_some_iff.1 hc
        rw [ret_eq hr]
        have helive := envid2env_live hlive he
        obtain ⟨-, -, hset⟩ := h.sound.remove (h.mem helive) (legal_lt (by simpa using hva)) hpm
        exact .of_setsPte h helive (fun va' hv => ⟨he, hv⟩) hset
  | exofork =>
    simp only [syscallTable, sysExofork] at hc
    split at hc
    · rename_i i k₁ ha
      rw [ret_eq hc]
      rcases envAlloc_inv ha with ⟨-, -, hk⟩ | ⟨e, rest, pp, pm₁, hf, hall, -⟩
      · rw [hk]
        exact .refl k
      · exact h.allocated_leaves hall (hal.free e (by rw [show k.procs.free = e :: rest from hf]; simp))
    · rename_i e k₁ ha
      rw [ret_eq hc] at hst
      rcases envAlloc_inv ha with ⟨i, hr, -⟩ | ⟨e', rest, pp, pm₁, hf, hall, hr⟩
      · cases hr
      · obtain rfl : e = e' := by simpa using hr
        have hfree : (k.envs e).envStatus = .free := hal.free e (by rw [show k.procs.free = e :: rest from hf]; simp)
        have hnew := hst e
        rw [hfree, Kernel.setEnv_self] at hnew
        cases hnew
  | setEnvStatus envid status =>
    simp only [syscallTable, sysSetEnvStatus] at hc
    split at hc
    · exact hret hc
    · rename_i st _
      split at hc
      · exact hret hc
      · rename_i e he
        obtain ⟨q, -, hr⟩ := Option.bind_eq_some_iff.1 hc
        rw [ret_eq hr]
        have hsched : Leaves ((Syscall.setEnvStatus envid status).remaps k cur) k (k.setSched q) :=
          .of_retains (.of_same (.of_eq rfl rfl rfl)) (fun _ => rfl)
        exact hsched.trans (.setEnv (k.setSched q) e (f := fun v => { v with envStatus := st }) rfl rfl)
          (fun _ => Iff.rfl)
  | setTrapframe envid va tf =>
    simp only [syscallTable, sysSetTrapframe] at hc
    split at hc
    · exact hret hc
    · split at hc
      · exact hret hc
      · rename_i e he
        obtain ⟨k₁, h₁, hr⟩ := Option.bind_eq_some_iff.1 hc
        obtain ⟨hkeep, pm, rfl⟩ := h.touchRange_retains hcur hlive h₁
        have hone : ∀ {skip : EnvIx → Word → Prop}, Leaves skip k (k.setPm pm) := .of_retains hkeep (fun _ => rfl)
        split at hr
        · rw [ret_eq hr]
          exact .of_retains hkeep (fun _ => rfl)
        · rw [ret_eq hr]
          exact hone.trans (.setEnv (k.setPm pm) e (f := fun v => { v with envTf := tf }) rfl rfl) (fun _ => Iff.rfl)
  | panic => cases hc
  | ipcTrySend envid value srcva perm => exact absurd rfl (hsend envid value srcva perm)
  | ipcRecv dstva => exact absurd rfl (hrecv dstva)
  | cgetc ch => exact hret hc
  | writeDev va pa len =>
    simp only [syscallTable, sysWriteDev] at hc
    split at hc
    · exact hret hc
    · obtain ⟨k₁, h₁, hr⟩ := Option.bind_eq_some_iff.1 hc
      obtain ⟨hkeep, pm, rfl⟩ := h.touchRange_retains hcur hlive h₁
      rw [ret_eq hr]
      exact .of_retains hkeep (fun _ => rfl)
  | readDev va pa len w =>
    simp only [syscallTable, sysReadDev] at hc
    split at hc
    · exact hret hc
    · obtain ⟨k₁, h₁, hrest⟩ := Option.bind_eq_some_iff.1 hc
      obtain ⟨pm, hpm, hr⟩ := Option.bind_eq_some_iff.1 hrest
      obtain ⟨g', hs, -⟩ := h.touch hcur hlive h₁
      have hkeep := h.touch_retains hcur hlive h₁
      obtain ⟨pm₁, rfl⟩ := touch_eq h₁
      rw [hs.framed.cur cur hcur] at hpm
      have hkeep' := Retains.of_keeps hs.framed (hs.framed.sound.store_keeps (hs.framed.mem hlive) hpm)
      rw [ret_eq hr]
      exact .of_retains (hkeep.trans hkeep' (fun _ => Iff.rfl)) (fun _ => rfl)
  | getEnvParentId envid =>
    simp only [syscallTable, sysGetEnvParentId] at hc
    split at hc <;> exact hret hc
  | addJob envid cmd =>
    simp only [syscallTable, sysAddJob] at hc
    split at hc
    · cases hc
      exact .of_retains (.of_same (.of_eq rfl rfl rfl)) (fun _ => rfl)
    · cases hc
  | printJobs => cases hc; exact .refl k
  | tryDoneJobStatus envid =>
    obtain ⟨e, he, hd⟩ := Option.bind_eq_some_iff.1 hc
    exact hdestroy (destroyAndReturn_procs hd) (envid2env_live hlive he)
  | killJob jobId =>
    simp only [syscallTable, sysKillJob] at hc
    split at hc
    · cases hc
      exact .refl k
    · obtain ⟨i, -, hrest⟩ := Option.bind_eq_some_iff.1 hc
      split at hrest
      · cases hrest
        exact .refl k
      · obtain ⟨e, he, hd⟩ := Option.bind_eq_some_iff.1 hrest
        exact hdestroy (destroyAndReturn_procs hd) (envid2env_live hlive he)
  | getEnvidByJob jobId =>
    simp only [syscallTable, sysGetEnvidByJob] at hc
    split at hc
    · exact hret hc
    · obtain ⟨i, -, hi⟩ := Option.bind_eq_some_iff.1 hc
      split at hi <;> exact hret hi

end Framed

end Mos
