import Mos.Counter
/-!
# Window — user mappings stay in the user window

Every way to map a page below `UTOP` checks the address it maps at, except one: `sys_ipc_try_send` maps its page at the
address that the receiver passed to `sys_ipc_recv`, where 0 stands for no page.  As long as no page is sent to an
environment that waits for none, and page tables are what `page_insert` makes of them, everything that is mapped below
`UTOP` lies from `UTEMP` on.
-/
namespace Mos

/-! ## Pages -/

/-- Every page of the directories that is mapped anew lies from `UTEMP` on. -/
def InWindow (D : Finset Nat) (p p' : Pmap) : Prop :=
  ∀ d ∈ D, ∀ va < utop, p'.frame (slotOf d va) ≠ none → p.frame (slotOf d va) ≠ none ∨ utemp ≤ va

namespace InWindow

variable {D : Finset Nat} {p p₁ p' : Pmap}

theorem refl (p : Pmap) : InWindow D p p := fun _ _ _ _ hf => .inl hf

theorem trans (h : InWindow D p p₁) (h' : InWindow D p₁ p') : InWindow D p p' :=
  fun d hd va hva hf => (h' d hd va hva hf).elim (h d hd va hva) .inr

theorem of_maps {base : Nat} {g g' : Ledger} (h : Maps base nothing p p' g g') : InWindow g.dirs p p' := by
  intro d hd va hva hf
  obtain ⟨f, hf⟩ := Option.ne_none_iff_exists'.1 hf
  rcases h.pages _ (slotOf_mem hd (pdx_lt_utop.2 hva)) f hf with hf | hf
  · exact .inl (by rw [hf]; simp)
  · exact hf.elim

theorem utemp_le {va va' : Word} (h : vpn va = vpn va') (hva : utemp ≤ va') : utemp ≤ va := by
  have ht : utemp.toNat = 1022 * 2 ^ 12 := by decide
  have hv : ∀ w : Word, vpn w = w.toNat / 2 ^ 12 := by
    intro w
    unfold vpn pgshift
    rw [BitVec.toNat_ushiftRight, Nat.shiftRight_eq_div_pow]
  rw [hv, hv] at h
  rw [BitVec.le_def, ht] at hva ⊢
  omega

theorem vpn_of_slot {d d' : Nat} {va va' : Word} (h : slotOf d va = slotOf d' va') : vpn va = vpn va' := by
  rw [slotOf_vpn, slotOf_vpn] at h
  obtain ⟨-, h⟩ := Prod.mk.inj h
  obtain ⟨h₁, h₂⟩ := Prod.mk.inj h
  rw [← Nat.div_add_mod (vpn va) pageWords, ← Nat.div_add_mod (vpn va') pageWords, h₁, h₂]

/-- **A page is mapped from `UTEMP` on.** -/
theorem of_inserted {g : Ledger} {d pp : Nat} {va perm : Word}
    (h : Acct.Inserted utopEntries p p' g d va pp perm) (hva : utemp ≤ va) : InWindow g.dirs p p' := by
  intro d' hd' va' hva' hf
  rw [Pmap.frame, h.pte _ (slotOf_mem hd' (pdx_lt_utop.2 hva'))] at hf
  split at hf
  · rename_i hs
    exact .inr (utemp_le (vpn_of_slot hs) hva)
  · exact .inl hf

end InWindow

namespace Sound

variable {base d : Nat} {asid va : Word} {p p' : Pmap} {g : Ledger}

theorem insert_inWindow (h : Sound base p g) {pp : Nat} {perm : Word} {r : Int} (hd : d ∈ g.dirs) (hva : va < utop)
    (hu : Acct.Usable utopEntries p g pp) (hheld : g.held pp = 0)
    (hlt : p.frame (slotOf d va) = some pp ∨ p.ppRef pp < 65535) (hperm : pp ||| ppn perm = pp)
    (hi : pageInsert p d asid pp va perm = some (r, p')) (hw : utemp ≤ va) : InWindow g.dirs p p' := by
  rcases h.insertPage hd hva hu hheld hlt hperm hi with ⟨-, -, -, hm⟩ | ⟨-, hins, -⟩
  · exact .of_maps hm
  · exact .of_inserted hins hw

theorem refill_window (h : Sound base p g) {victim : Nat} (hd : d ∈ g.dirs)
    (hr : doTlbRefill p d asid va victim = some p') : InWindow g.dirs p p' := by
  unfold doTlbRefill at hr
  obtain ⟨⟨e, p₂⟩, hl, rfl⟩ := Option.map_eq_some_iff.1 hr
  have h₁ := (h.tlb (tlbInvalidate p asid va).tlb).sound
  show InWindow g.dirs p p₂
  unfold lookupAlloc at hl
  obtain ⟨l, hl₁, hl₂⟩ := Option.bind_eq_some_iff.1 hl
  cases l with
  | some l =>
    cases hl₂
    exact .refl p
  | none =>
    obtain ⟨p₃, hpas, hrest⟩ := Option.bind_eq_some_iff.1 hl₂
    obtain ⟨l', -, hl'⟩ := Option.bind_eq_some_iff.1 hrest
    obtain ⟨⟨pp, e'⟩, -, he⟩ := Option.map_eq_some_iff.1 hl'
    cases he
    show InWindow g.dirs (tlbInvalidate p asid va) p₂
    by_cases hva : va < utop
    · obtain ⟨pp', p₁, g₁, -, -, hm, hins, -⟩ := h₁.passive_below hd hva hl₁ hpas
      have hge : utemp ≤ pteAddr va := by
        refine InWindow.utemp_le ?_ (passive_page hpas).1
        exact ppn_pteAddr va
      have hw := InWindow.of_inserted hins hge
      rw [hm.dirs] at hw
      exact (InWindow.of_maps hm).trans hw
    · obtain ⟨g', hm, -⟩ := h₁.passive_window hd hva hl₁ hpas
      exact .of_maps hm

theorem touch_window (h : Sound base p g) (hd : d ∈ g.dirs) (ht : Mos.touch p d asid va = some p') :
    InWindow g.dirs p p' := by
  unfold Mos.touch at ht
  split at ht
  · cases ht
    exact .refl p
  · obtain ⟨l, -, hrest⟩ := Option.bind_eq_some_iff.1 ht
    cases l with
    | some l =>
      cases hrest
      exact .refl p
    | none => exact h.refill_window hd hrest

end Sound

/-! ## Environments -/

/-- Every page an environment has afterwards it had before, or it lies from `UTEMP` on. -/
def Opens (k k' : Kernel) : Prop :=
  ∀ e, (k'.envs e).envStatus ≠ .free → ∀ va < utop, k'.frameOf e va ≠ none →
    (k.envs e).envStatus ≠ .free ∧ k.frameOf e va ≠ none ∨ utemp ≤ va

/-- **What is mapped below `UTOP` lies from `UTEMP` on.** -/
def Windowed (k : Kernel) : Prop :=
  ∀ e, (k.envs e).envStatus ≠ .free → ∀ va < utop, k.frameOf e va ≠ none → utemp ≤ va

theorem Windowed.opens {k k' : Kernel} (h : Windowed k) (ho : Opens k k') : Windowed k' :=
  fun e he va hva hf => (ho e he va hva hf).elim (fun ⟨he₀, hf₀⟩ => h e he₀ va hva hf₀) id

namespace Opens

variable {k k₁ k' : Kernel} {g g' : Ledger}

theorem refl (k : Kernel) : Opens k k := fun _ he _ _ hf => .inl ⟨he, hf⟩

theorem trans (h : Opens k k₁) (h' : Opens k₁ k') : Opens k k' :=
  fun e he va hva hf => (h' e he va hva hf).elim (fun ⟨he₁, hf₁⟩ => h e he₁ va hva hf₁) .inr

theorem of_shares (h : Shares nobody k k' g) : Opens k k' := by
  intro e he va hva hf
  obtain ⟨f, hf⟩ := Option.ne_none_iff_exists'.1 hf
  rcases h.pages e he _ (pdx_lt_utop.2 hva) _ (ptx_lt va) f hf with ⟨he₀, hf₀⟩ | hn
  · refine .inl ⟨he₀, ?_⟩
    have hf₀' : k.frameOf e va = some f := hf₀
    rw [hf₀']
    simp
  · exact hn.elim

theorem of_window (h : Framed k g) {pm : Pmap} (hw : InWindow g.dirs k.pm pm) : Opens k (k.setPm pm) :=
  fun _ he va hva hf => (hw _ (h.mem he) va hva hf).imp_left (fun hf₀ => ⟨he, hf₀⟩)

end Opens

namespace Framed

variable {k k' : Kernel} {g : Ledger} {c : EnvIx}

theorem touch_opens (h : Framed k g) {va : Word} (hc : k.curenv = some c) (hlive : (k.envs c).envStatus ≠ .free)
    (ht : k.touch c va = some k') : Opens k k' := by
  obtain ⟨pm, hpm, rfl⟩ := Option.map_eq_some_iff.1 ht
  rw [h.cur c hc] at hpm
  exact .of_window h (h.sound.touch_window (h.mem hlive) hpm)

theorem touchRange_opens {va : Word} {len : Nat} (h : Framed k g) (hc : k.curenv = some c)
    (hlive : (k.envs c).envStatus ≠ .free) (ht : k.touchRange c va len = some k') : Opens k k' := by
  unfold Kernel.touchRange at ht
  generalize List.range len = is at ht
  induction is generalizing k g with
  | nil =>
    cases ht
    exact .refl _
  | cons i is ih =>
    rw [List.foldlM_cons] at ht
    obtain ⟨k₁, h₁, h₂⟩ := Option.bind_eq_some_iff.1 ht
    obtain ⟨g₁, hs, -⟩ := h.touch hc hlive h₁
    have ho := h.touch_opens hc hlive h₁
    obtain ⟨pm, rfl⟩ := touch_eq h₁
    exact ho.trans (ih hs.framed hc hlive h₂)

theorem storeWords_opens : ∀ {ws : List Word} {va : Word} {k k' : Kernel} {g : Ledger}, Framed k g → k.curenv = some c →
    (k.envs c).envStatus ≠ .free → k.storeWords c va ws = some k' → Opens k k'
  | [], _, k, k', g, _, _, _, hs => by
    cases hs
    exact .refl _
  | w :: ws, va, k, k', g, h, hc, hlive, hs => by
    unfold Kernel.storeWords at hs
    obtain ⟨k₁, h₁, h₂⟩ := Option.bind_eq_some_iff.1 hs
    obtain ⟨g₁, hs₁, -⟩ := h.touch hc hlive h₁
    have ho := h.touch_opens hc hlive h₁
    obtain ⟨pm₁, rfl⟩ := touch_eq h₁
    obtain ⟨pm₂, hst, h₃⟩ := Option.bind_eq_some_iff.1 h₂
    have hs₂ := hs₁.framed.store hc hlive hst
    exact (ho.trans (.of_shares hs₂)).trans (storeWords_opens hs₂.framed hc hlive h₃)

theorem readArgs_opens (h : Framed k g) (hc : k.curenv = some c) (hlive : (k.envs c).envStatus ≠ .free)
    (hr : Mos.readArgs k c = some k') : Opens k k' := by
  obtain ⟨k₁, h₁, h₂⟩ := Option.bind_eq_some_iff.1 hr
  have hn := h.ktf k.ktf.nextInstr
  obtain ⟨g₁, hs₁, -⟩ := hn.framed.touch (by exact hc) (by exact hlive) h₁
  have ho := hn.framed.touch_opens (by exact hc) (by exact hlive) h₁
  obtain ⟨pm₁, rfl⟩ := touch_eq h₁
  exact ((Opens.of_shares hn).trans ho).trans (hs₁.framed.touch_opens (by exact hc) (by exact hlive) h₂)

/-- A page that is in use is mapped from `UTEMP` on, or there is no memory for the table. -/
theorem insertMapped_window (h : Framed k g) {src dst : EnvIx} {srcva va perm asid : Word} {pp : Nat} {r : Int}
    {pm : Pmap} (hsrc : (k.envs src).envStatus ≠ .free) (hdst : (k.envs dst).envStatus ≠ .free) (hsva : srcva < utop)
    (hva : va < utop) (hf : k.frameOf src srcva = some pp)
    (hsafe : k.pm.table ((k.envs dst).envPgdir, pdx va) = none ∧ k.pm.pageFreeList = [] ∨
      FrameSafe k dst va perm pp ∧ utemp ≤ va)
    (hi : pageInsert k.pm (k.envs dst).envPgdir asid pp va perm = some (r, pm)) : InWindow g.dirs k.pm pm := by
  rcases hsafe with ⟨ht, hfree⟩ | ⟨hsafe, hw⟩
  · rw [insert_noRoom ht hfree] at hi
    cases hi
    exact .of_maps (h.sound.tlb _)
  · have hslot := slotOf_mem (h.mem hsrc) (pdx_lt_utop.2 hsva)
    exact h.sound.insert_inWindow (h.mem hdst) hva (h.sound.acct.usable_of_frame hslot hf) (h.sound.frame _ hslot pp hf)
      hsafe.2 hsafe.1 hi hw

end Framed

/-- **No page is sent to an environment that waits for none**, unless there is no memory to map it. -/
def SendSafe (k : Kernel) (cur : EnvIx) : Syscall → Prop
  | .ipcTrySend envid value srcva perm => ∀ e va pp, Asks k cur (.ipcTrySend envid value srcva perm) e va pp →
      NoRoom k (.ipcTrySend envid value srcva perm) e va ∨ utemp ≤ va
  | _ => True

theorem legal_ge {va : Word} (h : isIllegalVa va = false) : utemp ≤ va := by
  unfold isIllegalVa at h
  have hlt := of_decide_eq_false (Bool.or_eq_false_iff.1 h).1
  rw [BitVec.lt_def] at hlt
  rw [BitVec.le_def]
  omega

namespace Framed

variable {k k' : Kernel} {g : Ledger} {cur : EnvIx} {r : Sysret × Kernel}

theorem memAlloc_opens (h : Framed k g) {envid va perm : Word} (hlive : (k.envs cur).envStatus ≠ .free)
    (hsafe : CallSafe k cur (.memAlloc envid va perm)) (hc : sysMemAlloc k cur envid va perm = some r) :
    Opens k r.2 := by
  unfold sysMemAlloc at hc
  split at hc
  · rw [ret_eq hc]
    exact .refl k
  · rename_i hva
    have hlegal : isIllegalVa va = false := by simpa using hva
    split at hc
    · rw [ret_eq hc]
      exact .refl k
    · rename_i e he
      split at hc
      · rw [ret_eq hc]
        exact .refl k
      · rename_i pp pm₁ ha
        obtain ⟨⟨i, pm⟩, hi, hr⟩ := Option.bind_eq_some_iff.1 hc
        rw [ret_eq hr]
        have hd := h.mem (envid2env_live hlive he)
        obtain ⟨rest, hf, hpm₁⟩ := pageAlloc_eq ha
        have hhead : k.pm.pageFreeList.head? = some pp := by rw [hf]; rfl
        obtain ⟨-, -, htab, hm⟩ := h.sound.alloc ha
        have hacct := hm.sound.acct
        have hlimbo := Finset.mem_insert_self pp g.limbo
        have hr0 := (hacct.limbo pp hlimbo).2
        have hheld : g.held pp = 0 := (hacct.unref (hacct.limbo pp hlimbo).1 hr0).2.2
        refine .of_window h ((InWindow.of_maps hm).trans ?_)
        rcases hsafe e va pp ⟨he, rfl, hhead⟩ with ⟨ht, hpool⟩ | hsafe
        · have hslot : ((k.envs e).envPgdir, pdx va) ∈ tableSlots utopEntries g.dirs :=
            mem_tableSlots.2 ⟨hd, pdx_lt_utop.2 (legal_lt hlegal)⟩
          have hfree₁ : pm₁.pageFreeList = [] := by
            rw [hpm₁]
            rw [Syscall.pool, hf] at hpool
            exact hpool
          rw [insert_noRoom ((htab _ hslot).trans ht) hfree₁] at hi
          cases hi
          have hw := InWindow.of_maps (hm.sound.tlb (tlbInvalidate pm₁ (k.envs e).envAsid va).tlb)
          exact hw
        · exact hm.sound.insert_inWindow hd (legal_lt hlegal) (hacct.usable_of_limbo hlimbo) hheld
            (.inr (by rw [hr0]; decide)) hsafe.1 hi (legal_ge hlegal)

theorem memMap_opens (h : Framed k g) {srcid srcva dstid dstva perm : Word} (hlive : (k.envs cur).envStatus ≠ .free)
    (hsafe : CallSafe k cur (.memMap srcid srcva dstid dstva perm))
    (hc : sysMemMap k cur srcid srcva dstid dstva perm = some r) : Opens k r.2 := by
  unfold sysMemMap at hc
  split at hc
  · rw [ret_eq hc]
    exact .refl k
  · rename_i hva
    rw [Bool.not_eq_true, Bool.or_eq_false_iff] at hva
    split at hc
    · rw [ret_eq hc]
      exact .refl k
    · rename_i src hsrc
      split at hc
      · rw [ret_eq hc]
        exact .refl k
      · rename_i dst hdst
        obtain ⟨l, hl, hrest⟩ := Option.bind_eq_some_iff.1 hc
        cases l with
        | none =>
          rw [ret_eq hrest]
          exact .refl k
        | some l =>
          obtain ⟨pp, pte⟩ := l
          obtain ⟨⟨i, pm⟩, hi, hr⟩ := Option.bind_eq_some_iff.1 hrest
          rw [ret_eq hr]
          have hslive := envid2env_live hlive hsrc
          have hf : k.frameOf src srcva = some pp := (h.lookup hslive (legal_lt hva.1) hl).symm
          refine .of_window h (h.insertMapped_window hslive (envid2env_live hlive hdst) (legal_lt hva.1)
            (legal_lt hva.2) hf
            ?_ hi)
          exact (hsafe dst dstva pp ⟨hdst, rfl, src, hsrc, hf⟩).imp id (fun hs => ⟨hs, legal_ge hva.2⟩)

theorem ipcTrySend_opens (h : Framed k g) {envid value srcva perm : Word} (hlive : (k.envs cur).envStatus ≠ .free)
    (hsafe : CallSafe k cur (.ipcTrySend envid value srcva perm))
    (hsend : SendSafe k cur (.ipcTrySend envid value srcva perm))
    (hc : sysIpcTrySend k cur envid value srcva perm = some r) : Opens k r.2 := by
  have hwoken : ∀ e q, envid2env k cur envid false = some e → Opens k (woken k cur e value perm q) := by
    intro e q he
    have helive := envid2env_live hlive he
    have hset := h.setEnv e (f := fun v => v.deliver value (k.envs cur).envId perm)
      ⟨fun _ => helive, fun _ => by simp [Env.deliver]⟩ rfl (h.dst e)
    exact (Opens.of_shares hset).trans (.of_shares (hset.framed.other rfl rfl rfl rfl rfl))
  cases send_inv hc with
  | refused => exact .refl k
  | value e q he => exact hwoken e q he
  | lost e q he => exact hwoken e q he
  | page e q pp pte i pm he hr hq h0 hva hl hi =>
    have helive := envid2env_live hlive he
    have hf : k.frameOf cur srcva = some pp := (h.lookup hlive (legal_lt hva) hl).symm
    have hasks : Asks k cur (.ipcTrySend envid value srcva perm) e (k.envs e).envIpcDstva pp := ⟨h0, he, hr, rfl, hf⟩
    have hw : InWindow g.dirs k.pm pm := by
      refine h.insertMapped_window hlive helive (legal_lt hva) (h.dst e) hf ?_ hi
      rcases hsafe _ _ _ hasks with hn | hs
      · exact .inl hn
      · exact (hsend _ _ _ hasks).imp id (fun hge => ⟨hs, hge⟩)
    intro e' he' va hva' hf'
    have hp : ((woken k cur e value perm q).envs e').envPgdir = (k.envs e').envPgdir :=
      woken_field k cur e e' value perm q (fun _ => rfl)
    have helive' : (k.envs e').envStatus ≠ .free := by
      by_cases hee : e' = e
      · exact hee ▸ helive
      · have hst : ((k.setEnv e (fun v => v.deliver value (k.envs cur).envId perm)).envs e').envStatus ≠ .free := he'
        rwa [Kernel.setEnv_ne _ _ hee] at hst
    refine (hw _ (h.mem helive') va hva' ?_).imp_left (fun hf₀ => ⟨helive', hf₀⟩)
    rw [← hp]
    exact hf'

theorem call_opens_nobody (h : Framed k g) (hal : k.procs.Alive) (hcur : k.curenv = some cur) {c : Syscall}
    (hasks : ∀ e va f, ¬Asks k cur c e va f) (hacc : ¬c.accesses) (hc : syscallTable k cur c = some r) :
    Opens k r.2 := by
  obtain ⟨g', hs⟩ := h.call hal hcur (fun e va f ha => (hasks e va f ha).elim) hc
  refine .of_shares (hs.mono (fun e f hn => ?_))
  rcases hn with ⟨va, ha⟩ | ⟨ha, -⟩
  · exact hasks e va f ha
  · exact hacc ha

theorem call_opens (h : Framed k g) (hal : k.procs.Alive) (hcur : k.curenv = some cur) {c : Syscall}
    (hsafe : CallSafe k cur c) (hsend : SendSafe k cur c) (hc : syscallTable k cur c = some r) : Opens k r.2 := by
  have hlive : (k.envs cur).envStatus ≠ .free := hal.running cur hcur
  have hret : ∀ {i : Int}, ret i k = some r → Opens k r.2 := by
    intro i hr
    rw [ret_eq hr]
    exact .refl k
  cases c with
  | memAlloc envid va perm => exact h.memAlloc_opens hlive hsafe hc
  | memMap srcid srcva dstid dstva perm => exact h.memMap_opens hlive hsafe hc
  | ipcTrySend envid value srcva perm => exact h.ipcTrySend_opens hlive hsafe hsend hc
  | printCons s num =>
    simp only [syscallTable, sysPrintCons] at hc
    split at hc
    · exact hret hc
    · obtain ⟨k₁, h₁, hr⟩ := Option.bind_eq_some_iff.1 hc
      rw [ret_eq hr]
      exact h.touchRange_opens hcur hlive h₁
  | setTrapframe envid va tf =>
    simp only [syscallTable, sysSetTrapframe] at hc
    split at hc
    · exact hret hc
    · split at hc
      · exact hret hc
      · rename_i e he
        obtain ⟨k₁, h₁, hr⟩ := Option.bind_eq_some_iff.1 hc
        have ho := h.touchRange_opens hcur hlive h₁
        obtain ⟨g₁, hs, -⟩ := h.touchRange hcur hlive h₁
        split at hr
        · rw [ret_eq hr]
          exact ho.trans (.of_shares (hs.framed.ktf tf))
        · rw [ret_eq hr]
          exact ho.trans (.of_shares
            (hs.framed.setEnv e (f := fun v => { v with envTf := tf }) Iff.rfl rfl (hs.framed.dst e)))
  | writeDev va pa len =>
    simp only [syscallTable, sysWriteDev] at hc
    split at hc
    · exact hret hc
    · obtain ⟨k₁, h₁, hr⟩ := Option.bind_eq_some_iff.1 hc
      rw [ret_eq hr]
      exact h.touchRange_opens hcur hlive h₁
  | readDev va pa len w =>
    simp only [syscallTable, sysReadDev] at hc
    split at hc
    · exact hret hc
    · obtain ⟨k₁, h₁, hr⟩ := Option.bind_eq_some_iff.1 hc
      obtain ⟨pm, hst, hr⟩ := Option.bind_eq_some_iff.1 hr
      rw [ret_eq hr]
      have ho := h.touch_opens hcur hlive h₁
      obtain ⟨g₁, hs, -⟩ := h.touch hcur hlive h₁
      obtain ⟨pm₁, rfl⟩ := touch_eq h₁
      exact ho.trans (.of_shares (hs.framed.store hcur hlive hst))
  | _ => exact h.call_opens_nobody hal hcur (by exact fun _ _ _ ha => ha) (by exact fun ha => ha) hc

end Framed

/-! ## Steps -/

/-- The sends of a step are safe. -/
def StepSendSafe (k : Kernel) : Act → Prop
  | .syscall c _ => ∀ cur k₁, k.curenv = some cur → readArgs k cur = some k₁ → SendSafe k₁ cur c
  | _ => True

theorem Framed.step_opens {k k' : Kernel} {g : Ledger} (h : Framed k g) (hal : k.procs.Alive) {a : Act}
    (hsafe : MapSafe k a) (hsend : StepSendSafe k a) (hs : Mos.step k a = some k') : Opens k k' := by
  cases a with
  | tick => exact .of_shares (h.schedule (.of_eq rfl rfl rfl) h.dst hs)
  | exec tf =>
    obtain ⟨cur, -, hu⟩ := Option.bind_eq_some_iff.1 hs
    cases hu
    exact .of_shares (h.ktf _)
  | miss va victim =>
    obtain ⟨cur, hcur, hu⟩ := Option.bind_eq_some_iff.1 hs
    simp only [userStep] at hu
    split at hu
    · cases hu
    · obtain ⟨pm, hpm, rfl⟩ := Option.map_eq_some_iff.1 hu
      rw [h.cur cur hcur] at hpm
      exact .of_window h (h.sound.refill_window (h.mem (hal.running cur hcur)) hpm)
  | store va w =>
    obtain ⟨cur, hcur, hu⟩ := Option.bind_eq_some_iff.1 hs
    obtain ⟨pm, hpm, rfl⟩ := Option.map_eq_some_iff.1 hu
    exact .of_shares (h.store hcur (hal.running cur hcur) hpm)
  | mod va =>
    obtain ⟨cur, hcur, hu⟩ := Option.bind_eq_some_iff.1 hs
    simp only [userStep, doTlbMod] at hu
    obtain ⟨k₁, hw, hrest⟩ := Option.bind_eq_some_iff.1 hu
    split at hrest
    · cases hrest
    · cases hrest
      have hn := h.ktf { k.ktf with cp0Badvaddr := va }
      have hlive := hal.running cur hcur
      obtain ⟨g', hs₁, -⟩ := hn.framed.storeWords (by exact hcur) (by exact hlive) hw
      have ho := hn.framed.storeWords_opens (by exact hcur) (by exact hlive) hw
      exact ((Opens.of_shares hn).trans ho).trans (.of_shares (hs₁.framed.ktf _))
  | syscall c v0 =>
    obtain ⟨cur, hcur, hu⟩ := Option.bind_eq_some_iff.1 hs
    obtain ⟨k₁, hr, hc⟩ := Option.bind_eq_some_iff.1 hu
    obtain ⟨r, hr', rfl⟩ := Option.map_eq_some_iff.1 hc
    have hlive := hal.running cur hcur
    obtain ⟨g₁, hs₁, -⟩ := h.readArgs hcur hlive hr
    have ho := h.readArgs_opens hcur hlive hr
    have hsafe₁ := hsafe cur k₁ hcur hr
    have hsend₁ := hsend cur k₁ hcur hr
    obtain ⟨pm, rfl⟩ := readArgs_eq hr
    have ho₁ := hs₁.framed.call_opens (by exact hal) (by exact hcur) hsafe₁ hsend₁ hr'
    have ho₂ : Opens r.2 (setV0 v0 r) := by
      obtain ⟨s, k₂⟩ := r
      cases s <;> exact .refl k₂
    exact (ho.trans ho₁).trans ho₂
  | noSys =>
    obtain ⟨cur, -, hu⟩ := Option.bind_eq_some_iff.1 hs
    cases hu
    exact .of_shares (h.ktf _)

/-! ## Boot -/

/-- The pages of the segments lie from `UTEMP` on. -/
def Binary.High (b : Binary) : Prop :=
  ∀ ehdr, elfFrom b = some ehdr → ∀ ph ∈ b.phdrs ehdr, ph.pType = ptLoad → ∀ bin, ∀ m ∈ segPages ph bin, utemp ≤ m.va

/-- The kernel as `mips_init` leaves it, for programs that `user.lds` put into the user window. -/
def LinkedUser (k : Kernel) : Prop :=
  ∃ b programs, b.EnvsInKernel ∧ (∀ p ∈ programs, p.binary.Low ∧ p.binary.High) ∧ mipsInit b programs = some k

theorem LinkedUser.linked {k : Kernel} (h : LinkedUser k) : Linked k := by
  obtain ⟨b, programs, hb, hlow, hk⟩ := h
  exact ⟨b, programs, hb, fun p hp => (hlow p hp).1, hk⟩

namespace Framed

variable {k k' : Kernel} {g : Ledger}

theorem loadIcode_opens (h : Framed k g) {e : EnvIx} {binary : Binary} (hlow : binary.Low) (hhigh : binary.High)
    (hlive : (k.envs e).envStatus ≠ .free) (hl : Mos.loadIcode k e binary = some k') : Opens k k' := by
  obtain ⟨pm, entry, ⟨g', -, -, hw⟩, rfl⟩ := loadIcode_ind (P := fun p =>
    ∃ g', Sound k.basePgdir p g' ∧ g'.dirs = g.dirs ∧ InWindow g.dirs k.pm p) (by
      rintro ehdr hehdr ph hph htype bin m hmem p r p' ⟨g₁, hs₁, hdirs, hw₁⟩ hone
      have hd : (k.envs e).envPgdir ∈ g₁.dirs := hdirs ▸ h.mem hlive
      have hva := hlow ehdr hehdr ph hph htype bin m hmem
      obtain ⟨g₂, hm⟩ := hs₁.loadIcodeMapper hd hva (segPages_perm hmem) hone
      refine ⟨g₂, hm.sound, hm.dirs.trans hdirs, hw₁.trans ?_⟩
      rw [← hdirs]
      rcases hs₁.loadIcodeMapper_page hone with rfl | ⟨pp, p₁, p₂, -, -, hm₂, -, hheld, -, hr0, hi⟩
      · exact .refl p'
      · have hu := hm₂.sound.acct.usable_of_limbo (Finset.mem_insert_self pp g₁.limbo)
        have hor : pp ||| ppn m.perm = pp := by rw [segPages_perm hmem, Nat.or_zero]
        exact (InWindow.of_maps hm₂).trans
          (hm₂.sound.insert_inWindow hd hva hu hheld (.inr (by rw [hr0]; decide)) hor hi
          (hhigh ehdr hehdr ph hph htype bin m hmem))) ⟨g, h.sound, rfl, .refl _⟩ hl
  have hst : ∀ x, (((k.setPm pm).setEnv e (fun v => { v with envTf := { v.envTf with cp0Epc := entry } })).envs
    x).envStatus =
      (k.envs x).envStatus := fun x => (k.setPm pm).setEnv_field e x rfl
  have hpg : ∀ x, (((k.setPm pm).setEnv e (fun v => { v with envTf := { v.envTf with cp0Epc := entry } })).envs
    x).envPgdir =
      (k.envs x).envPgdir := fun x => (k.setPm pm).setEnv_field e x rfl
  refine (Opens.of_window h hw).trans fun e' he' va hva hf => .inl ⟨hst e' ▸ he', ?_⟩
  unfold Kernel.frameOf at hf ⊢
  rw [hpg] at hf
  exact hf

end Framed

/-- **The kernel boots with its programs in the user window.** -/
theorem LinkedUser.windowed {k : Kernel} (h : LinkedUser k) : Windowed k := by
  obtain ⟨b, programs, hb, hlow, hk⟩ := h
  refine (linked_ind (Q := Binary.High) (fun k hfree e he => absurd (hfree e) he) ?_ hb hlow hk).2
  intro k g binary priority k' hf hal hcur hl hh hwin hc
  have hrun : ∀ e, k.curenv ≠ some e := fun e he => by rw [hcur] at he; cases he
  unfold Mos.envCreate at hc
  split at hc
  · rename_i i k₁ ha
    cases hc
    rcases envAlloc_inv ha with ⟨-, -, rfl⟩ | ⟨e, rest, pp, pm₁, hfl, hall, -⟩
    · exact hwin
    · have hfree : (k.envs e).envStatus = .free := hal.free e (by rw [show k.procs.free = e :: rest from hfl]; simp)
      obtain ⟨g', hs⟩ := hf.allocated_free hall hfree (hrun e)
      exact hwin.opens (.of_shares hs)
  · rename_i e k₁ ha
    obtain ⟨k₂, hload, rfl⟩ := Option.map_eq_some_iff.1 hc
    rcases envAlloc_inv ha with ⟨i, hr, -⟩ | ⟨e', rest, pp, pm₁, hfl, hall, hr⟩
    · cases hr
    · obtain rfl : e = e' := by simpa using hr
      have hfree : (k.envs e).envStatus = .free := hal.free e (by rw [show k.procs.free = e :: rest from hfl]; simp)
      obtain ⟨g₁, hs⟩ := hf.allocated_live hall hfree (hrun e) (f := fun v =>
        { v with envPri := priority, envStatus := .runnable }) rfl (by simp) rfl rfl
      have hlive := hs.framed.loadIcode_opens hl hh (by rw [Kernel.setEnv_self]; simp) hload
      -- the last step, `TAILQ_INSERT_HEAD`, moves neither a directory nor a status
      have hwin₂ : Windowed k₂ := (hwin.opens (.of_shares hs)).opens hlive
      exact hwin₂

/-! ## Runs -/

/-- The calls of a step map their own frames, and send no page to an environment that waits for none. -/
def WindowSafe (k : Kernel) (a : Act) : Prop := MapSafe k a ∧ StepSendSafe k a

/-- **User mappings stay in the user window** along every run of safe steps. -/
theorem mappings_in_window (k : Kernel) (h : Run LinkedUser step WindowSafe k) : Windowed k := by
  have hinv := Run.invariant (fun k => Accounted k ∧ Windowed k) (fun k hl => ⟨.linked hl.linked, hl.windowed⟩) ?_ k h
  · exact hinv.2
  · rintro k a k' ⟨hacc, hwin⟩ ⟨hsafe, hsend⟩ hs
    obtain ⟨g, hg⟩ := hacc.framed
    exact ⟨hacc.step_safe hsafe hs, hwin.opens (hg.step_opens hacc.alive hsafe hsend hs)⟩

/-! ## The small machine -/

theorem linkedUser_small : ∀ k, mipsInit smallBoard [emptyProgram] = some k → LinkedUser k := by
  intro k hk
  have henvs : smallBoard.EnvsInKernel := by
    unfold Board.EnvsInKernel
    decide
  have hnone : ((elfFrom emptyProgram.binary).map Elf32Ehdr.ePhnum) = some 0 := by decide
  have hphdrs : ∀ ehdr, elfFrom emptyProgram.binary = some ehdr → emptyProgram.binary.phdrs ehdr = [] := by
    intro ehdr hehdr
    rw [hehdr, Option.map_some, Option.some.injEq] at hnone
    rw [Binary.phdrs, hnone]
    rfl
  refine ⟨smallBoard, [emptyProgram], henvs, fun p hp => ?_, hk⟩
  rw [List.mem_singleton.1 hp]
  constructor
  · intro ehdr hehdr ph hph
    rw [hphdrs ehdr hehdr] at hph
    cases hph
  · intro ehdr hehdr ph hph
    rw [hphdrs ehdr hehdr] at hph
    cases hph

/-- A check that implies `WindowSafe`. -/
def windowSafeB (k : Kernel) (a : Act) : Bool :=
  Granted.mapSafeB { kernel := k, grants := fun _ _ => False } a

theorem windowSafe_of_windowSafeB (k : Kernel) (a : Act) (h : windowSafeB k a = true) : WindowSafe k a := by
  refine ⟨Granted.mapSafe_of_mapSafeB _ a h, ?_⟩
  cases a with
  | syscall c v0 =>
    cases c with
    | ipcTrySend envid value srcva perm => cases h
    | _ => exact fun _ _ _ _ => trivial
  | _ => trivial

/-- An environment with a page of its own. -/
theorem mappings_in_window_page : ∃ k, (k.frameOf 0 0x800000).isSome ∧ Windowed k := by
  obtain ⟨k, hr, hk⟩ := @Run.exists_of_exec Kernel Act LinkedUser step WindowSafe windowSafeB windowSafe_of_windowSafeB
    [.tick, .exec stackFrame, .syscall (.memAlloc 0 0x800000 pteD) 0]
    (mipsInit smallBoard [emptyProgram]) linkedUser_small
    (fun k => (k.frameOf 0 0x800000).isSome) (by decide +kernel)
  exact ⟨k, hk, mappings_in_window k hr⟩

/-- **A page arrives at address 0**: the child receives without a page, and its parent sends one. -/
theorem mappings_in_window_fails : ¬∀ k, Reach LinkedUser step k → Windowed k := by
  obtain ⟨k, hr, hk⟩ := @Run.exists_of_exec Kernel Act LinkedUser step (fun _ _ => True) (fun _ _ => true)
    (fun _ _ _ => trivial)
    [.tick, .exec stackFrame, .syscall .exofork 0, .syscall (.setEnvStatus 4097 1) 0, .syscall .yield 0,
      .syscall (.ipcRecv 0) 0, .syscall (.memAlloc 0 0x800000 pteD) 0, .syscall (.ipcTrySend 4097 7 0x800000 pteD) 0]
    (mipsInit smallBoard [emptyProgram]) linkedUser_small
    (fun k => decide ((k.envs 1).envStatus ≠ .free) && (k.frameOf 1 0).isSome) (by decide +kernel)
  rw [Bool.and_eq_true, decide_eq_true_eq] at hk
  intro hall
  have hge := hall k hr 1 hk.1 0 (by decide) (Option.isSome_iff_ne_none.1 hk.2)
  exact absurd hge (by decide)

end Mos
