import Mathlib.Data.Finset.Card
import Mathlib.Data.List.Perm.Basic
import Mos.FailedSend
import Mos.Coherence
import Mos.Ids
/-!
# FailedAlloc — what a failing allocation leaves behind

`sys_mem_alloc` takes a frame before it maps it, and `env_alloc` takes one for the page directory before it takes an
address-space id.  Neither gives the frame back when the second step fails.  `LosesFrame` and `OutOfAsids` say of the
state before the call when that happens, for any state of the page tables.
-/
namespace Mos

/-! ## Memory -/

/-- **Nothing was taken**: the free frames, the reference counts and the page tables are as before. -/
structure NothingTaken (k k' : Kernel) : Prop where
  frames : k'.pm.pageFreeList.Perm k.pm.pageFreeList
  counts : k'.pm.ppRef = k.pm.ppRef
  tables : ∀ f, f ∉ k.pm.pageFreeList → k'.pm.mem f = k.pm.mem f

/-- **The frame is there, but not the one for its page table.** -/
def LosesFrame (k : Kernel) (cur : EnvIx) (envid va : Word) : Prop :=
  isIllegalVa va = false ∧ ∃ e pp pm, envid2env k cur envid true = some e ∧ pageAlloc k.pm = some (pp, pm) ∧
    NoTable pm (k.envs e).envPgdir va pp

/-- **The target's directory is the page table of `dstva`**, and loses the mapping that is replaced. -/
def DropsTable (k : Kernel) (cur : EnvIx) (srcid srcva dstid dstva : Word) : Prop :=
  isIllegalVa srcva = false ∧ isIllegalVa dstva = false ∧ ∃ src dst pp pte, envid2env k cur srcid true = some src ∧
    envid2env k cur dstid true = some dst ∧ pageLookup k.pm (k.envs src).envPgdir srcva = some (some (pp, pte)) ∧
    NoTable k.pm (k.envs dst).envPgdir dstva pp ∧ k.pm.table ((k.envs dst).envPgdir, pdx dstva) ≠ none

/-- **A failing `sys_mem_alloc` takes nothing.** -/
def AllocUndone (k : Kernel) (cur : EnvIx) (envid va perm : Word) : Prop :=
  ∀ r k', sysMemAlloc k cur envid va perm = some (.ret r, k') → r < 0 → NothingTaken k k'

/-- **A failing `sys_mem_map` takes nothing.** -/
def MapUndone (k : Kernel) (cur : EnvIx) (srcid srcva dstid dstva perm : Word) : Prop :=
  ∀ r k', sysMemMap k cur srcid srcva dstid dstva perm = some (.ret r, k') → r < 0 → NothingTaken k k'

theorem NothingTaken.refl (k : Kernel) : NothingTaken k k := ⟨.refl _, rfl, fun _ _ => rfl⟩

section Insert

variable {p p' : Pmap} {pgdir pp : Nat} {asid va perm : Word}

theorem insertFresh_neg {r : Int} (h : pageInsertFresh p pgdir asid pp va perm = some (r, p')) (hr : r < 0) :
    p' = tlbInvalidate p asid va ∧ p.pageFreeList = [] := by
  obtain ⟨ht, hf⟩ := insertFresh_ret h hr
  rw [insertFresh_noMem ht hf] at h
  cases h
  exact ⟨rfl, hf⟩

/-- **When `page_insert` fails no frame is free.** -/
theorem pageInsert_neg_free {r : Int} (h : pageInsert p pgdir asid pp va perm = some (r, p')) (hr : r < 0) :
    p'.pageFreeList = [] := by
  have hfresh : ∀ {q : Pmap}, pageInsertFresh q pgdir asid pp va perm = some (r, p') → p'.pageFreeList = [] := by
    intro q hq
    obtain ⟨rfl, hf⟩ := insertFresh_neg hq hr
    exact hf
  obtain ⟨⟨c, e, p₁⟩, -, h⟩ := Option.bind_eq_some_iff.1 h
  cases e with
  | none => exact hfresh h
  | some e =>
    dsimp only at h
    split at h
    · obtain ⟨pp', -, h⟩ := Option.bind_eq_some_iff.1 h
      split at h
      · cases h
        exact absurd hr (by decide)
      · obtain ⟨p₂, -, h⟩ := Option.bind_eq_some_iff.1 h
        exact hfresh h
    · exact hfresh h

theorem pageInsert_self_ref {r : Int} (hnt : NoTable p pgdir va pp) (ht : p.table (pgdir, pdx va) ≠ none)
    (h : pageInsert p pgdir asid pp va perm = some (r, p')) (hr : r < 0) : p'.ppRef pgdir = p.ppRef pgdir - 1 := by
  cases hnt with
  | missing hnone => exact absurd hnone ht
  | self ht hix hlt hne hr₀ hr₁ hf =>
    obtain ⟨hvd, hpd⟩ := table_eq_some.1 ht
    have hread : p.read (pgdir, ptx va) = p.mem pgdir (pdx va) := by rw [hix]; rfl
    have hv : valid (p.read (pgdir, ptx va)) = true := by rw [hread]; exact hvd
    have hpa : pa2page p (p.read (pgdir, ptx va)) = some pgdir := by rw [hread, pa2page, hpd, if_pos hlt]
    have hlook : pageLookup p pgdir va = some (some (pgdir, (pgdir, ptx va))) := by
      unfold pageLookup
      simp only [walk_eq false ht, if_pos hlt, Option.bind_some, hv, if_true, hpa]
      rfl
    simp only [pageInsert, walk_eq false ht, if_pos hlt, Option.bind_some, if_pos hv, hpa, if_neg (Ne.symm hne)] at h
    obtain ⟨p₁, hrm, hfresh⟩ := Option.bind_eq_some_iff.1 h
    obtain ⟨rfl, -⟩ := insertFresh_neg hfresh hr
    simp only [pageRemove, hlook, Option.bind_some, Acct.decref_eq hr₀, Option.map_some, Option.some.injEq] at hrm
    rw [← hrm]
    exact Function.update_self _ _ _

end Insert

section Calls

variable {k k' : Kernel} {cur : EnvIx} {r : Int}

theorem memAlloc_insert {envid va perm : Word} {e : EnvIx} {pp : Nat} {pm : Pmap} (hva : isIllegalVa va = false)
    (he : envid2env k cur envid true = some e) (hp : pageAlloc k.pm = some (pp, pm)) : sysMemAlloc k cur envid va perm =
      (pageInsert pm (k.envs e).envPgdir (k.envs e).envAsid pp va perm).bind (fun r => ret r.1 (k.setPm r.2)) := by
  unfold sysMemAlloc
  rw [hva, he]
  simp only [Bool.false_eq_true, if_false, hp]

/-- **A failing `sys_mem_alloc` takes nothing, exactly when it does not lose its frame.** -/
theorem memAlloc_undone_iff (k : Kernel) (cur : EnvIx) (envid va perm : Word) :
    AllocUndone k cur envid va perm ↔ ¬LosesFrame k cur envid va := by
  constructor
  · rintro h ⟨hva, e, pp, pm, he, hp, hnt⟩
    obtain ⟨pm', hins⟩ := @pageInsert_noTable pm _ pp (k.envs e).envAsid _ perm hnt
    have hcall : sysMemAlloc k cur envid va perm = some (.ret (-eNoMem), k.setPm pm') := by
      rw [memAlloc_insert hva he hp, hins]
      rfl
    obtain ⟨rest, hlist, -⟩ := pageAlloc_eq hp
    have hperm := (h _ _ hcall (by decide)).frames
    have hempty : (k.setPm pm').pm.pageFreeList = [] := pageInsert_neg_free hins (by decide)
    rw [hempty, hlist] at hperm
    exact absurd hperm.symm.eq_nil (List.cons_ne_nil _ _)
  · intro hno r k' h hr
    cases hva : isIllegalVa va with
    | true =>
      unfold sysMemAlloc at h
      rw [hva, if_pos rfl] at h
      cases h
      exact .refl k
    | false =>
      cases he : envid2env k cur envid true with
      | none =>
        unfold sysMemAlloc at h
        rw [hva, he] at h
        cases h
        exact .refl k
      | some e =>
        cases hp : pageAlloc k.pm with
        | none =>
          unfold sysMemAlloc at h
          rw [hva, he] at h
          simp only [Bool.false_eq_true, if_false, hp] at h
          cases h
          exact .refl k
        | some q =>
          rw [memAlloc_insert hva he hp] at h
          obtain ⟨⟨i, pm'⟩, hins, hret⟩ := Option.bind_eq_some_iff.1 h
          cases hret
          exact absurd ⟨hva, e, q.1, q.2, he, hp, pageInsert_neg hins hr⟩ hno

theorem memMap_insert {srcid srcva dstid dstva perm : Word} {src dst : EnvIx} {pp : Nat} {pte : PtePtr}
    (hs : isIllegalVa srcva = false) (hd : isIllegalVa dstva = false) (hsrc : envid2env k cur srcid true = some src)
    (hdst : envid2env k cur dstid true = some dst)
    (hl : pageLookup k.pm (k.envs src).envPgdir srcva = some (some (pp, pte))) :
    sysMemMap k cur srcid srcva dstid dstva perm =
      (pageInsert k.pm (k.envs dst).envPgdir (k.envs dst).envAsid pp dstva perm).bind
      (fun r => ret r.1 (k.setPm r.2)) := by
  unfold sysMemMap
  rw [hs, hd, hsrc, hdst]
  simp only [Bool.or_self, Bool.false_eq_true, if_false, hl, Option.bind_some]

/-- A call of `sys_mem_map` that returns a code leaves everything, or failed in `page_insert`. -/
theorem memMap_neg {srcid srcva dstid dstva perm : Word}
    (h : sysMemMap k cur srcid srcva dstid dstva perm = some (.ret r, k')) :
    k' = k ∨ ∃ src dst pp pte pm, isIllegalVa srcva = false ∧ isIllegalVa dstva = false ∧
      envid2env k cur srcid true = some src ∧ envid2env k cur dstid true = some dst ∧
      pageLookup k.pm (k.envs src).envPgdir srcva = some (some (pp, pte)) ∧
      pageInsert k.pm (k.envs dst).envPgdir (k.envs dst).envAsid pp dstva perm = some (r, pm) ∧ k' = k.setPm pm := by
  cases hs : isIllegalVa srcva with
  | true =>
    unfold sysMemMap at h
    rw [hs, Bool.true_or, if_pos rfl] at h
    cases h
    exact .inl rfl
  | false =>
    cases hd : isIllegalVa dstva with
    | true =>
      unfold sysMemMap at h
      rw [hs, hd, Bool.or_true, if_pos rfl] at h
      cases h
      exact .inl rfl
    | false =>
      cases hsrc : envid2env k cur srcid true with
      | none =>
        unfold sysMemMap at h
        rw [hs, hd, hsrc] at h
        cases h
        exact .inl rfl
      | some src =>
        cases hdst : envid2env k cur dstid true with
        | none =>
          unfold sysMemMap at h
          rw [hs, hd, hsrc, hdst] at h
          cases h
          exact .inl rfl
        | some dst =>
          cases hl : pageLookup k.pm (k.envs src).envPgdir srcva with
          | none =>
            unfold sysMemMap at h
            rw [hs, hd, hsrc, hdst] at h
            simp only [Bool.or_self, Bool.false_eq_true, if_false, hl, Option.bind_none] at h
            cases h
          | some l =>
            cases l with
            | none =>
              unfold sysMemMap at h
              rw [hs, hd, hsrc, hdst] at h
              simp only [Bool.or_self, Bool.false_eq_true, if_false, hl, Option.bind_some] at h
              cases h
              exact .inl rfl
            | some l =>
              rw [memMap_insert hs hd hsrc hdst hl] at h
              obtain ⟨⟨i, pm⟩, hins, hret⟩ := Option.bind_eq_some_iff.1 h
              cases hret
              exact .inr ⟨src, dst, l.1, l.2, pm, rfl, rfl, rfl, rfl, hl, hins, rfl⟩

/-- **A failing `sys_mem_map` takes nothing, exactly when it drops no table.** -/
theorem memMap_undone_iff (k : Kernel) (cur : EnvIx) (srcid srcva dstid dstva perm : Word) :
    MapUndone k cur srcid srcva dstid dstva perm ↔ ¬DropsTable k cur srcid srcva dstid dstva := by
  constructor
  · rintro h ⟨hs, hd, src, dst, pp, pte, hsrc, hdst, hl, hnt, ht⟩
    obtain ⟨pm, hins⟩ := @pageInsert_noTable k.pm _ pp (k.envs dst).envAsid _ perm hnt
    have hcall : sysMemMap k cur srcid srcva dstid dstva perm = some (.ret (-eNoMem), k.setPm pm) := by
      rw [memMap_insert hs hd hsrc hdst hl, hins]
      rfl
    have hsame : pm.ppRef = k.pm.ppRef := (h _ _ hcall (by decide)).counts
    have href := pageInsert_self_ref hnt ht hins (by decide)
    rw [hsame] at href
    have hne : ∀ w : BitVec 16, w ≠ w - 1 := fun w hw => by bv_omega
    exact hne _ href
  · intro hno r k' h hr
    rcases memMap_neg h with rfl | ⟨src, dst, pp, pte, pm, hs, hd, hsrc, hdst, hl, hins, rfl⟩
    · exact .refl k'
    · have hnt := pageInsert_neg hins hr
      cases ht : k.pm.table ((k.envs dst).envPgdir, pdx dstva) with
      | some t =>
        exact absurd ⟨hs, hd, src, dst, pp, pte, hsrc, hdst, hl, hnt, by rw [ht]; exact Option.some_ne_none t⟩ hno
      | none =>
        cases hnt with
        | missing _ hf =>
          rw [insert_noRoom ht hf] at hins
          cases hins
          exact ⟨.refl _, rfl, fun _ _ => rfl⟩
        | self hs => exact absurd (ht.symm.trans hs) (Option.some_ne_none _).symm

/-- **A failing call for memory takes nothing, exactly when it loses no frame and drops no table**: for every state and
all arguments. -/
theorem mem_undone_iff (k : Kernel) (cur : EnvIx) :
    (∀ envid va perm, AllocUndone k cur envid va perm ↔ ¬LosesFrame k cur envid va) ∧
    ∀ srcid srcva dstid dstva perm, MapUndone k cur srcid srcva dstid dstva perm ↔
    ¬DropsTable k cur srcid srcva dstid dstva :=
  ⟨memAlloc_undone_iff k cur, memMap_undone_iff k cur⟩

end Calls

/-- A board with nine pages above the kernel. -/
def tightBoard : Board := { smallBoard with ramLowSize := 0x409000 }

/-- **The last frame is lost**: it is free when the call comes, and its page table has none. -/
theorem mem_undone_fails :
    ¬∀ k, Reachable k → ∀ cur, k.curenv = some cur → (∀ envid va perm, AllocUndone k cur envid va perm) ∧
    ∀ srcid srcva dstid dstva perm, MapUndone k cur srcid srcva dstid dstva perm := by
  obtain ⟨k, hk, hc⟩ := @Run.exists_of_exec Kernel Act Booted step (fun _ _ => True) (fun _ _ => true)
    (fun _ _ _ => trivial) [.tick] (mipsInit tightBoard [emptyProgram]) (fun _ hk => ⟨tightBoard, [emptyProgram], hk⟩)
    (fun k => decide (k.curenv = some 0 ∧ k.pm.pageFreeList.length = 1) &&
      (sysMemAlloc k 0 0 0x800000 0).any (fun (r : Sysret × Kernel) =>
        decide (r.1 = .ret (-eNoMem) ∧ r.2.pm.pageFreeList = [])))
    (by decide +kernel)
  simp only [Bool.and_eq_true, decide_eq_true_eq] at hc
  obtain ⟨⟨hcur, hbefore⟩, hany⟩ := hc
  obtain ⟨⟨s, k'⟩, hcall, hafter⟩ := (Option.any_eq_true _ _).1 hany
  obtain ⟨rfl, hempty⟩ := of_decide_eq_true hafter
  intro hall
  have hperm := ((hall k hk 0 hcur).1 0 0x800000 0 _ k' hcall (by decide)).frames.length_eq
  rw [hbefore, hempty] at hperm
  exact absurd hperm (by decide)

/-! ## Environments -/

/-- **Nothing was taken for an environment**: the free frames, the free slots and the ids are as before, and every live
environment. -/
structure ForkUndone (k k' : Kernel) : Prop where
  frames : k'.pm.pageFreeList.Perm k.pm.pageFreeList
  slots : k'.envFreeList = k.envFreeList
  asids : k'.asidBitmap = k.asidBitmap
  live : ∀ e, (k.envs e).envStatus ≠ .free → k'.envs e = k.envs e

/-- **A failing `env_alloc` takes nothing**, and `sys_exofork` returns its code. -/
def EnvAllocUndone (k : Kernel) (parentId : Word) : Prop :=
  ∀ i k', envAlloc k parentId = (.error i, k') → ForkUndone k k' ∧
    ∀ cur, (k.envs cur).envId = parentId → sysExofork k cur = ret i k'

/-- **There is a slot and a frame, but no address-space id.** -/
def OutOfAsids (k : Kernel) : Prop := k.envFreeList ≠ [] ∧ k.pm.pageFreeList ≠ [] ∧ asidAlloc k.asidBitmap = none

theorem envAlloc_asids {k : Kernel} {parentId : Word} {e : EnvIx} {slots : List EnvIx} {pp : Nat} {frames : List Nat}
    (hs : k.envFreeList = e :: slots) (hp : k.pm.pageFreeList = pp :: frames) (ha : asidAlloc k.asidBitmap = none) :
    ∃ k', envAlloc k parentId = (.error (-eNoFreeEnv), k') ∧ k'.pm.pageFreeList = frames := by
  unfold envAlloc
  rw [hs]
  simp only [envSetupVm, pageAlloc, hp, Option.map_some]
  have ha' : asidAlloc (Kernel.setPm k (setupPgdir (Pmap.setRef { k.pm with
      pageFreeList := frames, mem :=
        Function.update k.pm.mem pp fun _ => 0 } pp (k.pm.ppRef pp + 1)) k.basePgdir pp)).asidBitmap =
    none := ha
  simp only [Kernel.setEnv, ha']
  exact ⟨_, rfl, rfl⟩

theorem exofork_error {k k' : Kernel} {cur : EnvIx} {i : Int} (h : envAlloc k (k.envs cur).envId = (.error i, k')) :
    sysExofork k cur = ret i k' := by
  unfold sysExofork
  rw [h]

/-- **A failing `env_alloc` takes nothing, exactly when it is not for want of an address-space id**: for every state. -/
theorem fork_undone_iff (k : Kernel) (parentId : Word) : EnvAllocUndone k parentId ↔ ¬OutOfAsids k := by
  constructor
  · rintro h ⟨hs, hp, ha⟩
    obtain ⟨e, slots, hs⟩ := List.exists_cons_of_ne_nil hs
    obtain ⟨pp, frames, hp⟩ := List.exists_cons_of_ne_nil hp
    obtain ⟨k', hcall, hleft⟩ := envAlloc_asids hs hp ha
    have hlen := (h _ _ hcall).1.frames.length_eq
    rw [hleft, hp, List.length_cons] at hlen
    exact absurd hlen.symm (Nat.succ_ne_self _)
  · intro hno i k' h
    have hsame : k' = k := by
      rcases envAlloc_inv h with ⟨-, -, hk⟩ | ⟨e, rest, pp, pm₁, hf, hall, -⟩
      · exact hk
      · obtain ⟨ps, hps, -⟩ := pageAlloc_eq hall.alloc
        cases ha : asidAlloc k.asidBitmap with
        | none => exact absurd ⟨by rw [hf]; exact List.cons_ne_nil _ _, by rw [hps]; exact List.cons_ne_nil _ _, ha⟩ hno
        | some q =>
          -- with an id the call goes through
          rw [envAlloc_eq hf hall.alloc ha] at h
          cases h
    subst hsame
    refine ⟨⟨.refl _, rfl, rfl, fun _ _ => rfl⟩, fun cur hcur => ?_⟩
    subst hcur
    exact exofork_error h

/-! ### All ids taken -/

/-- `n` of the ids are taken, and so many frames and slots are left. -/
structure Crowd (frames slots n : Nat) (k : Kernel) : Prop where
  frames : k.pm.pageFreeList.length = frames
  slots : k.envFreeList.length = slots
  asids : ((Finset.range nasid).filter fun i => asidUsed k.asidBitmap i = true).card = n

theorem asidAlloc_none_iff {bitmap : Nat → Word} : asidAlloc bitmap = none ↔ ∀ i < nasid, asidUsed bitmap i = true := by
  unfold asidAlloc
  rw [Option.map_eq_none_iff, List.find?_eq_none]
  simp only [List.mem_range, Bool.not_eq_true', Bool.not_eq_false]

theorem Crowd.next {frames slots n : Nat} {k : Kernel} (h : Crowd (frames + 1) (slots + 1) n k) (hn : n < nasid) :
    ∃ k', envCreate k emptyProgram.binary emptyProgram.priority = some k' ∧ Crowd frames slots (n + 1) k' := by
  obtain ⟨e, rest, hs⟩ := List.exists_cons_of_length_eq_add_one h.slots
  obtain ⟨pp, ps, hp⟩ := List.exists_cons_of_length_eq_add_one h.frames
  have halloc : pageAlloc k.pm =
      some (pp, { k.pm with pageFreeList := ps, mem := Function.update k.pm.mem pp fun _ => 0 }) := by
    unfold pageAlloc
    rw [hp]
  cases ha : asidAlloc k.asidBitmap with
  | none =>
    have hall : (Finset.range nasid).filter (fun i => asidUsed k.asidBitmap i = true) = Finset.range nasid :=
      Finset.filter_true_of_mem fun i hi => asidAlloc_none_iff.1 ha i (Finset.mem_range.1 hi)
    have hcard := h.asids
    rw [hall, Finset.card_range] at hcard
    omega
  | some q =>
    have hcreate := @envAlloc_eq k 0 _ _ _ _ _ _ hs halloc ha
    obtain ⟨hlt, hunused, hused⟩ := asidUsed_alloc ha
    obtain ⟨ehdr, helf, hphdrs⟩ : ∃ ehdr, elfFrom emptyProgram.binary = some ehdr ∧
        emptyProgram.binary.phdrs ehdr = [] := by
      have hany : (elfFrom emptyProgram.binary).any (fun ehdr => (emptyProgram.binary.phdrs ehdr).isEmpty) = true := by
        decide
      obtain ⟨ehdr, helf, hempty⟩ := (Option.any_eq_true _ _).1 hany
      exact ⟨ehdr, helf, List.isEmpty_iff.1 hempty⟩
    unfold envCreate loadIcode
    simp only [hcreate, helf, hphdrs, List.foldlM_nil, Option.bind_some, Option.pure_def, Option.map_some]
    refine ⟨_, rfl, ?_, ?_, ?_⟩
    · have hlen := h.frames
      rw [hp, List.length_cons] at hlen
      exact Nat.succ.inj hlen
    · have hlen := h.slots
      rw [hs, List.length_cons] at hlen
      exact Nat.succ.inj hlen
    · have hfilter : (Finset.range nasid).filter (fun i => asidUsed q.2 i = true) =
          insert q.1 ((Finset.range nasid).filter fun i => asidUsed k.asidBitmap i = true) := by
        ext i
        rw [Finset.mem_filter, Finset.mem_insert, Finset.mem_filter, hused, Bool.or_eq_true, decide_eq_true_eq]
        constructor
        · rintro ⟨hi, rfl | hu⟩
          · exact .inl rfl
          · exact .inr ⟨hi, hu⟩
        · rintro (rfl | ⟨hi, hu⟩)
          · exact ⟨Finset.mem_range.2 hlt, .inl rfl⟩
          · exact ⟨hi, .inr hu⟩
      have hnot : q.1 ∉ (Finset.range nasid).filter fun i => asidUsed k.asidBitmap i = true := by
        rw [Finset.mem_filter, hunused]
        exact fun hc => Bool.false_ne_true hc.2
      show ((Finset.range nasid).filter fun i => asidUsed q.2 i = true).card = n + 1
      rw [hfilter, Finset.card_insert_of_notMem hnot, h.asids]

theorem Crowd.programs {frames slots : Nat} :
    ∀ (m n : Nat) (k : Kernel), Crowd (frames + m) (slots + m) n k → n + m ≤ nasid →
    ∃ k', (List.replicate m emptyProgram).foldlM (fun k p => envCreate k p.binary p.priority) k = some k' ∧
      Crowd frames slots (n + m) k'
  | 0, n, k, h, _ => ⟨k, rfl, h⟩
  | m + 1, n, k, h, hle => by
    obtain ⟨k₁, hcreate, h₁⟩ := h.next (by omega)
    obtain ⟨k₂, hrest, h₂⟩ := Crowd.programs m (n + 1) k₁ h₁ (by omega)
    refine ⟨k₂, ?_, ?_⟩
    · rw [List.replicate_succ, List.foldlM_cons, hcreate]
      exact hrest
    · rw [show n + (m + 1) = n + 1 + m by omega]
      exact h₂

/-- A board with eight megabytes. -/
def wideBoard : Board := { smallBoard with ramLowSize := 0x800000 }

/-- **All ids are taken, and the frame of the page directory is lost.** -/
theorem fork_undone_fails : ¬∀ k, Reachable k → ∀ parentId, EnvAllocUndone k parentId := by
  intro hall
  have hboot : ((mipsVmInit wideBoard).bind fun q => envInit wideBoard q.1 q.2).any
      (fun k => decide (1 + nasid ≤ k.pm.pageFreeList.length ∧ 1 + nasid ≤ k.envFreeList.length)) = true := by
    decide +kernel
  obtain ⟨k, hk, hroom⟩ := (Option.any_eq_true _ _).1 hboot
  obtain ⟨hframes, hslots⟩ := of_decide_eq_true hroom
  obtain ⟨⟨pages, pm⟩, hvm, henv⟩ := Option.bind_eq_some_iff.1 hk
  have hnone : ∀ i, asidUsed k.asidBitmap i = false := by
    obtain ⟨q, -, hrest⟩ := Option.bind_eq_some_iff.1 henv
    obtain ⟨p₃, -, hrest⟩ := Option.bind_eq_some_iff.1 hrest
    obtain ⟨p₄, -, rfl⟩ := Option.map_eq_some_iff.1 hrest
    intro i
    rw [asidUsed_iff]
    exact BitVec.getLsbD_zero
  have hstart : Crowd (k.pm.pageFreeList.length - nasid + nasid) (k.envFreeList.length - nasid + nasid) 0 k := by
    refine ⟨by omega, by omega, ?_⟩
    rw [Finset.card_eq_zero, Finset.filter_eq_empty_iff]
    intro i _
    rw [hnone]
    exact Bool.false_ne_true
  obtain ⟨k', hrun, hcrowd⟩ := Crowd.programs nasid 0 k hstart (Nat.le_of_eq (Nat.zero_add _))
  have hreach : Reachable k' := .start k' ⟨wideBoard, List.replicate nasid emptyProgram, by
    unfold mipsInit
    rw [hvm]
    show (envInit wideBoard pages pm).bind _ = _
    rw [henv]
    exact hrun⟩
  have hasids : asidAlloc k'.asidBitmap = none := by
    rw [asidAlloc_none_iff]
    intro i hi
    have hcard := hcrowd.asids
    rw [Nat.zero_add] at hcard
    have hfull := Finset.eq_of_subset_of_card_le
        (Finset.filter_subset (fun i => asidUsed k'.asidBitmap i = true) (Finset.range nasid))
      (by rw [hcard, Finset.card_range])
    have hmem : i ∈ (Finset.range nasid).filter fun i => asidUsed k'.asidBitmap i = true := by
      rw [hfull]
      exact Finset.mem_range.2 hi
    exact (Finset.mem_filter.1 hmem).2
  refine (fork_undone_iff k' 0).1 (hall k' hreach 0) ⟨?_, ?_, hasids⟩
  · intro hempty
    have := hcrowd.slots
    rw [hempty, List.length_nil] at this
    omega
  · intro hempty
    have := hcrowd.frames
    rw [hempty, List.length_nil] at this
    omega

end Mos
