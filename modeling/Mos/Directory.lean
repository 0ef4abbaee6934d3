import Mos.Lib.Run
import Mos.Insert
import Mos.Space
import Mos.FrameRun
/-!
# Directory — a page directory is a finite map

`page_insert` and `page_remove` on one directory, from the zeroed one on, as updates of a map from page numbers to pages
with flags that `page_lookup` and `va2pa` read.  What can go wrong is the counter of a page: it has sixteen bits, and a
directory has room for more mappings of one page than it counts.
-/
namespace Mos

def va2pa (p : Pmap) (pgdir : Nat) (va : Word) : Option Word :=
  if valid (p.mem pgdir (pdx va)) then
    (kaddr p (pteAddr (p.mem pgdir (pdx va)))).map (fun t =>
      if valid (p.mem t (ptx va)) then pteAddr (p.mem t (ptx va)) else ~~~0)
  else some (~~~0)

/-- What `page_lookup` gives: the page, and the flags of the entry it points to. -/
def lookupPage (p : Pmap) (pgdir : Nat) (va : Word) : Option (Option (Nat × Word)) :=
  (pageLookup p pgdir va).map (Option.map (fun l => (l.1, pteFlags (p.read l.2))))

/-- The map of a directory, from page numbers to pages and flags. -/
abbrev PageMap := Nat → Option (Nat × Word)

/-- **Every lookup reads the map**, at every address. -/
structure ReadsMap (p : Pmap) (d : Nat) (m : PageMap) : Prop where
  lookup : ∀ va, lookupPage p d va = some (m (vpn va))
  pa : ∀ va, va2pa p d va = some (((m (vpn va)).map (fun e => page2pa e.1)).getD (~~~0))

inductive DirOp where
  | insert (asid : Word) (pp : Nat) (va perm : Word)
  | remove (asid va : Word)

namespace DirOp

/-- The state after a call. -/
def step (d : Nat) (p : Pmap) : DirOp → Option Pmap
  | .insert asid pp va perm => (pageInsert p d asid pp va perm).map Prod.snd
  | .remove asid va => pageRemove p d asid va

/-- Addresses below `UTOP`, flags, and pages that are allocated and neither the directory nor one of its tables. -/
def Allowed (d : Nat) (p : Pmap) : DirOp → Prop
  | .insert _ pp va perm => va < utop ∧ perm < 4096 ∧ pp < p.npage ∧ pp ∉ p.pageFreeList ∧ pp ≠ d ∧
      ∀ i < pageWords, p.table (d, i) ≠ some pp
  | .remove _ va => va < utop

/-- A page that is not mapped at the address yet has room in its counter. -/
def Counted (d : Nat) (p : Pmap) : DirOp → Prop
  | .insert _ pp va _ => p.frame (slotOf d va) = some pp ∨ p.ppRef pp < 65535
  | .remove _ _ => True

/-- A zeroed directory, and a free list with frames of memory that nothing refers to. -/
structure Zeroed (d : Nat) (p : Pmap) : Prop where
  npage_le : p.npage ≤ 2 ^ 20
  dir_lt : d < p.npage
  dir_used : d ∉ p.pageFreeList
  zero : ∀ i < pageWords, p.mem d i = 0
  nodup : p.pageFreeList.Nodup
  free : ∀ f ∈ p.pageFreeList, f < p.npage ∧ p.ppRef f = 0

/-- **What a call does to the map**: it sets one page, clears one page, or is out of memory and changes nothing. -/
def UpdatesMap (d : Nat) (p : Pmap) : DirOp → Prop
  | .insert asid pp va perm => ∃ m r p', ReadsMap p d m ∧ pageInsert p d asid pp va perm = some (r, p') ∧
      (r = 0 ∧ ReadsMap p' d (Function.update m (vpn va) (some (pp, perm ||| pteCCacheable ||| pteV))) ∨
        r = -eNoMem ∧ ReadsMap p' d m)
  | .remove asid va => ∃ m p', ReadsMap p d m ∧ pageRemove p d asid va = some p' ∧
      ReadsMap p' d (Function.update m (vpn va) none)

end DirOp

/-! ## The counter of the directory

Whoever makes a directory may count himself as a reference or not; no call on the directory looks. -/

namespace Pmap

theorem setRef_comm (p : Pmap) {x y : Nat} (h : x ≠ y) (r s : BitVec 16) :
    (p.setRef x r).setRef y s = (p.setRef y s).setRef x r := by
  unfold setRef
  rw [Function.update_comm h]

end Pmap

section Uncounted

variable {p : Pmap} {x d : Nat} {r : BitVec 16} {va : Word}

theorem pgdirWalk_setRef (create : Bool) (hx : p.pageFreeList.head? ≠ some x) : pgdirWalk (p.setRef x r) d va create =
    (pgdirWalk p d va create).map (fun w => (w.1, w.2.1, w.2.2.setRef x r)) := by
  unfold pgdirWalk
  have hmem : (p.setRef x r).mem = p.mem := rfl
  have hkaddr : ∀ pa, kaddr (p.setRef x r) pa = kaddr p pa := fun _ => rfl
  rw [hmem]
  split
  · rw [hkaddr, Option.map_map]
    rfl
  · split
    · cases hf : p.pageFreeList with
      | nil =>
        have hf' : (p.setRef x r).pageFreeList = [] := hf
        simp only [pageAlloc, hf, hf', Option.map_some]
      | cons t rest =>
        have hf' : (p.setRef x r).pageFreeList = t :: rest := hf
        have hxt : x ≠ t := fun hc => hx (by rw [hf, hc]; rfl)
        simp only [pageAlloc, hf, hf']
        have hcomm := Pmap.setRef_comm
          { p with pageFreeList := rest, mem := Function.update p.mem t (fun _ => 0) } hxt r 1
        rw [Option.map_map]
        exact congrArg (fun q : Pmap => (kaddr (q.write (d, pdx va) (page2pa t ||| pteCCacheable ||| pteV))
          (pteAddr ((q.write (d, pdx va) (page2pa t ||| pteCCacheable ||| pteV)).mem d (pdx va)))).map
          (fun t' => (0, some (t', ptx va), q.write (d, pdx va) (page2pa t ||| pteCCacheable ||| pteV)))) hcomm
    · rfl

theorem pageDecref_setRef {pp : Nat} (hx : x ≠ pp) :
    pageDecref (p.setRef x r) pp = (pageDecref p pp).map (fun q => q.setRef x r) := by
  unfold pageDecref
  have hr : (p.setRef x r).ppRef pp = p.ppRef pp := Function.update_of_ne (Ne.symm hx) _ _
  rw [hr]
  split
  · rfl
  · dsimp only
    rw [Pmap.setRef_comm p hx]
    have hr' : ((p.setRef pp (p.ppRef pp - 1)).setRef x r).ppRef pp = (p.setRef pp (p.ppRef pp - 1)).ppRef pp :=
      Function.update_of_ne (Ne.symm hx) _ _
    rw [hr']
    split
    · unfold pageFree
      rw [hr']
      split <;> rfl
    · rfl

theorem pageLookup_setRef : pageLookup (p.setRef x r) d va = pageLookup p d va := by
  unfold pageLookup pgdirWalk
  have hkaddr : ∀ pa, kaddr (p.setRef x r) pa = kaddr p pa := fun _ => rfl
  have hpage : ∀ pa, pa2page (p.setRef x r) pa = pa2page p pa := fun _ => rfl
  have hread : ∀ e, (p.setRef x r).read e = p.read e := fun _ => rfl
  have hmem : (p.setRef x r).mem = p.mem := rfl
  simp only [hmem, hkaddr, hpage, hread]
  split
  · cases kaddr p (pteAddr (p.mem d (pdx va))) <;> rfl
  · rfl

theorem pageRemove_setRef {asid : Word} (hx : ∀ pp e, pageLookup p d va = some (some (pp, e)) → x ≠ pp) :
    pageRemove (p.setRef x r) d asid va = (pageRemove p d asid va).map (fun q => q.setRef x r) := by
  unfold pageRemove
  rw [pageLookup_setRef]
  cases hl : pageLookup p d va with
  | none => rfl
  | some l =>
    cases l with
    | none => rfl
    | some l =>
      obtain ⟨pp, e⟩ := l
      simp only [Option.bind_some]
      rw [pageDecref_setRef (hx pp e hl), Option.map_map, Option.map_map]
      rfl

theorem insertFresh_setRef (asid perm : Word) {pp : Nat} (hx : x ≠ pp) (hf : p.pageFreeList.head? ≠ some x) :
    pageInsertFresh (p.setRef x r) d asid pp va perm =
      (pageInsertFresh p d asid pp va perm).map (fun q => (q.1, q.2.setRef x r)) := by
  unfold pageInsertFresh
  have hw : pgdirWalk ((tlbInvalidate p asid va).setRef x r) d va true = _ := pgdirWalk_setRef true hf
  have htlb : tlbInvalidate (p.setRef x r) asid va = (tlbInvalidate p asid va).setRef x r := rfl
  rw [htlb, hw]
  cases pgdirWalk (tlbInvalidate p asid va) d va true with
  | none => rfl
  | some w =>
    obtain ⟨c, e, q⟩ := w
    cases e with
    | none => rfl
    | some e =>
      have hr : (q.setRef x r).ppRef pp = q.ppRef pp := Function.update_of_ne (Ne.symm hx) _ _
      simp only [Option.map_some, hr]
      rw [Pmap.setRef_comm q hx]
      rfl

theorem pageRemove_free {asid : Word} {p₁ : Pmap} (h : pageRemove p d asid va = some p₁) {f : Nat}
    (hf : f ∈ p₁.pageFreeList) : f ∈ p.pageFreeList ∨ ∃ e, pageLookup p d va = some (some (f, e)) := by
  unfold pageRemove at h
  obtain ⟨l, hl, h⟩ := Option.bind_eq_some_iff.1 h
  cases l with
  | none =>
    cases h
    exact .inl hf
  | some l =>
    obtain ⟨pp, e⟩ := l
    obtain ⟨q, hq, rfl⟩ := Option.map_eq_some_iff.1 h
    have hr : p.ppRef pp ≠ 0 := by
      intro hr
      rw [pageDecref, if_pos hr] at hq
      cases hq
    rw [Acct.decref_eq hr] at hq
    cases hq
    have hf' : f ∈ (if p.ppRef pp = 1 then pp :: p.pageFreeList else p.pageFreeList) := hf
    split at hf'
    · rcases List.mem_cons.1 hf' with rfl | hf'
      · exact .inr ⟨e, hl⟩
      · exact .inl hf'
    · exact .inl hf'

/-- **The counter of a page that is neither mapped, removed nor allocated stays.** -/
theorem pageInsert_setRef {asid perm : Word} {pp : Nat} (hx : x ≠ pp) (hf : x ∉ p.pageFreeList)
    (hl : ∀ pp' e, pageLookup p d va = some (some (pp', e)) → x ≠ pp') : pageInsert (p.setRef x r) d asid pp va perm =
      (pageInsert p d asid pp va perm).map (fun q => (q.1, q.2.setRef x r)) := by
  have hhead : ∀ q : Pmap, x ∉ q.pageFreeList → q.pageFreeList.head? ≠ some x :=
    fun q hq hc => hq (List.mem_of_mem_head? (Option.mem_def.2 hc))
  have hfresh := @insertFresh_setRef p x d r va asid perm _ hx (hhead p hf)
  unfold pageInsert
  rw [pgdirWalk_setRef false (hhead p hf)]
  cases hw : pgdirWalk p d va false with
  | none => rfl
  | some w =>
    obtain ⟨c, e, q⟩ := w
    cases e with
    | none => exact hfresh
    | some e =>
      have hread : (p.setRef x r).read e = p.read e := rfl
      have hpage : ∀ pa, pa2page (p.setRef x r) pa = pa2page p pa := fun _ => rfl
      simp only [Option.map_some, Option.bind_some, hread, hpage]
      split
      · rename_i hv
        cases hpa : pa2page p (p.read e) with
        | none => rfl
        | some pp' =>
          simp only [Option.bind_some]
          split
          · rfl
          · have hlook : pageLookup p d va = some (some (pp', e)) := by
              simp only [pageLookup, hw, Option.bind_some, if_pos hv, hpa, Option.map_some]
            rw [pageRemove_setRef hl]
            cases hrm : pageRemove p d asid va with
            | none => rfl
            | some p₁ =>
              have hf₁ : x ∉ p₁.pageFreeList := by
                intro hc
                rcases pageRemove_free hrm hc with hc | ⟨e', he'⟩
                · exact hf hc
                · exact hl x e' he' rfl
              exact insertFresh_setRef asid perm hx (hhead p₁ hf₁)
      · exact hfresh

end Uncounted

/-! ## The map of the entries -/

/-- The map in the entries of a directory and its tables. -/
def dirMap (p : Pmap) (d : Nat) : PageMap := fun n =>
  (p.pte (d, n / pageWords, n % pageWords)).map (fun w => (ppn w, pteFlags w))

theorem slotOf_vpn (d : Nat) (va : Word) : slotOf d va = (d, vpn va / pageWords, vpn va % pageWords) := by
  have hv : vpn va = va.toNat / 2 ^ 12 := by
    unfold vpn pgshift
    rw [BitVec.toNat_ushiftRight, Nat.shiftRight_eq_div_pow]
  unfold slotOf pageWords
  rw [pdx_eq, ptx_eq, hv, Nat.div_div_eq_div_mul]
  rfl

theorem dirMap_vpn (p : Pmap) (d : Nat) (va : Word) :
    dirMap p d (vpn va) = (p.pte (slotOf d va)).map (fun w => (ppn w, pteFlags w)) := by
  rw [slotOf_vpn]
  rfl

theorem pteAddr_eq (w : Word) : pteAddr w = page2pa (ppn w) := by
  apply BitVec.eq_of_toNat_eq
  rw [pteAddr_toNat]
  unfold page2pa ppn pgshift
  rw [BitVec.toNat_shiftLeft, BitVec.toNat_ofNat, BitVec.toNat_ushiftRight, Nat.shiftRight_eq_div_pow,
    Nat.shiftLeft_eq]
  have := w.isLt
  omega

theorem pteFlags_entryOf {perm : Word} (h : perm < 4096) (pp : Nat) :
    pteFlags (entryOf pp perm) = perm ||| pteCCacheable ||| pteV := by
  have hmask : (0xFFF : Word).toNat = 2 ^ 12 - 1 := by decide
  have hpage : page2pa pp &&& 0xFFF = 0#32 := by
    apply BitVec.eq_of_toNat_eq
    unfold page2pa pgshift
    rw [BitVec.toNat_and, hmask, Nat.and_two_pow_sub_one_eq_mod, BitVec.toNat_shiftLeft, BitVec.toNat_ofNat,
      Nat.shiftLeft_eq]
    show _ = 0
    omega
  have hperm : perm &&& 0xFFF = perm := by
    apply BitVec.eq_of_toNat_eq
    have hlt : perm.toNat < 4096 := h
    rw [BitVec.toNat_and, hmask, Nat.and_two_pow_sub_one_eq_mod]
    omega
  have hc : pteCCacheable &&& 0xFFF = pteCCacheable := by decide
  have hv : pteV &&& 0xFFF = pteV := by decide
  unfold pteFlags entryOf
  rw [BitVec.and_comm, BitVec.and_or_distrib_left, BitVec.and_or_distrib_left, BitVec.and_or_distrib_left,
    BitVec.and_comm _ (page2pa pp), BitVec.and_comm _ perm, BitVec.and_comm _ pteCCacheable, BitVec.and_comm _ pteV,
    hpage, hperm, hc, hv, BitVec.zero_or]

theorem ReadsMap.congr {p : Pmap} {d : Nat} {m m' : PageMap} (h : ReadsMap p d m)
    (hm : ∀ va, m' (vpn va) = m (vpn va)) : ReadsMap p d m' :=
  ⟨fun va => by rw [hm, h.lookup], fun va => by rw [hm, h.pa]⟩

namespace Acct

variable {p p' : Pmap} {g : Ledger} {d : Nat}

theorem pdx_words (va : Word) : pdx va < pageWords := pdx_lt va

/-- **Lookups read the map of the entries.** -/
theorem readsMap (h : Acct pageWords p g) (hd : d ∈ g.dirs) : ReadsMap p d (dirMap p d) := by
  constructor
  · intro va
    rw [dirMap_vpn]
    unfold lookupPage
    cases hw : p.pte (slotOf d va) with
    | none =>
      rw [h.lookup_none hd (pdx_words va) hw]
      rfl
    | some w =>
      obtain ⟨t, ht, -, -⟩ := table_of_pte hw
      obtain ⟨hl, hm, -⟩ := h.lookup_some hd (pdx_words va) ht hw
      rw [hl]
      simp only [Option.map_some, Pmap.read, hm]
  · intro va
    rw [dirMap_vpn]
    unfold va2pa
    cases ht : p.table (d, pdx va) with
    | none =>
      rw [if_neg (by rw [table_eq_none.1 ht]; simp), slotOf, pte_none_of_table ht]
      rfl
    | some t =>
      obtain ⟨hv, hp⟩ := table_eq_some.1 ht
      have hlt := h.tree.table_lt _ (mem_tableSlots.2 ⟨hd, pdx_words va⟩) t ht
      rw [if_pos hv, kaddr, ppn_pteAddr, hp, if_pos hlt, slotOf, pte_of_table ht]
      simp only [Option.map_some]
      split
      · simp only [Option.map_some, Option.getD_some, pteAddr_eq]
      · rfl

theorem readsMap_update (h : Acct pageWords p' g) (hd : d ∈ g.dirs) {dirs : Finset Nat} (hd' : d ∈ dirs) {va : Word}
    {v : Option Word} (hs : SetsPte pageWords dirs p p' (slotOf d va) v) :
    ReadsMap p' d (Function.update (dirMap p d) (vpn va) (v.map (fun w => (ppn w, pteFlags w)))) := by
  refine (h.readsMap hd).congr (fun va' => ?_)
  have hslot := slotOf_mem hd' (pdx_words va')
  rw [dirMap_vpn, hs _ hslot]
  by_cases hv : vpn va' = vpn va
  · rw [hv, Function.update_self, if_pos (by rw [slotOf_vpn, slotOf_vpn, hv])]
  · rw [Function.update_of_ne hv, if_neg, dirMap_vpn]
    intro hc
    rw [slotOf_vpn, slotOf_vpn] at hc
    apply hv
    rw [← Nat.div_add_mod (vpn va') pageWords, ← Nat.div_add_mod (vpn va) pageWords]
    simp only [Prod.mk.injEq, true_and] at hc
    rw [hc.1, hc.2]

end Acct

/-! ## Runs of calls -/

namespace DirOp

variable {d : Nat} {p p' : Pmap}

/-- The accounts of one directory, the caller's reference of it counted. -/
def Kept (d : Nat) (p : Pmap) : Prop :=
  d ∉ p.pageFreeList ∧ ∃ g, g.dirs = {d} ∧ Acct pageWords (p.setRef d 1) g

theorem kept_zeroed (h : Zeroed d p) : Kept d p := by
  classical
  have hd : (p.setRef d 0).ppRef d = 0 := Function.update_self _ _ _
  have hfree : ∀ f, f ∈ p.pageFreeList → f < p.npage ∧ (p.setRef d 0).ppRef f = 0 := by
    intro f hf
    have hfd : f ≠ d := fun hc => h.dir_used (hc ▸ hf)
    exact ⟨(h.free f hf).1, (Function.update_of_ne hfd _ _).trans (h.free f hf).2⟩
  have hlimbo : ∀ f, f ∈ (Finset.range p.npage).filter (fun f => (p.setRef d 0).ppRef f = 0 ∧ f ∉ p.pageFreeList) ↔
      f < p.npage ∧ (p.setRef d 0).ppRef f = 0 ∧ f ∉ p.pageFreeList := by
    intro f
    rw [Finset.mem_filter, Finset.mem_range]
  have hnone := @Acct.noDirs pageWords (p.setRef d 0) (fun f => ((p.setRef d 0).ppRef f).toNat)
    ((Finset.range p.npage).filter (fun f => (p.setRef d 0).ppRef f = 0 ∧ f ∉ p.pageFreeList)) h.npage_le
    (fun f hf => ⟨((hlimbo f).1 hf).1, ((hlimbo f).1 hf).2.1⟩) (fun _ _ => rfl) h.nodup (by
      intro f
      rw [hlimbo]
      constructor
      · intro hf
        exact ⟨(hfree f hf).1, (hfree f hf).2, fun hc => hc.2.2 hf⟩
      · rintro ⟨hlt, hr, hn⟩
        by_contra hf
        exact hn ⟨hlt, hr, hf⟩)
  have hdl := (hlimbo d).2 ⟨h.dir_lt, hd, h.dir_used⟩
  have hset : (p.setRef d 1).ppRef = Function.update (p.setRef d 0).ppRef d 1 := (Function.update_idem _ _ _).symm
  have hnew := (@Acct.newDir pageWords (p.setRef d 0) (p.setRef d 1) _ hnone d hdl (fun i hi => by
    show valid (p.mem d i) = false
    rw [h.zero i hi, valid_zero]) rfl hset rfl (fun _ _ => rfl)).1
  exact ⟨h.dir_used, _, rfl, hnew⟩

theorem readsMap_setRef {m : PageMap} {x : Nat} {r : BitVec 16} : ReadsMap (p.setRef x r) d m ↔ ReadsMap p d m := by
  have hl : ∀ va, lookupPage (p.setRef x r) d va = lookupPage p d va := by
    intro va
    unfold lookupPage
    rw [pageLookup_setRef]
    rfl
  constructor
  · intro h
    exact ⟨fun va => (hl va).symm.trans (h.lookup va), h.pa⟩
  · intro h
    exact ⟨fun va => (hl va).trans (h.lookup va), h.pa⟩

/-- **A counted call updates the map and keeps the accounts.** -/
theorem kept_step {op : DirOp} (h : Kept d p) (ha : op.Allowed d p) (hc : op.Counted d p) :
    op.UpdatesMap d p ∧ ∀ p', op.step d p = some p' → Kept d p' := by
  obtain ⟨hused, g, hdirs, hacct⟩ := h
  have hd : d ∈ g.dirs := by rw [hdirs]; exact Finset.mem_singleton_self d
  have hreads : ReadsMap p d (dirMap p d) := readsMap_setRef.1 (hacct.readsMap hd)
  have hlook : ∀ va pp e, pageLookup p d va = some (some (pp, e)) → d ≠ pp := by
    intro va pp e hl hdp
    obtain ⟨l, hl', hf⟩ := hacct.lookup hd (Acct.pdx_words va)
    rw [pageLookup_setRef, hl] at hl'
    cases hl'
    exact hacct.tree.frame_dir _ (slotOf_mem hd (Acct.pdx_words va)) pp hf.symm (hdp ▸ hd)
  have hkept : ∀ {p' : Pmap} {g' : Ledger}, g'.dirs = {d} → Acct pageWords (p'.setRef d 1) g' → Kept d p' := by
    intro p' g' hg' ha'
    have hd' : d ∈ g'.dirs := by rw [hg']; exact Finset.mem_singleton_self d
    exact ⟨fun hf => ha'.dir_ref hd' (ha'.of_free hf).2.1, g', hg', ha'⟩
  cases op with
  | insert asid pp va perm =>
    obtain ⟨-, hperm, hlt, hnf, hpd, htab⟩ := ha
    have hmask : pp ||| ppn perm = pp := by rw [Account.ppn_flags hperm, Nat.or_zero]
    have hu : Acct.Usable pageWords (p.setRef d 1) g pp := by
      refine ⟨hlt, hnf, ?_, ?_⟩
      · rw [hdirs, Finset.mem_singleton]
        exact hpd
      · intro s hs
        obtain ⟨hs₁, hs₂⟩ := mem_tableSlots.1 hs
        rw [hdirs, Finset.mem_singleton] at hs₁
        obtain ⟨d', i⟩ := s
        obtain rfl : d' = d := hs₁
        exact htab i hs₂
    have hroom : (p.setRef d 1).frame (slotOf d va) = some pp ∨ (p.setRef d 1).ppRef pp < 65535 := by
      rcases hc with hc | hc
      · exact .inl hc
      · refine .inr ?_
        rw [show (p.setRef d 1).ppRef pp = p.ppRef pp from Function.update_of_ne hpd _ _]
        exact hc
    have hins := hacct.insertPage hd (Acct.pdx_words va) asid hu hroom hmask
    have hset : pageInsert (p.setRef d 1) d asid pp va perm = _ := pageInsert_setRef (Ne.symm hpd) hused (hlook va)
    rw [hset] at hins
    rcases hins with ⟨-, -, he⟩ | ⟨q, he, hi⟩
    · obtain ⟨⟨r, p'⟩, hp, hpq⟩ := Option.map_eq_some_iff.1 he
      obtain ⟨rfl, hpq⟩ := Prod.mk.inj hpq
      dsimp only at hpq
      have hacct' : Acct pageWords (p'.setRef d 1) g := by
        rw [hpq]
        exact hacct.tlb asid va
      have hreads' : ReadsMap p' d (dirMap p d) := by
        refine readsMap_setRef.1 (?_ : ReadsMap (p'.setRef d 1) d _)
        rw [hpq]
        exact (hacct.tlb asid va).readsMap hd
      refine ⟨⟨_, _, p', hreads, hp, .inr ⟨rfl, hreads'⟩⟩, ?_⟩
      intro p'' hs
      simp only [step, hp, Option.map_some, Option.some.injEq] at hs
      exact hs ▸ hkept hdirs hacct'
    · obtain ⟨⟨r, p'⟩, hp, hpq⟩ := Option.map_eq_some_iff.1 he
      obtain ⟨rfl, rfl⟩ := Prod.mk.inj hpq
      have hreads' := hi.acct.readsMap_update hd hd hi.pte
      have hppn : ppn (entryOf pp perm) = pp := by
        rw [ppn_entryOf (Nat.lt_of_lt_of_le hlt hacct.npage_le), hmask]
      simp only [Option.map_some, hppn, pteFlags_entryOf hperm] at hreads'
      refine ⟨⟨_, _, p', hreads, hp, .inl ⟨rfl, readsMap_setRef.1 hreads'⟩⟩, ?_⟩
      intro p'' hs
      simp only [step, hp, Option.map_some, Option.some.injEq] at hs
      exact hs ▸ hkept (show (g.settle pp).dirs = {d} from hdirs) hi.acct
  | remove asid va =>
    obtain ⟨q, he, hacct', -, -, hpte, -⟩ := hacct.removePage hd (Acct.pdx_words va) asid
    rw [pageRemove_setRef (hlook va)] at he
    obtain ⟨p', hp, rfl⟩ := Option.map_eq_some_iff.1 he
    have hreads' := hacct'.readsMap_update hd hd hpte
    refine ⟨⟨_, p', hreads, hp, readsMap_setRef.1 hreads'⟩, ?_⟩
    intro p'' hs
    have hs' : p' = p'' := Option.some.inj (hp.symm.trans hs)
    exact hs' ▸ hkept hdirs hacct'

theorem kept_of_run (h : Run (Zeroed d) (step d) (fun p op => op.Allowed d p ∧ op.Counted d p) p) : Kept d p := by
  refine Run.invariant (Kept d) (fun p hz => kept_zeroed hz) ?_ p h
  intro p op p' hk hok hs
  exact (kept_step hk hok.1 hok.2).2 p' hs

/-- **A page directory is a finite map** along every run in which no counter is full. -/
theorem directory_is_map (d : Nat) (p : Pmap) (op : DirOp)
    (h : Run (Zeroed d) (step d) (fun p op => op.Allowed d p ∧ op.Counted d p) p) (ha : op.Allowed d p)
    (hc : op.Counted d p) : op.UpdatesMap d p :=
  (kept_step (kept_of_run h) ha hc).1

/-! ## One page at every address

A zeroed directory in frame 0, and the page in frame 1, mapped at one page after the other. -/

def bare : Pmap :=
  { npage := 100, ppRef := fun _ => 0, pageFreeList := List.range' 2 64, mem := fun _ _ => 0, tlb := [] }

theorem zeroed_bare : Zeroed 0 bare where
  npage_le := by decide
  dir_lt := by decide
  dir_used := by decide
  zero _ _ := rfl
  nodup := List.nodup_range'
  free := by decide

/-- The tables of the first `n` pages. -/
def tablesOf (n : Nat) : Nat := (n + 1023) / 1024

/-- There are `k` tables, and the first `n` pages are mapped to frame 1. -/
structure Filled (k n : Nat) (p : Pmap) : Prop where
  npage : p.npage = 100
  ref : p.ppRef 1 = BitVec.ofNat 16 n
  free : p.pageFreeList = List.range' (2 + k) (64 - k)
  table : ∀ i < 1024, p.table (0, i) = if i < k then some (2 + i) else none
  entry : ∀ i < k, ∀ j < 1024, p.mem (2 + i) j = if i * 1024 + j < n then entryOf 1 0 else 0

/-- The address of a page. -/
def pageAddr (n : Nat) : Word := BitVec.ofNat 32 (n * 4096)

theorem filled_bare : Filled 0 0 bare where
  npage := rfl
  ref := rfl
  free := rfl
  table i hi := by
    rw [if_neg (Nat.not_lt_zero i)]
    exact if_neg (show ¬valid 0 = true by decide)
  entry i hi := absurd hi (Nat.not_lt_zero i)

theorem pageAddr_fields {n : Nat} (h : n < 2 ^ 20) : pdx (pageAddr n) = n / 1024 ∧ ptx (pageAddr n) = n % 1024 := by
  have ha : (pageAddr n).toNat = n * 4096 := by
    unfold pageAddr
    rw [BitVec.toNat_ofNat]
    omega
  rw [pdx_eq, ptx_eq, ha]
  omega

theorem Filled.tlb {k n : Nat} (h : Filled k n p) (asid va : Word) : Filled k n (tlbInvalidate p asid va) :=
  ⟨h.npage, h.ref, h.free, h.table, h.entry⟩

theorem filled_walk {n : Nat} (hn : n < 65536) (h : Filled (tablesOf n) n p) : ∃ q,
    pgdirWalk p 0 (pageAddr n) true = some (0, some (2 + n / 1024, n % 1024), q) ∧ Filled (tablesOf (n + 1)) n q := by
  obtain ⟨hd, ht⟩ := pageAddr_fields (n := n) (by omega)
  have hi : n / 1024 < 1024 := by omega
  by_cases hz : n % 1024 = 0
  · have hk : tablesOf n = n / 1024 := by unfold tablesOf; omega
    have hk' : tablesOf (n + 1) = n / 1024 + 1 := by unfold tablesOf; omega
    rw [hk] at h
    rw [hk']
    have hf : p.pageFreeList = (2 + n / 1024) :: List.range' (3 + n / 1024) (63 - n / 1024) := by
      rw [h.free, show 64 - n / 1024 = 63 - n / 1024 + 1 by omega, List.range'_succ]
      congr 2
      omega
    have htab : p.table (0, pdx (pageAddr n)) = none := by
      rw [hd, h.table _ hi, if_neg (Nat.lt_irrefl _)]
    have hv : ¬valid (p.mem 0 (n / 1024)) = true := by
      rw [← hd, table_eq_none.1 htab]
      simp
    have hppn : ppn (page2pa (2 + n / 1024) ||| pteCCacheable ||| pteV) = 2 + n / 1024 :=
      Acct.ppn_tableEntry (t := 2 + n / 1024) (by omega)
    have hw : ∃ q, pgdirWalk p 0 (pageAddr n) true = some (0, some (2 + n / 1024, n % 1024), q) ∧ q.npage = p.npage ∧
        q.ppRef = Function.update p.ppRef (2 + n / 1024) 1 ∧
        q.pageFreeList = List.range' (3 + n / 1024) (63 - n / 1024) ∧
        ∀ f i, q.mem f i = if f = 0 ∧ i = n / 1024 then page2pa (2 + n / 1024) ||| pteCCacheable ||| pteV
          else if f = 2 + n / 1024 then 0 else p.mem f i := by
      refine ⟨(Pmap.setRef { p with
        pageFreeList := List.range' (3 + n / 1024) (63 - n / 1024)
        mem := Function.update p.mem (2 + n / 1024) (fun _ => 0) } (2 + n / 1024) 1).write (0, n / 1024)
          (page2pa (2 + n / 1024) ||| pteCCacheable ||| pteV), ?_, rfl, rfl, rfl, fun f i => ?_⟩
      · simp only [pgdirWalk, hd, ht, if_neg hv, if_true, pageAlloc, hf, kaddr, ppn_pteAddr, write_mem, and_self, hppn]
        show Option.map _ (if _ < p.npage then _ else _) = _
        rw [h.npage, if_pos (by omega)]
        rfl
      · rw [write_mem]
        dsimp only [Pmap.setRef]
        by_cases hft : f = 2 + n / 1024
        · rw [hft, Function.update_self, if_pos rfl]
        · rw [Function.update_of_ne hft, if_neg hft]
    obtain ⟨q, hq, hqn, hqr, hqf, hqm⟩ := hw
    refine ⟨q, hq, hqn.trans h.npage, ?_, ?_, ?_, ?_⟩
    · rw [hqr, Function.update_of_ne (by omega), h.ref]
    · rw [hqf]
      congr 1 <;> omega
    · intro i hi'
      have hrow : q.mem 0 i = if i = n / 1024 then page2pa (2 + n / 1024) ||| pteCCacheable ||| pteV
          else p.mem 0 i := by
        rw [hqm, if_neg (show ¬0 = 2 + n / 1024 by omega)]
        simp
      have hold := h.table i hi'
      unfold Pmap.table at hold ⊢
      dsimp only at hold ⊢
      rw [hrow]
      by_cases hin : i = n / 1024
      · rw [if_pos hin, if_pos (valid_or_pteV _), hppn, if_pos (by omega), hin]
      · rw [if_neg hin, hold]
        by_cases hlt : i < n / 1024
        · rw [if_pos hlt, if_pos (by omega)]
        · rw [if_neg hlt, if_neg (by omega)]
    · intro i hi' j hj
      rw [hqm, if_neg (by omega)]
      by_cases hin : i = n / 1024
      · rw [if_pos (by omega), if_neg (by omega)]
      · rw [if_neg (by omega)]
        exact h.entry i (by omega) j hj
  · have hk : tablesOf n = tablesOf (n + 1) := by unfold tablesOf; omega
    have hlt : n / 1024 < tablesOf n := by unfold tablesOf; omega
    refine ⟨p, ?_, hk ▸ h⟩
    have htab : p.table (0, pdx (pageAddr n)) = some (2 + n / 1024) := by
      rw [hd, h.table _ hi, if_pos hlt]
    rw [walk_eq true htab, h.npage, if_pos (by omega), ht]

theorem filled_write {k n : Nat} {q : Pmap} (h : Filled k n q) :
    Filled k (n + 1) ((q.setRef 1 (q.ppRef 1 + 1)).write (2 + n / 1024, n % 1024) (entryOf 1 0)) := by
  have hmem := write_mem (q.setRef 1 (q.ppRef 1 + 1)) (2 + n / 1024, n % 1024) (entryOf 1 0)
  constructor
  · exact h.npage
  · show Function.update q.ppRef 1 (q.ppRef 1 + 1) 1 = _
    rw [Function.update_self, h.ref, BitVec.ofNat_add]
    rfl
  · exact h.free
  · intro i hi
    rw [table_write, if_neg (fun hc => by
      have := (Prod.mk.inj hc).1
      omega)]
    exact h.table i hi
  · intro i hi j hj
    rw [hmem]
    have hold : (q.setRef 1 (q.ppRef 1 + 1)).mem (2 + i) j = if i * 1024 + j < n then entryOf 1 0
        else 0 := h.entry i hi j hj
    rw [hold]
    dsimp only
    split
    · rw [if_pos (by omega)]
    · by_cases hlt : i * 1024 + j < n
      · rw [if_pos hlt, if_pos (by omega)]
      · rw [if_neg hlt, if_neg (by omega)]

/-- **One more page is mapped.** -/
theorem filled_step {n : Nat} (hn : n < 65536) (h : Filled (tablesOf n) n p) :
    (DirOp.insert 0 1 (pageAddr n) 0).Allowed 0 p ∧
    ∃ p', (DirOp.insert 0 1 (pageAddr n) 0).step 0 p = some p' ∧ Filled (tablesOf (n + 1)) (n + 1) p' := by
  constructor
  · refine ⟨?_, by decide, by rw [h.npage]; decide, ?_, by decide, ?_⟩
    · rw [← pdx_lt_utop, (pageAddr_fields (n := n) (by omega)).1, show pdx utop = 509 by decide]
      omega
    · rw [h.free, List.mem_range'_1]
      omega
    · intro i hi
      rw [h.table i hi]
      split
      · intro hc
        have := Option.some.inj hc
        omega
      · simp
  · obtain ⟨hd, ht⟩ := pageAddr_fields (n := n) (by omega)
    obtain ⟨q, hq, hf⟩ := filled_walk hn (h.tlb 0 (pageAddr n))
    have hfresh : pageInsertFresh p 0 0 1 (pageAddr n) 0 =
        some (0, (q.setRef 1 (q.ppRef 1 + 1)).write (2 + n / 1024, n % 1024) (entryOf 1 0)) := by
      simp only [pageInsertFresh, hq, Option.map_some, entryOf]
    -- no page is mapped there yet
    have hins : pageInsert p 0 0 1 (pageAddr n) 0 = pageInsertFresh p 0 0 1 (pageAddr n) 0 := by
      unfold pageInsert
      have htab := h.table (n / 1024) (by omega)
      rw [← hd] at htab
      split at htab
      · rename_i hlt
        have hv : ¬valid (p.read (2 + n / 1024, n % 1024)) = true := by
          show ¬valid (p.mem (2 + n / 1024) (n % 1024)) = true
          rw [h.entry _ (hd ▸ hlt) _ (Nat.mod_lt _ (by decide)), if_neg (by omega)]
          decide
        rw [walk_eq false htab, h.npage, if_pos (by omega), hd, ht]
        simp only [Option.bind_some, if_neg hv]
      · rw [walk_eq_none htab]
        rfl
    exact ⟨_, by simp only [step, hins, hfresh, Option.map_some], filled_write hf⟩

theorem filled_run : ∀ n ≤ 65536, ∃ p, Run (Zeroed 0) (step 0) (fun p op => op.Allowed 0 p) p ∧ Filled (tablesOf n) n p
  | 0, _ => ⟨bare, .start bare zeroed_bare, filled_bare⟩
  | n + 1, hn => by
    obtain ⟨p, hr, hf⟩ := filled_run n (Nat.le_of_succ_le hn)
    obtain ⟨hok, p', hs, hf'⟩ := filled_step hn hf
    exact ⟨p', .next p _ p' hr hok hs, hf'⟩

/-- After 65536 mappings the counter is zero again, and the first `page_remove` stops at its assertion. -/
theorem directory_is_map_fails : ¬∀ (d : Nat) (p : Pmap) (op : DirOp),
    Run (Zeroed d) (step d) (fun p op => op.Allowed d p) p → op.Allowed d p → op.UpdatesMap d p := by
  intro hall
  obtain ⟨p, hr, hf⟩ := filled_run 65536 (Nat.le_refl _)
  obtain ⟨m, p', -, hrm, -⟩ := hall 0 p (.remove 0 0) hr (show (0 : Word) < utop by decide)
  have ht : p.table (0, pdx 0) = some 2 := hf.table 0 (by decide)
  have he : p.mem 2 (ptx 0) = entryOf 1 0 := hf.entry 0 (by decide) 0 (by decide)
  have hw : pgdirWalk p 0 0 false = some (0, some (2, ptx 0), p) := by
    rw [walk_eq false ht, hf.npage]
    rfl
  have hread : p.read (2, ptx 0) = entryOf 1 0 := he
  have hl : pageLookup p 0 0 = some (some (1, (2, ptx 0))) := by
    have hppn : ppn (entryOf 1 0) = 1 := by decide
    unfold pageLookup
    rw [hw]
    simp only [Option.bind_some, hread, valid_entryOf, if_true, pa2page, hppn, hf.npage]
    rfl
  have hd : pageDecref p 1 = none := by
    unfold pageDecref
    rw [hf.ref]
    rfl
  unfold pageRemove at hrm
  simp only [hl, Option.bind_some, hd, Option.map_none, reduceCtorEq] at hrm

/-- A page is mapped, and the call that unmaps it. -/
theorem directory_is_map_bare : ∃ p, (DirOp.insert 0 1 0 0).step 0 bare = some p ∧
    (DirOp.remove 0 0).UpdatesMap 0 p := by
  obtain ⟨hok, p, hs, -⟩ := filled_step (n := 0) (by decide) filled_bare
  refine ⟨p, hs, directory_is_map 0 p (.remove 0 0)
    (.next bare _ p (.start bare zeroed_bare) ⟨hok, .inr ?_⟩ hs) ?_ trivial⟩
  · decide
  · show (0 : Word) < utop
    decide

end DirOp

end Mos
