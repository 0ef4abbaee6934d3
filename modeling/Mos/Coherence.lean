import Mos.Counter
import Mos.Tlb
/-!
# Coherence — the TLB over every run

`env_alloc` marks an address-space id and `env_free` gives it back once the space is unmapped.  So what the TLB says
of a page below `UTOP` is what the table of the environment says that lives under the id, in whatever order the ids
are given out again, as long as no counter of a page wraps.
-/
namespace Mos

/-! ## Address-space ids -/

theorem asidUsed_iff (b : Nat → Word) (i : Nat) : asidUsed b i = (b (i / 32)).getLsbD (i % 32) := by
  have hlt : i % 32 < 32 := Nat.mod_lt _ (by decide)
  have hone : ((1 : Word) <<< (i % 32)) = BitVec.twoPow 32 (i % 32) := rfl
  unfold asidUsed
  rw [Nat.shiftRight_eq_div_pow, show (31 : Nat) = 2 ^ 5 - 1 by decide, Nat.and_two_pow_sub_one_eq_mod,
    hone, BitVec.and_twoPow]
  have hne : BitVec.twoPow 32 (i % 32) ≠ 0 := by
    intro hc
    have hbit := congrArg (fun w : Word => w.getLsbD (i % 32)) hc
    simp [hlt] at hbit
  cases hb : (b (i / 32)).getLsbD (i % 32) with
  | false => simp
  | true => simpa [hb] using hne

theorem asidUsed_alloc {b b' : Nat → Word} {i : Nat} (h : asidAlloc b = some (i, b')) :
    i < nasid ∧ asidUsed b i = false ∧ ∀ j, asidUsed b' j = (decide (j = i) || asidUsed b j) := by
  obtain ⟨i', hfind, hi⟩ := Option.map_eq_some_iff.1 h
  obtain ⟨rfl, rfl⟩ : i' = i ∧ _ = b' := Prod.mk.inj hi
  refine ⟨List.mem_range.1 (List.mem_of_find?_eq_some hfind), by simpa using List.find?_some hfind, fun j => ?_⟩
  have hlt : i' % 32 < 32 := Nat.mod_lt _ (by decide)
  have hone : ((1 : Word) <<< (i' % 32)) = BitVec.twoPow 32 (i' % 32) := rfl
  rw [asidUsed_iff, asidUsed_iff, Nat.shiftRight_eq_div_pow, show (31 : Nat) = 2 ^ 5 - 1 by decide,
    Nat.and_two_pow_sub_one_eq_mod, hone, Function.update_apply]
  split
  · rename_i hw
    have hw' : j / 32 = i' / 32 := hw
    rw [BitVec.getLsbD_or, BitVec.getLsbD_twoPow, ← hw', Bool.or_comm]
    congr 1
    rw [decide_eq_true hlt, Bool.true_and, decide_eq_decide]
    omega
  · rename_i hw
    have hw' : j / 32 ≠ i' / 32 := hw
    rw [decide_eq_false (by omega), Bool.false_or]

theorem asidUsed_free (b : Nat → Word) (i j : Nat) : asidUsed (asidFree b i) j = (decide (j ≠ i) && asidUsed b j) := by
  have hlt : i % 32 < 32 := Nat.mod_lt _ (by decide)
  have hone : ((1 : Word) <<< (i % 32)) = BitVec.twoPow 32 (i % 32) := rfl
  unfold asidFree
  rw [asidUsed_iff, asidUsed_iff, Nat.shiftRight_eq_div_pow, show (31 : Nat) = 2 ^ 5 - 1 by decide,
    Nat.and_two_pow_sub_one_eq_mod, hone, Function.update_apply]
  split
  · rename_i hw
    have hw' : j / 32 = i / 32 := hw
    have hj : j % 32 < 32 := Nat.mod_lt _ (by decide)
    rw [BitVec.getLsbD_and, BitVec.getLsbD_not, BitVec.getLsbD_twoPow, ← hw', Bool.and_comm, decide_eq_true hj,
      decide_eq_true hlt, Bool.true_and, Bool.true_and]
    congr 1
    rw [← decide_not, decide_eq_decide]
    omega
  · rename_i hw
    have hw' : j / 32 ≠ i / 32 := hw
    rw [decide_eq_true (show j ≠ i by omega), Bool.true_and]

theorem envAlloc_asid {k k' : Kernel} {parentId : Word} {r : Except Int EnvIx} (h : envAlloc k parentId = (r, k')) :
    ((∃ i, r = .error i) ∧ k'.asidBitmap = k.asidBitmap ∧ k'.envFreeList = k.envFreeList ∧
      ∀ x, (k'.envs x).envAsid = (k.envs x).envAsid) ∨
    ∃ e i, r = .ok e ∧ k.envFreeList = e :: k'.envFreeList ∧ asidAlloc k.asidBitmap = some (i, k'.asidBitmap) ∧
      (k'.envs e).envAsid = BitVec.ofNat 32 i := by
  unfold envAlloc at h
  split at h
  · cases h
    exact .inl ⟨⟨_, rfl⟩, rfl, rfl, fun _ => rfl⟩
  · rename_i e rest hf
    split at h
    · cases h
      exact .inl ⟨⟨_, rfl⟩, rfl, rfl, fun _ => rfl⟩
    · rename_i k₁ hs
      obtain ⟨⟨pp, pm₁⟩, -, rfl⟩ := Option.map_eq_some_iff.1 hs
      dsimp only at h
      split at h
      · cases h
        refine .inl ⟨⟨_, rfl⟩, rfl, rfl, fun x => ?_⟩
        by_cases hx : x = e
        · rw [hx, Kernel.setEnv_self, Kernel.setEnv_self]
          rfl
        · simp only [Kernel.setEnv_ne _ _ hx, Kernel.setPm_envs]
      · rename_i i bitmap hal
        cases h
        refine .inr ⟨e, i, rfl, hf, hal, ?_⟩
        rw [Kernel.setEnv_self]

theorem envFree_leaves {k k' : Kernel} {e : EnvIx} (h : envFree k e = some k') :
    envFreePages (k.envs e).envPgdir (k.envs e).envAsid k.pm = some k'.pm ∧
    k'.asidBitmap = asidFree k.asidBitmap (k.envs e).envAsid.toNat ∧ k'.envFreeList = e :: k.envFreeList ∧
    k'.curenv = k.curenv ∧ k'.curPgdir = k.curPgdir ∧ (k'.envs e).envStatus = .free ∧ ∀ x, x ≠ e →
    k'.envs x = k.envs x := by
  unfold envFree at h
  obtain ⟨pm, hpm, hrest⟩ := Option.bind_eq_some_iff.1 h
  obtain ⟨q, -, rfl⟩ := Option.map_eq_some_iff.1 hrest
  have hother : ∀ x, x ≠ e →
      (Kernel.setEnv (k.setPm pm) e (fun v => { v with envStatus := .free })).envs x = k.envs x :=
    fun x hx => Kernel.setEnv_ne _ _ hx
  refine ⟨hpm, rfl, rfl, rfl, rfl, ?_, hother⟩
  have hself : ((Kernel.setEnv (k.setPm pm) e (fun v => { v with envStatus := .free })).envs e).envStatus = .free := by
    rw [Kernel.setEnv_self]
  exact hself

/-! ## Entry by entry -/

section Explicit

variable {p : Pmap} {d t : Nat} {va : Word}

theorem insert_empty (pp : Nat) (asid perm : Word) (ht : p.table (d, pdx va) = some t) (hlt : t < p.npage)
    (hf : p.frame (slotOf d va) = none) :
    pageInsert p d asid pp va perm =
      some (0, ((tlbInvalidate p asid va).setRef pp (p.ppRef pp + 1)).write (t, ptx va) (entryOf pp perm)) := by
  have hv : ¬valid (p.read (t, ptx va)) = true := by
    intro hv
    have hv' : valid (p.mem t (ptx va)) = true := hv
    rw [Pmap.frame, slotOf, pte_of_table ht, if_pos hv'] at hf
    cases hf
  have hw := Acct.walk_of_table (p := tlbInvalidate p asid va) ht hlt true
  unfold pageInsert pageInsertFresh
  rw [Acct.walk_of_table ht hlt]
  simp only [Option.bind_some, if_neg hv, hw, Option.map_some]
  rfl

theorem insert_newTable (pp : Nat) (asid perm : Word) {rest : List Nat} (ht : p.table (d, pdx va) = none)
    (hf : p.pageFreeList = t :: rest) (hlt : t < p.npage) (hnp : p.npage ≤ 2 ^ 20) :
    ∃ p', pageInsert p d asid pp va perm = some (0, p') ∧
      p'.npage = p.npage ∧ p'.pageFreeList = rest ∧ p'.tlb = (tlbInvalidate p asid va).tlb ∧
      p'.ppRef = Function.update (Function.update p.ppRef t 1) pp (Function.update p.ppRef t 1 pp + 1) ∧
      ∀ f i, p'.mem f i = if f = t ∧ i = ptx va then entryOf pp perm
        else if f = d ∧ i = pdx va then Acct.tableEntry t else if f = t then 0 else p.mem f i := by
  have hv : ¬valid (p.mem d (pdx va)) = true := by
    have hv := table_eq_none.1 ht
    rw [hv]
    exact Bool.false_ne_true
  have hppn : ppn (page2pa t ||| pteCCacheable ||| pteV) = t := Acct.ppn_tableEntry (Nat.lt_of_lt_of_le hlt hnp)
  have hf' : (tlbInvalidate p asid va).pageFreeList = t :: rest := hf
  have hv' : ¬valid ((tlbInvalidate p asid va).mem d (pdx va)) = true := hv
  have hwalk : ∃ q, pgdirWalk (tlbInvalidate p asid va) d va true = some (0, some (t, ptx va), q) ∧
      q = ({ tlbInvalidate p asid va with
        ppRef := Function.update p.ppRef t 1
        pageFreeList := rest
        mem := Function.update p.mem t (fun _ => 0) } : Pmap).write (d, pdx va) (Acct.tableEntry t) := by
    refine ⟨_, ?_, rfl⟩
    unfold pgdirWalk
    rw [if_neg hv', if_pos rfl]
    simp only [pageAlloc, hf']
    have hmem : ∀ q : Pmap, (q.write (d, pdx va) (page2pa t ||| pteCCacheable ||| pteV)).mem d (pdx va) =
        page2pa t ||| pteCCacheable ||| pteV := by
      intro q
      rw [write_mem, if_pos ⟨rfl, rfl⟩]
    have hk : ∀ q : Pmap, q.npage = p.npage → kaddr q (pteAddr (page2pa t ||| pteCCacheable ||| pteV)) = some t := by
      intro q hq
      unfold kaddr
      rw [ppn_pteAddr, hppn, hq, if_pos hlt]
    rw [hmem, hk]
    · rfl
    · rfl
  obtain ⟨q, hw, hq⟩ := hwalk
  refine ⟨(q.setRef pp (q.ppRef pp + 1)).write (t, ptx va) (entryOf pp perm), ?_, ?_, ?_, ?_, ?_, fun f i => ?_⟩
  · unfold pageInsert pageInsertFresh
    rw [Acct.walk_none ht]
    simp only [Option.bind_some, hw, Option.map_some]
    rfl
  · rw [hq]
    rfl
  · rw [hq]
    rfl
  · rw [hq]
    rfl
  · rw [hq]
    rfl
  · rw [write_mem]
    split
    · rfl
    · show q.mem f i = _
      rw [hq, write_mem]
      split
      · rfl
      · show Function.update p.mem t (fun _ => 0) f i = _
        rw [Function.update_apply]
        split <;> rfl

theorem remove_last {pp : Nat} (asid : Word) (ht : p.table (d, pdx va) = some t) (hlt : t < p.npage)
    (hf : p.frame (slotOf d va) = some pp) (hpp : pp < p.npage) (hr : p.ppRef pp = 1) : pageRemove p d asid va =
      some (tlbInvalidate (({ p.setRef pp 0 with pageFreeList := pp :: p.pageFreeList } : Pmap).write (t, ptx va) 0)
        asid va) := by
  rw [Pmap.frame, slotOf, pte_of_table ht] at hf
  split at hf
  · rename_i hv
    have hv' : valid (p.read (t, ptx va)) = true := hv
    have hppn : ppn (p.read (t, ptx va)) = pp := Option.some.inj hf
    unfold pageRemove pageLookup
    rw [Acct.walk_of_table ht hlt]
    simp only [Option.bind_some, if_pos hv', pa2page, hppn, if_pos hpp, Option.map_some]
    rw [Acct.decref_eq (by rw [hr]; decide), if_pos hr, hr]
    rfl
  · cases hf

end Explicit

/-! ## Runs -/

/-- The environment with the directory `d` lives under the id `a`. -/
def Kernel.owns (k : Kernel) (a : Word) (d : Nat) : Prop :=
  ∃ e, (k.envs e).envStatus ≠ .free ∧ (k.envs e).envAsid = a ∧ (k.envs e).envPgdir = d

/-- What else the kernel does does not concern the spaces and their ids. -/
structure SameIds (k k' : Kernel) : Prop where
  spaces : SameSpaces k k'
  asid : ∀ e, (k.envs e).envStatus ≠ .free → (k'.envs e).envAsid = (k.envs e).envAsid
  bitmap : k'.asidBitmap = k.asidBitmap
  freeList : k'.envFreeList = k.envFreeList
  dst : ∀ e, (k'.envs e).envIpcDstva < utop

inductive TlbOp where
  /-- `env_alloc`, whose caller gives the new environment a status. -/
  | envAlloc (parentId : Word) (status : EnvStatus)
  /-- `env_free`; the one that runs is no longer `curenv`. -/
  | envFree (e : EnvIx)
  | envRun (e : EnvIx)
  /-- `page_insert` of a page that `page_alloc` has just given. -/
  | allocInsert (e : EnvIx) (va perm : Word)
  /-- `page_insert` of a page that is mapped somewhere. -/
  | pageInsert (e : EnvIx) (pp : Nat) (va perm : Word)
  | pageRemove (e : EnvIx) (va : Word)
  /-- A TLB miss at `va`; the entry at `victim` gives way. -/
  | refill (va : Word) (victim : Nat)
  /-- Other code of the kernel leaves the state `k'`. -/
  | other (k' : Kernel)

namespace TlbOp

def step (k : Kernel) : TlbOp → Option Kernel
  | .envAlloc parentId status =>
    match Mos.envAlloc k parentId with
    | (.error _, k') => some k'
    | (.ok e, k') => some (k'.setEnv e (fun v => { v with envStatus := status }))
  | .envFree e => (Mos.envFree k e).map (fun k' => { k' with curenv := if k.curenv = some e then none else k.curenv })
  | .envRun e => Mos.envRun k e
  | .allocInsert e va perm =>
    match pageAlloc k.pm with
    | none => some k
    | some (pp, pm) => (Mos.pageInsert pm (k.envs e).envPgdir (k.envs e).envAsid pp va perm).map (fun r => k.setPm r.2)
  | .pageInsert e pp va perm =>
    (Mos.pageInsert k.pm (k.envs e).envPgdir (k.envs e).envAsid pp va perm).map (fun r => k.setPm r.2)
  | .pageRemove e va => (Mos.pageRemove k.pm (k.envs e).envPgdir (k.envs e).envAsid va).map k.setPm
  | .refill va victim => k.curenv.bind (fun c => (doTlbRefill k.pm k.curPgdir (k.envs c).envAsid va victim).map k.setPm)
  | .other k' => some k'

/-- **What the callers see to**: they work on live environments and on addresses below `UTOP`, and map pages that are
in use, with flags but without `PTE_G`. -/
def Allowed (k : Kernel) : TlbOp → Prop
  | .envAlloc _ status => status ≠ .free
  | .envFree e => (k.envs e).envStatus ≠ .free
  | .envRun _ => True
  | .allocInsert e va perm => (k.envs e).envStatus ≠ .free ∧ va < utop ∧ perm < 4096 ∧ perm &&& pteG = 0
  | .pageInsert e pp va perm => (k.envs e).envStatus ≠ .free ∧ va < utop ∧ perm < 4096 ∧ perm &&& pteG = 0 ∧
      ∃ e', (k.envs e').envStatus ≠ .free ∧ ∃ va' < utop, k.frameOf e' va' = some pp
  | .pageRemove e va => (k.envs e).envStatus ≠ .free ∧ va < utop
  | .refill _ _ => True
  | .other k' => SameIds k k' ∧ k'.curenv = k.curenv ∧ k'.curPgdir = k.curPgdir

/-- The counter of a page that is mapped once more does not overflow. -/
def Room (k : Kernel) : TlbOp → Prop
  | .pageInsert e pp va _ => k.frameOf e va = some pp ∨ k.pm.ppRef pp < 65535
  | _ => True

/-- The kernel after `env_init`. -/
def Fresh (k : Kernel) : Prop :=
  ∃ b pagesPa pm, Board.EnvsInKernel b ∧ mipsVmInit b = some (pagesPa, pm) ∧ envInit b pagesPa pm = some k

end TlbOp

/-- **The TLB is coherent**: live environments have ids of their own, which are those marked in `asid_bitmap`; a valid
half of an entry below `UTOP` is the entry in the table of the environment that lives under its id; and nothing is left
of an id that `env_alloc` gives out. -/
structure Coherent (k : Kernel) : Prop where
  distinct : ∀ e e', (k.envs e).envStatus ≠ .free → (k.envs e').envStatus ≠ .free →
    (k.envs e).envAsid = (k.envs e').envAsid → e = e'
  marked : ∀ i < nasid, asidUsed k.asidBitmap i = true ↔
    ∃ e, (k.envs e).envStatus ≠ .free ∧ (k.envs e).envAsid = BitVec.ofNat 32 i
  tlb : ∀ e, (k.envs e).envStatus ≠ .free → ∀ t ∈ k.pm.tlb, t.asid = (k.envs e).envAsid → ∀ odd, t.Maps odd →
    (k.pm.pte (slotOf (k.envs e).envPgdir (t.va odd))).map (fun w : Word => w >>> pteHardflagShift) = some (t.lo odd)
  recycled : ∀ parentId e k', envAlloc k parentId = (.ok e, k') → ∀ t ∈ k'.pm.tlb, t.asid = (k'.envs e).envAsid →
    ∀ odd, ¬t.Maps odd

namespace TlbOp

/-- What holds between two operations. -/
structure Inv (k : Kernel) : Prop where
  framed : ∃ g, Framed k g
  alive : k.procs.Alive
  asid : ∀ e, (k.envs e).envStatus ≠ .free → (k.envs e).envAsid.toNat < nasid
  distinct : ∀ e e', (k.envs e).envStatus ≠ .free → (k.envs e').envStatus ≠ .free →
    (k.envs e).envAsid = (k.envs e').envAsid → e = e'
  marked : ∀ i < nasid, asidUsed k.asidBitmap i = true ↔
    ∃ e, (k.envs e).envStatus ≠ .free ∧ (k.envs e).envAsid = BitVec.ofNat 32 i
  right : TlbRight k.owns k.pm

theorem asid_mask {a : Word} (h : a.toNat < nasid) : a &&& 0xFF = a := by
  apply BitVec.eq_of_toNat_eq
  have hmask : (0xFF : Word).toNat = 2 ^ 8 - 1 := by decide
  rw [BitVec.toNat_and, hmask, Nat.and_two_pow_sub_one_eq_mod]
  exact Nat.mod_eq_of_lt h

namespace Inv

variable {k k' : Kernel} {g : Ledger}

theorem owns_mem (hg : Framed k g) : ∀ a d, k.owns a d → d ∈ g.dirs := by
  rintro a d ⟨e, he, -, rfl⟩
  exact hg.mem he

theorem owns_one (h : Inv k) (hg : Framed k g) {e : EnvIx} (he : (k.envs e).envStatus ≠ .free) :
    ∀ a, k.owns a (k.envs e).envPgdir → a = (k.envs e).envAsid &&& 0xFF := by
  rintro a ⟨e', he', rfl, hd⟩
  rw [hg.inj e' e he' he hd, asid_mask (h.asid e he)]

/-- **An operation on the pages.** -/
theorem setPm (h : Inv k) {pm : Pmap} (hg : ∃ g, Framed (k.setPm pm) g) (hr : TlbRight k.owns pm) : Inv (k.setPm pm) :=
  ⟨hg, h.alive, h.asid, h.distinct, h.marked, hr⟩

theorem same (h : Inv k) (hs : SameIds k k') (hcur : ∀ c, k'.curenv = some c → k'.curPgdir = (k'.envs c).envPgdir)
    (hrun : ∀ c, k'.curenv = some c → (k'.envs c).envStatus ≠ .free) : Inv k' := by
  obtain ⟨g, hg⟩ := h.framed
  have hlive := hs.spaces.status
  refine ⟨⟨g, (hg.same hs.spaces hcur hs.dst).framed⟩, ⟨?_, fun e he => ?_, hrun⟩, fun e he => ?_,
    fun e e' he he' ha => ?_,
    fun i hi => ?_, ?_⟩
  · show k'.envFreeList.Nodup
    rw [hs.freeList]
    exact h.alive.nodup
  · have he' : e ∈ k.envFreeList := hs.freeList ▸ he
    by_contra hc
    exact (hlive e).1 hc (h.alive.free e he')
  · rw [hs.asid e ((hlive e).1 he)]
    exact h.asid e ((hlive e).1 he)
  · rw [hs.asid e ((hlive e).1 he), hs.asid e' ((hlive e').1 he')] at ha
    exact h.distinct e e' ((hlive e).1 he) ((hlive e').1 he') ha
  · rw [hs.bitmap, h.marked i hi]
    refine exists_congr (fun e => ?_)
    rw [hlive e]
    exact and_congr_right (fun he => by rw [hs.asid e he])
  · rw [hs.spaces.pm]
    intro t ht odd hm
    obtain ⟨d, ⟨e, he, ha, hd⟩, hlo⟩ := h.right t ht odd hm
    exact ⟨d, ⟨e, (hlive e).2 he, (hs.asid e he).trans ha, (hs.spaces.pgdir e he).trans hd⟩, hlo⟩

/-- **A page is mapped.** -/
theorem insert (h : Inv k) (hg : Framed k g) {e : EnvIx} {pp : Nat} {va perm : Word} {r : Int} {pm : Pmap}
    (he : (k.envs e).envStatus ≠ .free) (hva : va < utop) (hperm : perm < 4096) (hu : Acct.Usable utopEntries k.pm g pp)
    (hheld : g.held pp = 0) (hlt : k.frameOf e va = some pp ∨ k.pm.ppRef pp < 65535)
    (hi : Mos.pageInsert k.pm (k.envs e).envPgdir (k.envs e).envAsid pp va perm = some (r, pm)) : Inv (k.setPm pm) := by
  have hmask : pp ||| ppn perm = pp := by rw [Account.ppn_flags hperm, Nat.or_zero]
  refine h.setPm ?_ (h.right.purges
    (hg.sound.insert_purges (owns_mem hg) (h.owns_one hg he) (hg.mem he) hva hu hlt hmask hi))
  rcases hg.sound.insertPage (hg.mem he) hva hu hheld hlt hmask hi with ⟨-, -, -, hm⟩ | ⟨-, -, hm⟩
  · exact ⟨_, (hg.maps_nothing hm).framed⟩
  · exact ⟨_, (hg.maps he hm).framed⟩

theorem allocInsert (h : Inv k) {e : EnvIx} {va perm : Word} (ha : Allowed k (.allocInsert e va perm))
    (hs : step k (.allocInsert e va perm) = some k') : Inv k' := by
  obtain ⟨g, hg⟩ := h.framed
  obtain ⟨he, hva, hperm, -⟩ := ha
  simp only [step] at hs
  split at hs
  · cases hs
    exact h
  · rename_i pp pm hal
    obtain ⟨⟨r, pm'⟩, hi, rfl⟩ := Option.map_eq_some_iff.1 hs
    obtain ⟨-, -, -, hm⟩ := hg.sound.alloc hal
    have h₁ : Inv (k.setPm pm) := by
      refine h.setPm ⟨_, (hg.maps_nothing hm).framed⟩ (h.right.purges (.of_keeps (owns_mem hg) ?_ ?_))
      · exact .of_same (hg.sound.alloc_same hal)
      · rw [pageAlloc_tlb hal]
        exact fun _ ht => ht
    have hlimbo := Finset.mem_insert_self pp g.limbo
    have hr0 : pm.ppRef pp = 0 := (hm.sound.acct.limbo pp hlimbo).2
    exact h₁.insert (hg.maps_nothing hm).framed he hva hperm (hm.sound.acct.usable_of_limbo hlimbo)
      (hm.sound.acct.unref (hm.sound.acct.limbo pp hlimbo).1 hr0).2.2
      (.inr (by rw [Kernel.setPm_pm, hr0]; decide)) hi

theorem pageInsert (h : Inv k) {e : EnvIx} {pp : Nat} {va perm : Word} (ha : Allowed k (.pageInsert e pp va perm))
    (hroom : Room k (.pageInsert e pp va perm)) (hs : step k (.pageInsert e pp va perm) = some k') : Inv k' := by
  obtain ⟨g, hg⟩ := h.framed
  obtain ⟨he, hva, hperm, -, e', he', va', hva', hf⟩ := ha
  obtain ⟨⟨r, pm⟩, hi, rfl⟩ := Option.map_eq_some_iff.1 hs
  have hslot := slotOf_mem (hg.mem he') (pdx_lt_utop.2 hva')
  exact h.insert hg he hva hperm (hg.sound.acct.usable_of_frame hslot hf) (hg.sound.frame _ hslot pp hf) hroom hi

theorem pageRemove (h : Inv k) {e : EnvIx} {va : Word} (ha : Allowed k (.pageRemove e va))
    (hs : step k (.pageRemove e va) = some k') : Inv k' := by
  obtain ⟨g, hg⟩ := h.framed
  obtain ⟨he, hva⟩ := ha
  obtain ⟨pm, hr, rfl⟩ := Option.map_eq_some_iff.1 hs
  obtain ⟨hm, -⟩ := hg.sound.remove (hg.mem he) hva hr
  exact h.setPm ⟨g, (hg.maps_nothing hm).framed⟩
    (h.right.purges (hg.sound.remove_purges (owns_mem hg) (h.owns_one hg he) (hg.mem he) hva hr))

theorem refill (h : Inv k) {va : Word} {victim : Nat} (hs : step k (.refill va victim) = some k') : Inv k' := by
  obtain ⟨g, hg⟩ := h.framed
  obtain ⟨c, hc, hrest⟩ := Option.bind_eq_some_iff.1 hs
  obtain ⟨pm, hr, rfl⟩ := Option.map_eq_some_iff.1 hrest
  have hlive : (k.envs c).envStatus ≠ .free := h.alive.running c hc
  rw [hg.cur c hc] at hr
  obtain ⟨g', hm, -⟩ := hg.sound.refill (hg.mem hlive) hr
  refine h.setPm ⟨g', (hg.maps hlive hm).framed⟩ (hg.sound.refill_right (owns_mem hg) (hg.mem hlive) ?_ h.right hr)
  exact ⟨c, hlive, (asid_mask (h.asid c hlive)).symm, rfl⟩

theorem envRun (h : Inv k) {e : EnvIx} (hs : Mos.envRun k e = some k') : Inv k' := by
  obtain ⟨g, hg⟩ := h.framed
  obtain ⟨hspaces, hcur, hdst⟩ := envRun_spaces hs
  have hids : (∀ x, (k'.envs x).envAsid = (k.envs x).envAsid) ∧ k'.asidBitmap = k.asidBitmap ∧
      k'.envFreeList = k.envFreeList ∧ k'.curenv = some e ∧ (k.envs e).envStatus = .runnable := by
    unfold Mos.envRun at hs
    split at hs
    · rename_i hst
      cases hs
      have hsave : (∀ x, ((saveTf k).envs x).envAsid = (k.envs x).envAsid) ∧ (saveTf k).asidBitmap = k.asidBitmap ∧
          (saveTf k).envFreeList = k.envFreeList := by
        unfold saveTf
        split
        · exact ⟨fun x => k.setEnv_field _ x rfl, rfl, rfl⟩
        · exact ⟨fun _ => rfl, rfl, rfl⟩
      refine ⟨fun x => ?_, hsave.2.1, hsave.2.2, rfl, hst⟩
      have hfield : (((saveTf k).setEnv e (fun v => { v with envRuns := v.envRuns + 1 })).envs x).envAsid = _ :=
        Kernel.setEnv_field _ e x rfl
      exact hfield.trans (hsave.1 x)
    · cases hs
  obtain ⟨hasid, hbitmap, hfree, hrun, hst⟩ := hids
  refine h.same ⟨hspaces, fun x _ => hasid x, hbitmap, hfree, fun x => by rw [hdst x]; exact hg.dst x⟩
    hcur fun c hc => ?_
  obtain rfl : e = c := by simpa using hrun.symm.trans hc
  exact (hspaces.status e).2 (by rw [hst]; exact EnvStatus.noConfusion)

/-! ### Environments come and go -/

theorem allocated_right (h : Inv k) (hg : Framed k g) {e : EnvIx} {pp : Nat} {pm₁ : Pmap}
    (ha : Allocated k k' e pp pm₁) :
    k'.pm.tlb = k.pm.tlb ∧ TlbRight k.owns k'.pm := by
  have htlb : k'.pm.tlb = k.pm.tlb := by
    rw [ha.pm]
    show pm₁.tlb = k.pm.tlb
    exact pageAlloc_tlb ha.alloc
  refine ⟨htlb, h.right.purges (.of_keeps (owns_mem hg) ?_ fun t ht => htlb ▸ ht)⟩
  rw [ha.pm]
  exact hg.sound.setup_keeps ha.alloc

theorem unmarked (h : Inv k) {i : Nat} (hi : i < nasid) (hu : asidUsed k.asidBitmap i = false) :
    ∀ t ∈ k.pm.tlb, t.asid = BitVec.ofNat 32 i → ∀ odd, ¬t.Maps odd := by
  intro t ht ha odd hm
  obtain ⟨d, ⟨e, he, hae, -⟩, -⟩ := h.right t ht odd hm
  rw [(h.marked i hi).2 ⟨e, he, hae.trans ha⟩] at hu
  cases hu

/-- **`env_alloc` fails**, perhaps after it has set up a directory. -/
theorem allocFailed (h : Inv k) {parentId : Word} {i : Int} (hal : Mos.envAlloc k parentId = (.error i, k')) :
    Inv k' := by
  obtain ⟨g, hg⟩ := h.framed
  rcases envAlloc_inv hal with ⟨-, -, rfl⟩ | ⟨e, rest, pp, pm₁, hf, ha, -⟩
  · exact h
  · have hfree : (k.envs e).envStatus = .free := h.alive.free e (by rw [show k.procs.free = e :: rest from hf]; simp)
    obtain ⟨-, hbitmap, hlist, hasid⟩ | ⟨_, _, hr, -⟩ := envAlloc_asid hal
    · obtain ⟨g', hsh⟩ := hg.allocated_free ha hfree (fun hc => h.alive.running e hc hfree)
      have hstatus : ∀ x, (k'.envs x).envStatus = (k.envs x).envStatus := by
        intro x
        by_cases hx : x = e
        · rw [hx]
          exact ha.status
        · rw [ha.other x hx]
      refine ⟨⟨g', hsh.framed⟩, h.alive.congr hlist ha.curenv (funext hstatus), fun x hx => ?_, fun x y hx hy hxy => ?_,
        fun i hi => ?_, (h.allocated_right hg ha).2.mono ?_⟩
      · rw [hstatus x] at hx
        rw [hasid x]
        exact h.asid x hx
      · rw [hstatus] at hx hy
        rw [hasid, hasid] at hxy
        exact h.distinct x y hx hy hxy
      · rw [hbitmap, h.marked i hi]
        exact exists_congr fun x => by rw [hstatus, hasid]
      · rintro a d ⟨x, hx, rfl, rfl⟩
        have hxe : x ≠ e := fun hc => hx (hc ▸ hfree)
        exact ⟨x, by rwa [hstatus], hasid x, by rw [ha.other x hxe]⟩
    · cases hr

/-- **`env_alloc` takes the first slot of the free list**, and the first id that is not marked. -/
theorem allocTaken (h : Inv k) {k₁ : Kernel} {parentId : Word} {e : EnvIx} (hal : Mos.envAlloc k parentId = (.ok e, k₁))
    {status : EnvStatus} (hst : status ≠ .free) : Inv (k₁.setEnv e (fun v => { v with envStatus := status })) := by
  obtain ⟨g, hg⟩ := h.framed
  obtain ⟨⟨_, hr⟩, -⟩ | ⟨_, i, hr, hlist, hi, hasid⟩ := envAlloc_asid hal
  · cases hr
  obtain rfl := Except.ok.inj hr
  obtain ⟨_, hr, -⟩ | ⟨e', rest, pp, pm₁, hf, ha, hr⟩ := envAlloc_inv hal
  · cases hr
  rcases hr with ⟨_, hr⟩ | hr
  · cases hr
  obtain rfl := Except.ok.inj hr
  have hfree : (k.envs e).envStatus = .free := h.alive.free e (by rw [show k.procs.free = e :: rest from hf]; simp)
  obtain ⟨hi, hunused, hbitmap⟩ := asidUsed_alloc hi
  obtain ⟨g', hsh⟩ := hg.allocated_live ha hfree (fun hc => h.alive.running e hc hfree) (f := fun v =>
    { v with envStatus := status }) rfl hst rfl rfl
  generalize hk' : k₁.setEnv e (fun v => { v with envStatus := status }) = k' at hsh ⊢
  have hself : (k'.envs e).envStatus = status ∧ (k'.envs e).envAsid = BitVec.ofNat 32 i := by
    rw [← hk', Kernel.setEnv_self]
    exact ⟨rfl, hasid⟩
  have hother : ∀ x, x ≠ e → k'.envs x = k.envs x := by
    intro x hx
    rw [← hk', Kernel.setEnv_ne _ _ hx]
    exact ha.other x hx
  have hne : ∀ x, (k.envs x).envStatus ≠ .free → x ≠ e := fun x hx hc => hx (hc ▸ hfree)
  have hnew : ∀ x, (k.envs x).envStatus ≠ .free → (k.envs x).envAsid ≠ BitVec.ofNat 32 i := by
    intro x hx hc
    rw [(h.marked i hi).2 ⟨x, hx, hc⟩] at hunused
    cases hunused
  refine ⟨⟨g', hsh.framed⟩, ?_, fun x hx => ?_, fun x y hx hy hxy => ?_, fun j hj => ?_, ?_⟩
  · have hprocs : k.procs.free = e :: k₁.envFreeList := hlist
    refine (h.alive.alloc hprocs hst).congr (by rw [← hk']; rfl) (by rw [← hk']; exact ha.curenv) (funext fun x => ?_)
    show (k'.envs x).envStatus = _
    rw [Procs.setStatus_status]
    split
    · rename_i hx
      rw [hx]
      exact hself.1
    · rename_i hx
      rw [hother x hx]
      rfl
  · by_cases hxe : x = e
    · rw [hxe, hself.2, BitVec.toNat_ofNat]
      exact Nat.lt_of_le_of_lt (Nat.mod_le _ _) hi
    · rw [hother x hxe] at hx ⊢
      exact h.asid x hx
  · by_cases hxe : x = e
    · by_cases hye : y = e
      · rw [hxe, hye]
      · rw [hxe, hself.2, hother y hye] at hxy
        rw [hother y hye] at hy
        exact absurd hxy.symm (hnew y hy)
    · rw [hother x hxe] at hx hxy
      by_cases hye : y = e
      · rw [hye, hself.2] at hxy
        exact absurd hxy (hnew x hx)
      · rw [hother y hye] at hy hxy
        exact h.distinct x y hx hy hxy
  · have hbit : asidUsed k'.asidBitmap j = (decide (j = i) || asidUsed k.asidBitmap j) := by
      rw [← hk']
      exact hbitmap j
    rw [hbit, Bool.or_eq_true, decide_eq_true_eq, h.marked j hj]
    constructor
    · rintro (rfl | ⟨x, hx, hxa⟩)
      · exact ⟨e, by rw [hself.1]; exact hst, hself.2⟩
      · exact ⟨x, by rwa [hother x (hne x hx)], by rwa [hother x (hne x hx)]⟩
    · rintro ⟨x, hx, hxa⟩
      by_cases hxe : x = e
      · rw [hxe, hself.2] at hxa
        have hnat := congrArg BitVec.toNat hxa
        have hn : nasid = 256 := rfl
        rw [BitVec.toNat_ofNat, BitVec.toNat_ofNat] at hnat
        exact .inl (by omega)
      · rw [hother x hxe] at hx hxa
        exact .inr ⟨x, hx, hxa⟩
  · have hpm : k'.pm = k₁.pm := by
      rw [← hk']
      rfl
    rw [hpm]
    refine (h.allocated_right hg ha).2.mono ?_
    rintro a d ⟨x, hx, rfl, rfl⟩
    exact ⟨x, by rwa [hother x (hne x hx)], by rw [hother x (hne x hx)], by rw [hother x (hne x hx)]⟩

theorem envAlloc (h : Inv k) {parentId : Word} {status : EnvStatus} (hst : status ≠ .free)
    (hs : step k (.envAlloc parentId status) = some k') : Inv k' := by
  simp only [step] at hs
  split at hs
  · rename_i hal
    cases hs
    exact h.allocFailed hal
  · rename_i hal
    cases hs
    exact h.allocTaken hal hst

/-- **`env_free` gives the slot, the id and the space back.** -/
theorem envFree (h : Inv k) {e : EnvIx} (hlive : (k.envs e).envStatus ≠ .free) (hs : step k (.envFree e) = some k') :
    Inv k' := by
  obtain ⟨g, hg⟩ := h.framed
  simp only [step] at hs
  obtain ⟨k₁, hf, hk'⟩ := Option.map_eq_some_iff.1 hs
  obtain ⟨g', hsh⟩ := hg.free hlive hf
  obtain ⟨hpm, hbitmap, hlist, hrun, hdir, hself, hother⟩ := envFree_leaves hf
  have hright := hg.sound.freeSpace_right (owns_mem hg) (h.owns_one hg hlive) (hg.mem hlive) h.right hpm
  have hlive' : ∀ x, (k₁.envs x).envStatus ≠ .free ↔ x ≠ e ∧ (k.envs x).envStatus ≠ .free := by
    intro x
    constructor
    · intro hx
      have hxe : x ≠ e := fun hc => hx (hc ▸ hself)
      rw [hother x hxe] at hx
      exact ⟨hxe, hx⟩
    · rintro ⟨hxe, hx⟩
      rwa [hother x hxe]
  have hcur : ∀ c, k'.curenv = some c → c ≠ e ∧ k.curenv = some c := by
    intro c hc
    rw [← hk'] at hc
    dsimp only at hc
    split at hc
    · cases hc
    · rename_i hne
      exact ⟨fun hce => hne (hce ▸ hc), hc⟩
  have hsame : SameSpaces k₁ k' := by
    rw [← hk']
    exact .of_eq rfl rfl rfl
  have henvs : k'.envs = k₁.envs := by rw [← hk']
  refine ⟨⟨g', (hsh.framed.same hsame (fun c hc => ?_) ?_).framed⟩,
    ⟨?_, fun x hx => ?_, fun x hx => ?_⟩, ?_, ?_, ?_, ?_⟩
  · have hp : k'.curPgdir = k₁.curPgdir := by rw [← hk']
    rw [hp, hdir, henvs, hg.cur c (hcur c hc).2, hother c (hcur c hc).1]
  · rw [henvs]
    exact hsh.framed.dst
  · have hfl : k'.procs.free = e :: k.envFreeList := by
      rw [← hk']
      exact hlist
    rw [hfl]
    exact List.nodup_cons.2 ⟨fun he => hlive (h.alive.free e he), h.alive.nodup⟩
  · have hfl : x ∈ e :: k.envFreeList := by
      rw [← hk'] at hx
      exact hlist ▸ hx
    show (k'.envs x).envStatus = .free
    rw [henvs]
    by_cases hxe : x = e
    · rw [hxe, hself]
    · rw [hother x hxe]
      exact h.alive.free x ((List.mem_cons.1 hfl).resolve_left hxe)
  · show (k'.envs x).envStatus ≠ .free
    rw [henvs]
    exact (hlive' x).2 ⟨(hcur x hx).1, h.alive.running x (hcur x hx).2⟩
  · rw [henvs]
    intro x hx
    obtain ⟨hxe, hx⟩ := (hlive' x).1 hx
    rw [hother x hxe]
    exact h.asid x hx
  · rw [henvs]
    intro x y hx hy hxy
    obtain ⟨hxe, hx⟩ := (hlive' x).1 hx
    obtain ⟨hye, hy⟩ := (hlive' y).1 hy
    rw [hother x hxe, hother y hye] at hxy
    exact h.distinct x y hx hy hxy
  · have hb : k'.asidBitmap = k₁.asidBitmap := by rw [← hk']
    rw [henvs, hb, hbitmap]
    intro i hi
    rw [asidUsed_free, Bool.and_eq_true, decide_eq_true_eq, h.marked i hi]
    constructor
    · rintro ⟨hne, x, hx, hxa⟩
      have hxe : x ≠ e := by
        rintro rfl
        rw [hxa, BitVec.toNat_ofNat] at hne
        have hn : nasid = 256 := rfl
        omega
      exact ⟨x, (hlive' x).2 ⟨hxe, hx⟩, by rwa [hother x hxe]⟩
    · rintro ⟨x, hx, hxa⟩
      obtain ⟨hxe, hx⟩ := (hlive' x).1 hx
      rw [hother x hxe] at hxa
      refine ⟨?_, x, hx, hxa⟩
      rintro rfl
      rw [BitVec.ofNat_toNat, BitVec.setWidth_eq] at hxa
      exact hxe (h.distinct x e hx hlive hxa)
  · rw [hsame.pm]
    refine hright.mono ?_
    rintro a d ⟨⟨x, hx, rfl, rfl⟩, hd⟩
    have hxe : x ≠ e := fun hc => hd (by rw [hc])
    have hx' := (hlive' x).2 ⟨hxe, hx⟩
    rw [← hother x hxe]
    exact ⟨x, by rwa [henvs], by rw [henvs], by rw [henvs]⟩

/-- **One operation.** -/
theorem step (h : Inv k) {a : TlbOp} (ha : Allowed k a) (hroom : Room k a) (hs : TlbOp.step k a = some k') :
    Inv k' := by
  cases a with
  | envAlloc parentId status => exact h.envAlloc ha hs
  | envFree e => exact h.envFree ha hs
  | envRun e => exact h.envRun hs
  | allocInsert e va perm => exact h.allocInsert ha hs
  | pageInsert e pp va perm => exact h.pageInsert ha hroom hs
  | pageRemove e va => exact h.pageRemove ha hs
  | refill va victim => exact h.refill hs
  | other k₁ =>
    obtain ⟨hids, hcur, hdir⟩ := ha
    cases hs
    obtain ⟨g, hg⟩ := h.framed
    refine h.same hids (fun c hc => ?_) (fun c hc => ?_)
    · rw [hcur] at hc
      rw [hdir, hg.cur c hc, hids.spaces.pgdir c (h.alive.running c hc)]
    · rw [hcur] at hc
      exact (hids.spaces.status c).2 (h.alive.running c hc)

end Inv

/-! ### The first state -/

theorem mapSegment_tlb {p p' : Pmap} {d size : Nat} {asid pa va perm : Word}
    (h : mapSegment p d asid pa va size perm = some p') : ∀ t ∈ p'.tlb, t ∈ p.tlb := by
  unfold mapSegment at h
  split at h
  · cases h
  · generalize List.range (size / pageSize) = is at h
    induction is generalizing p with
    | nil =>
      cases h
      exact fun _ ht => ht
    | cons i is ih =>
      rw [List.foldlM_cons] at h
      obtain ⟨p₁, hstep, hrest⟩ := Option.bind_eq_some_iff.1 h
      obtain ⟨pp, -, hins⟩ := Option.bind_eq_some_iff.1 hstep
      obtain ⟨⟨r, p₂⟩, hi, rfl⟩ := Option.map_eq_some_iff.1 hins
      exact fun t ht => (pageInsert_tlb hi t (ih hrest t ht)).1

/-- **`env_init`** leaves nothing in the TLB. -/
theorem inv_fresh {k : Kernel} (h : Fresh k) : Inv k := by
  obtain ⟨b, pagesPa, pm, hb, hv, hk⟩ := h
  obtain ⟨hg, hcur⟩ := envInit_framed hb hv hk
  have hprocs := envInit_procs hk
  have hfree : ∀ e, (k.envs e).envStatus = .free := fun e => by
    show k.procs.status e = .free
    rw [hprocs]
  have halive : k.procs.Alive := by
    rw [hprocs]
    exact alive_init _
  have htlb₀ : pm.tlb = [] := by
    obtain ⟨⟨pages', freemem⟩, -, hp⟩ := Option.map_eq_some_iff.1 hv
    cases hp
    rfl
  obtain ⟨⟨base, pm₁⟩, ha, hk₁⟩ := Option.bind_eq_some_iff.1 hk
  obtain ⟨pm₃, hseg₁, hk₂⟩ := Option.bind_eq_some_iff.1 hk₁
  obtain ⟨pm₄, hseg₂, hk'⟩ := Option.map_eq_some_iff.1 hk₂
  have htlb : ∀ t ∈ k.pm.tlb, t ∈ pm.tlb := by
    intro t ht
    have hpm : k.pm = pm₄ := by rw [← hk']
    rw [hpm] at ht
    have ht₁ : t ∈ pm₁.tlb := mapSegment_tlb hseg₁ t (mapSegment_tlb hseg₂ t ht)
    rwa [pageAlloc_tlb ha] at ht₁
  have hbitmap : k.asidBitmap = fun _ => 0 := by rw [← hk']
  refine ⟨hg, halive, fun e he => absurd (hfree e) he, fun e e' he => absurd (hfree e) he,
    fun i _ => ?_, fun t ht => ?_⟩
  · constructor
    · intro hu
      rw [hbitmap, asidUsed_iff] at hu
      simp at hu
    · rintro ⟨e, he, -⟩
      exact absurd (hfree e) he
  · have hnil := htlb t ht
    rw [htlb₀] at hnil
    cases hnil

theorem Inv.coherent {k : Kernel} (h : Inv k) : Coherent k := by
  refine ⟨h.distinct, h.marked, ?_, ?_⟩
  · intro e he t ht ha odd hm
    obtain ⟨d, ⟨e', he', ha', rfl⟩, hlo⟩ := h.right t ht odd hm
    obtain rfl := h.distinct e' e he' he (ha'.trans ha)
    exact hlo
  · intro parentId e k' hal
    obtain ⟨g, hg⟩ := h.framed
    obtain ⟨⟨_, hr⟩, -⟩ | ⟨_, i, hr, -, hi, hasid⟩ := envAlloc_asid hal
    · cases hr
    obtain rfl := Except.ok.inj hr
    obtain ⟨hlt, hunused, -⟩ := asidUsed_alloc hi
    obtain ⟨_, hr, -⟩ | ⟨e', rest, pp, pm₁, -, ha, -⟩ := envAlloc_inv hal
    · cases hr
    rw [(h.allocated_right hg ha).1, hasid]
    exact h.unmarked hlt hunused

theorem inv_run (k : Kernel) (h : Run Fresh step (fun k a => Allowed k a ∧ Room k a) k) : Inv k :=
  Run.invariant Inv (fun _ => inv_fresh) (fun _ _ _ hinv hok hs => hinv.step hok.1 hok.2 hs) k h

/-- **The TLB is coherent after every run** in which no counter of a page overflows. -/
theorem tlb_coherent (k : Kernel) (h : Run Fresh step (fun k a => Allowed k a ∧ Room k a) k) : Coherent k :=
  (inv_run k h).coherent

/-- A check that implies the guard, for pages that are mapped once. -/
def allowedB (k : Kernel) : TlbOp → Bool
  | .envAlloc _ status => decide (status ≠ .free)
  | .envRun _ => true
  | .allocInsert e va perm =>
    decide ((k.envs e).envStatus ≠ .free ∧ va < utop ∧ perm < 4096 ∧ perm &&& pteG = 0)
  | .refill _ _ => true
  | _ => false

theorem allowed_of_allowedB (k : Kernel) (a : TlbOp) (h : allowedB k a = true) : Allowed k a ∧ Room k a := by
  cases a with
  | envAlloc parentId status =>
    have hst : status ≠ .free := of_decide_eq_true h
    exact ⟨hst, trivial⟩
  | envRun e => exact ⟨trivial, trivial⟩
  | allocInsert e va perm =>
    have hok : (k.envs e).envStatus ≠ .free ∧ va < utop ∧ perm < 4096 ∧ perm &&& pteG = 0 := of_decide_eq_true h
    exact ⟨hok, trivial⟩
  | refill va victim => exact ⟨trivial, trivial⟩
  | _ => cases h

theorem fresh_small (k : Kernel) (h : ((mipsVmInit smallBoard).bind (fun q => envInit smallBoard q.1 q.2)) = some k) :
    Fresh k := by
  obtain ⟨⟨pages, pm⟩, hv, hk⟩ := Option.bind_eq_some_iff.1 h
  refine ⟨smallBoard, pages, pm, ?_, hv, hk⟩
  unfold Board.EnvsInKernel
  decide

/-- Two environments with a page at one address; the TLB has the page of the one that runs. -/
theorem tlb_coherent_two : ∃ k : Kernel, (k.pm.tlb.length = 1 ∧ (k.envs 1).envAsid = 1) ∧ Coherent k := by
  obtain ⟨k, hr, hk⟩ := @Run.exists_of_exec Kernel TlbOp Fresh step (fun k a => Allowed k a ∧ Room k a) allowedB
    allowed_of_allowedB
    [.envAlloc 0 .runnable, .envAlloc 0 .runnable, .allocInsert 0 0x400000 pteD,
      .allocInsert 1 0x400000 pteD, .envRun 1,
      .refill 0x400000 0]
    _ fresh_small (fun k => decide (k.pm.tlb.length = 1 ∧ (k.envs 1).envAsid = 1)) (by decide +kernel)
  exact ⟨k, of_decide_eq_true hk, tlb_coherent k hr⟩

/-! ## Once too often

The environment maps the page 1273 at `0x401000` and then at the pages from `0x800000` on. -/

/-- The page is mapped at `n` of these pages. -/
structure Packed (n : Nat) (k : Kernel) : Prop where
  inv : Inv k
  cur : k.curenv = some 0
  asid : (k.envs 0).envAsid = 0
  pgdir : (k.envs 0).envPgdir = 1276
  page : ∀ i < 65536, k.frameOf 0 (crowdVa i) = if i < n then some 1273 else none
  home : ∀ j < 4, k.frameAt 0 1 j = if j = 0 then some 1275 else if j = 1 then some 1273 else none
  ref : k.pm.ppRef 1273 = BitVec.ofNat 16 (n + 1)
  table : ∀ i, i * 1024 < n → k.pm.table (1276, 2 + i) ≠ none
  npage : k.pm.npage = 1280
  table₁ : k.pm.table (1276, 1) = some 1274
  far : k.pm.table (1276, 100) = none
  room : 64 ≤ (n + 1023) / 1024 + k.pm.pageFreeList.length

theorem insertFresh_dir {p p' : Pmap} {d pp : Nat} {asid va perm : Word} {r : Int} (hnp : p.npage ≤ 2 ^ 20)
    (hd : d ∉ p.pageFreeList) (hfree : ∀ f ∈ p.pageFreeList, f < p.npage) (ht : p.table (d, pdx va) ≠ some d)
    (h : pageInsertFresh p d asid pp va perm = some (r, p')) {i : Nat} (hi : i ≠ pdx va) : p'.mem d i = p.mem d i := by
  obtain ⟨⟨c, e, q⟩, hw, he⟩ := Option.map_eq_some_iff.1 h
  have hq : q.mem d i = p.mem d i ∧ ∀ e', e = some e' → e'.1 ≠ d := by
    unfold pgdirWalk at hw
    split at hw
    · rename_i hv
      obtain ⟨t, hk, hq⟩ := Option.map_eq_some_iff.1 hw
      obtain ⟨-, rfl, rfl⟩ : 0 = c ∧ some (t, ptx va) = e ∧ tlbInvalidate p asid va = q := by simpa using hq
      refine ⟨rfl, fun e' he' => ?_⟩
      cases he'
      rintro rfl
      refine ht ?_
      have hv' : valid (p.mem t (pdx va)) = true := hv
      unfold kaddr at hk
      split at hk
      · rw [ppn_pteAddr] at hk
        unfold Pmap.table
        rw [if_pos hv']
        exact hk
      · cases hk
    · rw [if_pos rfl] at hw
      cases hf : p.pageFreeList with
      | nil =>
        have hf' : (tlbInvalidate p asid va).pageFreeList = [] := hf
        simp only [pageAlloc, hf'] at hw
        cases hw
        exact ⟨rfl, fun e' he' => by cases he'⟩
      | cons t rest =>
        have hf' : (tlbInvalidate p asid va).pageFreeList = t :: rest := hf
        have hmem : t ∈ p.pageFreeList := by
          rw [hf]
          exact List.mem_cons_self
        have hdt : d ≠ t := fun hc => hd (hc ▸ hmem)
        have hppn : ppn (page2pa t ||| pteCCacheable ||| pteV) = t :=
          Acct.ppn_tableEntry (Nat.lt_of_lt_of_le (hfree t hmem) hnp)
        simp only [pageAlloc, hf'] at hw
        obtain ⟨t', hk, hq⟩ := Option.map_eq_some_iff.1 hw
        obtain ⟨-, rfl, rfl⟩ := Prod.mk.inj hq |>.imp_right Prod.mk.inj
        constructor
        · show Function.update (Function.update p.mem t fun _ => 0) d (Function.update _ (pdx va) _) d i = _
          rw [Function.update_self, Function.update_of_ne hi]
          exact congrFun (Function.update_of_ne hdt _ _) i
        · intro e' he'
          cases he'
          unfold kaddr at hk
          split at hk
          · rw [ppn_pteAddr] at hk
            have hk' : ppn (Function.update (Function.update p.mem t fun _ => 0) d
              (Function.update _ (pdx va) (page2pa t ||| pteCCacheable ||| pteV)) d (pdx va)) = t' := Option.some.inj hk
            rw [Function.update_self, Function.update_self, hppn] at hk'
            exact fun hc => hdt (hk'.trans hc).symm
          · cases hk
  cases e with
  | none =>
    cases he
    exact hq.1
  | some e =>
    cases he
    rw [← hq.1]
    exact write_mem_ne (q.setRef pp (q.ppRef pp + 1)) (Ne.symm (hq.2 e rfl)) ▸ rfl

/-- The address of a page of the table where the page 1273 was mapped first. -/
def homeVa (j : Nat) : Word := BitVec.ofNat 32 (0x400000 + j * 4096)

/-- The page is mapped once more. -/
def packOp (n : Nat) : TlbOp := .pageInsert 0 1273 (crowdVa n) pteD

theorem homeVa_slot (d : Nat) : ∀ j < 4, homeVa j < utop ∧ slotOf d (homeVa j) = (d, 1, j) := by
  intro j hj
  have hfields : ∀ j < 4, homeVa j < utop ∧ pdx (homeVa j) = 1 ∧ ptx (homeVa j) = j := by decide
  obtain ⟨hlt, hd, ht⟩ := hfields j hj
  refine ⟨hlt, ?_⟩
  unfold slotOf
  rw [hd, ht]

namespace Packed

variable {n : Nat} {k : Kernel}

theorem live (h : Packed n k) : (k.envs 0).envStatus ≠ .free := h.inv.alive.running 0 h.cur

theorem mapped (h : Packed n k) : k.frameOf 0 (homeVa 1) = some 1273 := by
  have hhome := h.home 1 (by decide)
  unfold Kernel.frameOf
  rw [(homeVa_slot _ 1 (by decide)).2]
  exact hhome

theorem allowed (h : Packed n k) (hn : n < 65536) : Allowed k (packOp n) :=
  ⟨h.live, (crowdVa_legal hn).2, by decide, by decide, 0, h.live, homeVa 1, (homeVa_slot 0 1 (by decide)).1, h.mapped⟩

theorem step (h : Packed n k) (hn : n < 65534) : ∃ k', TlbOp.step k (packOp n) = some k' ∧ Packed (n + 1) k' := by
  obtain ⟨g, hg⟩ := h.inv.framed
  have hd := hg.mem h.live
  have hva := (crowdVa_legal (i := n) (by omega)).2
  have hva' := pdx_lt_utop.2 hva
  obtain ⟨hpn, htn⟩ := crowdVa_fields (i := n) (by omega)
  have hhome := slotOf_mem hd (pdx_lt_utop.2 (homeVa_slot 0 1 (by decide)).1)
  have hu : Acct.Usable utopEntries k.pm g 1273 := hg.sound.acct.usable_of_frame hhome h.mapped
  have hnone : k.pm.frame (slotOf (k.envs 0).envPgdir (crowdVa n)) = none := by
    have := h.page n (by omega)
    rwa [if_neg (by omega)] at this
  have href : k.pm.ppRef 1273 < 65535 := by
    rw [h.ref, BitVec.lt_def, BitVec.toNat_ofNat]
    show (n + 1) % 65536 < 65535
    omega
  have hperm : 1273 ||| ppn pteD = 1273 := by decide
  rcases hg.sound.acct.insertPage hd hva' (k.envs 0).envAsid hu (.inr href) hperm with ⟨ht, hf, -⟩ | ⟨p', hins, hi⟩
  · -- there is memory for the table
    have hroom := h.room
    rw [hf, List.length_nil] at hroom
    rw [hpn, h.pgdir] at ht
    exact absurd ht (h.table _ (by omega))
  · have hfresh := (hg.sound.acct.insert_unmapped hd hva' hnone).symm.trans hins
    have hcounts := insertFresh_counts hu.notFree hfresh
    have hstep : TlbOp.step k (packOp n) = some (k.setPm p') := by
      simp only [packOp, TlbOp.step, hins, Option.map_some]
    have hinv := h.inv.step (h.allowed (by omega)) (.inr href) hstep
    have hframe : ∀ s ∈ pageSlots utopEntries g.dirs, p'.frame s =
        if s = slotOf (k.envs 0).envPgdir (crowdVa n) then some 1273 else k.pm.frame s := by
      intro s hs
      have hppn : ppn (entryOf 1273 pteD) = 1273 := by decide
      rw [Pmap.frame, hi.pte s hs]
      split
      · rw [Option.map_some, hppn]
      · rfl
    -- no other table comes or goes
    have htable : ∀ i, i ≠ 2 + n / 1024 → p'.table (1276, i) = k.pm.table (1276, i) := by
      intro i hi₁
      have hfree : (k.envs 0).envPgdir ∉ k.pm.pageFreeList := fun hc =>
        (hg.sound.acct.unref (hg.sound.acct.of_free hc).1 (hg.sound.acct.of_free hc).2.1).1.dir hd
      have hself : k.pm.table ((k.envs 0).envPgdir, pdx (crowdVa n)) ≠ some (k.envs 0).envPgdir := fun hc =>
        hg.sound.acct.tree.table_dir _ (mem_tableSlots.2 ⟨hd, hva'⟩) _ hc hd
      have hmem := insertFresh_dir hg.sound.acct.npage_le hfree (fun f hf => (hg.sound.acct.of_free hf).1) hself hfresh
        (hpn.symm ▸ hi₁)
      rw [h.pgdir] at hmem
      unfold Pmap.table
      dsimp only
      rw [hmem]
    refine ⟨_, hstep, hinv, h.cur, h.asid, h.pgdir, ?_, ?_, ?_, ?_, ?_, ?_, ?_, ?_⟩
    · intro i hi₁
      obtain ⟨hpi, hti⟩ := crowdVa_fields hi₁
      refine (hframe _ (slotOf_mem hd (pdx_lt_utop.2 (crowdVa_legal hi₁).2))).trans ?_
      have hold := h.page i hi₁
      unfold Kernel.frameOf at hold
      rw [hold]
      unfold slotOf
      rw [hpi, hti, hpn, htn]
      by_cases hin : i = n
      · rw [hin, if_pos rfl, if_pos (Nat.lt_succ_self n)]
      · rw [if_neg (fun hc => by
          obtain ⟨h₁, h₂⟩ := Prod.mk.inj (Prod.mk.inj hc).2
          omega)]
        by_cases hlt : i < n
        · rw [if_pos hlt, if_pos (by omega)]
        · rw [if_neg hlt, if_neg (by omega)]
    · intro j hj
      have hslot : ((k.envs 0).envPgdir, 1, j) ∈ pageSlots utopEntries g.dirs := by
        rw [← (homeVa_slot _ j hj).2]
        exact slotOf_mem hd (pdx_lt_utop.2 (homeVa_slot 0 j hj).1)
      refine (hframe _ hslot).trans ?_
      rw [if_neg (fun hc => by
        obtain ⟨h₁, -⟩ := Prod.mk.inj (Prod.mk.inj hc).2
        omega)]
      exact h.home j hj
    · show p'.ppRef 1273 = _
      rw [hcounts.1, h.ref]
      exact (BitVec.ofNat_add (n + 1) 1).symm
    · intro i hi₁
      show p'.table (1276, 2 + i) ≠ none
      by_cases hin : i = n / 1024
      · -- the table of the new page
        have hp := hi.pte _ (slotOf_mem hd hva')
        rw [if_pos rfl] at hp
        obtain ⟨t, ht, -⟩ := table_of_pte hp
        have ht' : p'.table ((k.envs 0).envPgdir, pdx (crowdVa n)) = some t := ht
        rw [hin, ← hpn, ← h.pgdir, ht']
        simp
      · have hold := h.table i (by omega)
        unfold Pmap.table at hold ⊢
        dsimp only at hold ⊢
        rcases hi.dir _ hd (2 + i) with hm | ⟨-, t, hm⟩
        · rw [← h.pgdir, hm, h.pgdir]
          exact hold
        · rw [← h.pgdir, hm, if_pos (show valid (Acct.tableEntry t) = true from valid_or_pteV _)]
          simp
    · exact hi.npage.trans h.npage
    · exact (htable 1 (by omega)).trans h.table₁
    · exact (htable 100 (by omega)).trans h.far
    · show 64 ≤ (n + 1 + 1023) / 1024 + p'.pageFreeList.length
      have hroom := h.room
      have hle := hcounts.2
      rw [hpn, h.pgdir] at hle
      by_cases hfirst : n % 1024 = 0
      · split at hle <;> omega
      · rw [if_neg (h.table _ (by omega))] at hle
        omega

end Packed

theorem packed_run {k₀ : Kernel} (hr : Run Fresh step Allowed k₀) (h : Packed 0 k₀) :
    ∀ n ≤ 65534, ∃ k, Run Fresh step Allowed k ∧ Packed n k
  | 0, _ => ⟨k₀, hr, h⟩
  | n + 1, hn => by
    obtain ⟨k, hrk, hk⟩ := packed_run hr h n (Nat.le_of_succ_le hn)
    obtain ⟨k', hs, hk'⟩ := hk.step (by omega)
    exact ⟨k', .next k _ k' hrk (hk.allowed (by omega)) hs, hk'⟩

/-- The counter of the page 1273 has wrapped: it is `r`, and the page is mapped at the pages from 1 to `n` of its first
table and at others. -/
structure Wrapping (k : Kernel) (far : Option Nat) (r : BitVec 16) (n : Nat) : Prop where
  cur : k.curenv = some 0
  curPgdir : k.curPgdir = 1276
  live : (k.envs 0).envStatus ≠ .free
  asid : (k.envs 0).envAsid = 0
  pgdir : (k.envs 0).envPgdir = 1276
  npage : k.pm.npage = 1280
  table : k.pm.table (1276, 1) = some 1274
  home : ∀ j < 4, k.pm.frame (1276, 1, j) = if j = 0 then some 1275 else if j ≤ n then some 1273 else none
  far : k.pm.table (1276, 100) = far
  ref : k.pm.ppRef 1273 = r

theorem frame_home {p : Pmap} (h : p.table (1276, 1) = some 1274) (j : Nat) :
    p.frame (1276, 1, j) = if valid (p.mem 1274 j) then some (ppn (p.mem 1274 j)) else none := by
  rw [Pmap.frame, pte_of_table h]
  split <;> rfl

/-- An address whose table is missing. -/
def farVa : Word := 0x19000000

/-- The entry that a refill at `farVa` makes. -/
def farEntry : TlbEntry := ⟨farVa, entryOf 1275 pteD >>> pteHardflagShift, 0⟩

namespace Wrapping

variable {k : Kernel} {far : Option Nat} {r : BitVec 16} {n : Nat}

theorem of_packed (h : Packed 65534 k) : Wrapping k none 65535 1 := by
  obtain ⟨g, hg⟩ := h.inv.framed
  have hd := hg.mem h.live
  have hhome : ∀ j < 4, k.pm.frame (1276, 1, j) = if j = 0 then some 1275 else if j ≤ 1 then some 1273 else none := by
    intro j hj
    have hj' := h.home j hj
    unfold Kernel.frameAt at hj'
    rw [h.pgdir] at hj'
    rw [hj']
    by_cases h0 : j = 0
    · rw [if_pos h0, if_pos h0]
    · rw [if_neg h0, if_neg h0]
      by_cases h1 : j = 1
      · rw [if_pos h1, if_pos (by omega)]
      · rw [if_neg h1, if_neg (by omega)]
  exact ⟨h.cur, (hg.cur 0 h.cur).trans h.pgdir, h.live, h.asid, h.pgdir, h.npage, h.table₁, hhome, h.far, h.ref⟩

theorem home_write {p q : Pmap} (ht : p.table (1276, 1) = some 1274) (hq : q.mem = p.mem) (j : Nat) (w : Word) :
    (∀ i, (q.write (1274, j) w).table (1276, i) = p.table (1276, i)) ∧
    ∀ i, (q.write (1274, j) w).frame (1276, 1, i) =
      if i = j then (if valid w then some (ppn w) else none) else p.frame (1276, 1, i) := by
  have htable : ∀ i, (q.write (1274, j) w).table (1276, i) = p.table (1276, i) := by
    intro i
    rw [table_write, if_neg (fun hc => absurd (Prod.mk.inj hc).1 (by decide))]
    unfold Pmap.table
    rw [hq]
  refine ⟨htable, fun i => ?_⟩
  rw [frame_home ((htable 1).trans ht), frame_home ht, write_mem, hq]
  by_cases hi : i = j
  · have hc : 1274 = (1274, j).1 ∧ i = (1274, j).2 := ⟨rfl, hi⟩
    rw [if_pos hi, if_pos hc]
  · have hc : ¬(1274 = (1274, j).1 ∧ i = (1274, j).2) := fun hc => hi hc.2
    rw [if_neg hi, if_neg hc]

theorem slot (h : Wrapping k far r n) {j : Nat} (hj : j < 4) :
    homeVa j < utop ∧ pdx (homeVa j) = 1 ∧ ptx (homeVa j) = j ∧
    k.frameOf 0 (homeVa j) = if j = 0 then some 1275 else if j ≤ n then some 1273 else none := by
  have hslot := (homeVa_slot 1276 j hj).2
  refine ⟨(homeVa_slot 0 j hj).1, congrArg (fun s => s.2.1) hslot, congrArg (fun s => s.2.2) hslot, ?_⟩
  unfold Kernel.frameOf
  rw [h.pgdir, hslot]
  exact h.home j hj

/-- **The page is mapped once more**, and its counter does not count. -/
theorem insert (h : Wrapping k far r n) (h1 : 1 ≤ n) (hn : n + 1 < 4) : ∃ k',
    step k (.pageInsert 0 1273 (homeVa (n + 1)) pteD) = some k' ∧ Allowed k (.pageInsert 0 1273 (homeVa (n + 1)) pteD) ∧
    Wrapping k' far (r + 1) (n + 1) := by
  obtain ⟨hva, hpd, hpt, hf⟩ := h.slot hn
  rw [if_neg (Nat.succ_ne_zero n), if_neg (by omega)] at hf
  obtain ⟨hva₁, -, -, hf₁⟩ := h.slot (j := 1) (by decide)
  rw [if_neg (by decide), if_pos h1] at hf₁
  have ht : k.pm.table ((k.envs 0).envPgdir, pdx (homeVa (n + 1))) = some 1274 := by
    rw [h.pgdir, hpd]
    exact h.table
  have hins := insert_empty 1273 (k.envs 0).envAsid pteD ht (by rw [h.npage]; decide) hf
  rw [hpt, h.ref] at hins
  refine ⟨_, by simp only [step, hins, Option.map_some]; rfl,
    ⟨h.live, hva, by decide, by decide, 0, h.live, _, hva₁, hf₁⟩, ?_⟩
  have hentry : valid (entryOf 1273 pteD) = true ∧ ppn (entryOf 1273 pteD) = 1273 := by decide
  obtain ⟨htable, hframe⟩ :=
    home_write (q := (tlbInvalidate k.pm (k.envs 0).envAsid (homeVa (n + 1))).setRef 1273 (r + 1))
    h.table rfl (n + 1) (entryOf 1273 pteD)
  refine ⟨h.cur, h.curPgdir, h.live, h.asid, h.pgdir, h.npage, (htable 1).trans h.table, fun j hj => ?_,
    (htable 100).trans h.far, Function.update_self 1273 _ k.pm.ppRef⟩
  refine (hframe j).trans ?_
  rw [h.home j hj, if_pos hentry.1, hentry.2]
  by_cases hjn : j = n + 1
  · rw [if_pos hjn, if_neg (by omega), if_pos (by omega)]
  · rw [if_neg hjn]
    by_cases hle : j ≤ n
    · rw [if_pos hle, if_pos (show j ≤ n + 1 by omega)]
    · rw [if_neg hle, if_neg (show ¬j ≤ n + 1 by omega)]

/-- **The last reference goes**, and the page is free where it is mapped. -/
theorem remove (h : Wrapping k far 1 (n + 1)) (h1 : 1 ≤ n) (hn : n + 1 < 4) : ∃ k',
    step k (.pageRemove 0 (homeVa (n + 1))) = some k' ∧ Allowed k (.pageRemove 0 (homeVa (n + 1))) ∧
    Wrapping k' far 0 n ∧ k'.pm.pageFreeList = 1273 :: k.pm.pageFreeList ∧ k'.pm.mem 1273 = k.pm.mem 1273 ∧
    k'.pm.tlb = (tlbInvalidate k.pm 0 (homeVa (n + 1))).tlb := by
  obtain ⟨hva, hpd, hpt, hf⟩ := h.slot hn
  rw [if_neg (Nat.succ_ne_zero n), if_pos (Nat.le_refl _)] at hf
  have ht : k.pm.table ((k.envs 0).envPgdir, pdx (homeVa (n + 1))) = some 1274 := by
    rw [h.pgdir, hpd]
    exact h.table
  have hrem := remove_last (k.envs 0).envAsid ht (by rw [h.npage]; decide) hf (by rw [h.npage]; decide) h.ref
  rw [hpt, h.asid] at hrem
  have hzero : ¬valid 0 = true := by decide
  obtain ⟨htable, hframe⟩ := home_write
    (q := { k.pm.setRef 1273 0 with pageFreeList := 1273 :: k.pm.pageFreeList }) h.table rfl (n + 1) 0
  refine ⟨_, by simp only [step, h.asid, hrem, Option.map_some]; rfl, ⟨h.live, hva⟩, ?_, rfl, ?_, rfl⟩
  · refine ⟨h.cur, h.curPgdir, h.live, h.asid, h.pgdir, h.npage, (htable 1).trans h.table, fun j hj => ?_,
      (htable 100).trans h.far, Function.update_self 1273 _ k.pm.ppRef⟩
    refine (hframe j).trans ?_
    rw [h.home j hj, if_neg hzero]
    by_cases hjn : j = n + 1
    · rw [if_pos hjn, if_neg (by omega), if_neg (by omega)]
    · rw [if_neg hjn]
      by_cases hle : j ≤ n
      · rw [if_pos hle, if_pos (show j ≤ n + 1 by omega)]
      · rw [if_neg hle, if_neg (show ¬j ≤ n + 1 by omega)]
  · have hne : 1273 ≠ ((1274, n + 1) : PtePtr).1 := show 1273 ≠ 1274 by decide
    exact write_mem_ne (w := 0) { k.pm.setRef 1273 0 with pageFreeList := 1273 :: k.pm.pageFreeList } hne

/-- **The page becomes the table of `farVa`.** -/
theorem insertFar (h : Wrapping k none 0 n) {rest : List Nat} (hfree : k.pm.pageFreeList = 1273 :: rest) : ∃ k',
    step k (.pageInsert 0 1275 farVa pteD) = some k' ∧ Allowed k (.pageInsert 0 1275 farVa pteD) ∧
    Wrapping k' (some 1273) 1 n ∧ k'.pm.mem 1273 0 = entryOf 1275 pteD ∧ k'.pm.mem 1273 1 = 0 := by
  obtain ⟨hva₀, -, -, hf₀⟩ := h.slot (j := 0) (by decide)
  rw [if_pos rfl] at hf₀
  have hpd : pdx farVa = 100 := by decide
  have hpt : ptx farVa = 0 := by decide
  have ht : k.pm.table ((k.envs 0).envPgdir, pdx farVa) = none := by
    rw [h.pgdir, hpd]
    exact h.far
  obtain ⟨p', hins, hn, -, -, href, hm⟩ := insert_newTable 1275 (k.envs 0).envAsid pteD ht hfree
    (by rw [h.npage]; decide) (by rw [h.npage]; decide)
  rw [h.pgdir, hpd, hpt] at hm
  have hdir : ∀ i, p'.mem 1276 i = if i = 100 then Acct.tableEntry 1273 else k.pm.mem 1276 i := by
    intro i
    rw [hm, if_neg (fun hc => absurd hc.1 (by decide))]
    by_cases hi : i = 100
    · rw [if_pos ⟨rfl, hi⟩, if_pos hi]
    · rw [if_neg (fun hc => hi hc.2), if_neg (by decide), if_neg hi]
  have htab : p'.mem 1274 = k.pm.mem 1274 := by
    funext i
    rw [hm, if_neg (fun hc => absurd hc.1 (by decide)), if_neg (fun hc => absurd hc.1 (by decide)), if_neg (by decide)]
  have ht₁ : p'.table (1276, 1) = some 1274 := by
    have hold := h.table
    unfold Pmap.table at hold ⊢
    dsimp only at hold ⊢
    rwa [hdir 1, if_neg (show ¬1 = 100 by decide)]
  refine ⟨k.setPm p', by simp only [step, hins, Option.map_some],
    ⟨h.live, by decide, by decide, by decide, 0, h.live, _, hva₀, hf₀⟩,
    ⟨h.cur, h.curPgdir, h.live, h.asid, h.pgdir, hn.trans h.npage, ht₁, fun j hj => ?_, ?_, ?_⟩, ?_, ?_⟩
  · show p'.frame (1276, 1, j) = _
    rw [frame_home ht₁, htab, ← frame_home h.table]
    exact h.home j hj
  · show p'.table (1276, 100) = _
    have hentry : valid (Acct.tableEntry 1273) = true ∧ ppn (Acct.tableEntry 1273) = 1273 := by decide
    unfold Pmap.table
    dsimp only
    rw [hdir, if_pos rfl, if_pos hentry.1, hentry.2]
  · show p'.ppRef 1273 = 1
    rw [href, Function.update_of_ne (by decide), Function.update_self]
  · show p'.mem 1273 0 = _
    rw [hm, if_pos ⟨rfl, rfl⟩]
  · show p'.mem 1273 1 = _
    rw [hm, if_neg (fun hc => absurd hc.2 (by decide)), if_neg (fun hc => absurd hc.1 (by decide)), if_pos rfl]

/-- **The TLB gets its entry.** -/
theorem refillFar (h : Wrapping k (some 1273) r n) (h0 : k.pm.mem 1273 0 = entryOf 1275 pteD)
    (h1 : k.pm.mem 1273 1 = 0) :
    ∃ k', step k (.refill farVa 0) = some k' ∧ Wrapping k' (some 1273) r n ∧ farEntry ∈ k'.pm.tlb := by
  have hentry : valid (entryOf 1275 pteD) = true ∧ ppn (entryOf 1275 pteD) = 1275 := by decide
  have hpt : ptx farVa = 0 := by decide
  have ht : (tlbInvalidate k.pm (k.envs 0).envAsid farVa).table (k.curPgdir, pdx farVa) = some 1273 := by
    rw [h.curPgdir]
    exact h.far
  have hlt : 1273 < (tlbInvalidate k.pm (k.envs 0).envAsid farVa).npage := by
    show 1273 < k.pm.npage
    rw [h.npage]
    decide
  have hread : (tlbInvalidate k.pm (k.envs 0).envAsid farVa).read (1273, 0) = entryOf 1275 pteD := h0
  have hpp : 1275 < (tlbInvalidate k.pm (k.envs 0).envAsid farVa).npage := by
    show 1275 < k.pm.npage
    rw [h.npage]
    decide
  have hlook : pageLookup (tlbInvalidate k.pm (k.envs 0).envAsid farVa) k.curPgdir farVa =
      some (some (1275, (1273, 0))) := by
    unfold pageLookup
    rw [Acct.walk_of_table ht hlt, hpt]
    simp only [Option.bind_some, hread, hentry.1, if_true, pa2page, hentry.2, if_pos hpp, Option.map_some]
  have hrefill : doTlbRefill k.pm k.curPgdir (k.envs 0).envAsid farVa 0 =
      some (tlbwr (tlbInvalidate k.pm (k.envs 0).envAsid farVa) 0 farEntry) := by
    have hodd : (tlbInvalidate k.pm (k.envs 0).envAsid farVa).read (1273, 0 / 2 * 2 + 1) = 0 := h1
    have heven : (tlbInvalidate k.pm (k.envs 0).envAsid farVa).read (1273, 0 / 2 * 2) = entryOf 1275 pteD := h0
    have hhi : (farVa &&& ~~~8191 ||| (0 : Word) &&& 255) = farVa := by decide
    unfold doTlbRefill lookupAlloc
    rw [hlook]
    simp only [Option.bind_some, Option.map_some]
    have hzero : (0 : Word) >>> pteHardflagShift = 0 := by decide
    rw [heven, hodd, h.asid, hhi, hzero]
    rfl
  refine ⟨_, by simp only [step, h.cur, Option.bind_some, hrefill, Option.map_some]; rfl, ?_, List.mem_cons_self⟩
  exact ⟨h.cur, h.curPgdir, h.live, h.asid, h.pgdir, h.npage, h.table, h.home, h.far, h.ref⟩

/-- **The page is given out once more**, zeroed, and its table says that nothing is mapped at `farVa`. -/
theorem allocAgain (h : Wrapping k (some 1273) 0 1) {rest : List Nat} (hfree : k.pm.pageFreeList = 1273 :: rest)
    (ht : farEntry ∈ k.pm.tlb) : ∃ k', step k (.allocInsert 0 (homeVa 2) pteD) = some k' ∧
    Allowed k (.allocInsert 0 (homeVa 2) pteD) ∧ ¬Coherent k' := by
  obtain ⟨hva, hpd, hpt, hf⟩ := h.slot (j := 2) (by decide)
  rw [if_neg (by decide), if_neg (by decide)] at hf
  generalize hq : ({ k.pm with pageFreeList := rest, mem := Function.update k.pm.mem 1273 fun _ => 0 } : Pmap) = q
  have hal : pageAlloc k.pm = some (1273, q) := by
    unfold pageAlloc
    rw [hfree, ← hq]
  have hmem : ∀ f, f ≠ 1273 → q.mem f = k.pm.mem f := by
    intro f hf
    rw [← hq]
    exact Function.update_of_ne hf _ _
  have htable : ∀ i, q.table (1276, i) = k.pm.table (1276, i) := by
    intro i
    have hdir := hmem 1276 (by decide)
    unfold Pmap.table
    dsimp only
    rw [hdir]
  have htab : q.table ((k.envs 0).envPgdir, pdx (homeVa 2)) = some 1274 := by
    rw [h.pgdir, hpd, htable]
    exact h.table
  have hnone : q.frame (slotOf (k.envs 0).envPgdir (homeVa 2)) = none := by
    unfold Kernel.frameOf slotOf at hf
    unfold slotOf
    rw [h.pgdir, hpd, hpt] at hf ⊢
    rw [frame_home ((htable 1).trans h.table), hmem _ (by decide), ← frame_home h.table]
    exact hf
  have hnp : 1274 < q.npage := by
    rw [← hq]
    show 1274 < k.pm.npage
    rw [h.npage]
    decide
  have hins := insert_empty 1273 (k.envs 0).envAsid pteD htab hnp hnone
  refine ⟨_, by simp only [step, hal, hins, Option.map_some]; rfl, ⟨h.live, hva, by decide, by decide⟩, fun hc => ?_⟩
  have hkeep : farEntry ∈ (tlbInvalidate q (k.envs 0).envAsid (homeVa 2)).tlb := by
    rw [mem_tlbInvalidate, h.asid, ← hq]
    exact ⟨ht, by decide⟩
  have hsays := hc.tlb 0 h.live farEntry hkeep (h.asid.symm ▸ by decide) false (by unfold TlbEntry.Maps; decide)
  have hzero : ((tlbInvalidate q (k.envs 0).envAsid (homeVa 2)).setRef 1273 (q.ppRef 1273 + 1)).mem 1273 0 = 0 := by
    show q.mem 1273 0 = 0
    rw [← hq]
    show Function.update k.pm.mem 1273 (fun _ => 0) 1273 0 = 0
    rw [Function.update_self]
  generalize hq' : (tlbInvalidate q (k.envs 0).envAsid (homeVa 2)).setRef 1273 (q.ppRef 1273 + 1) = q' at hsays hzero
  have hslot : slotOf (k.envs 0).envPgdir (farEntry.va false) = (1276, 100, 0) := by
    rw [h.pgdir]
    decide
  have hfar : (q'.write (1274, 2) (entryOf 1273 pteD)).table (1276, 100) = some 1273 := by
    rw [table_write, if_neg (by decide), ← h.far, ← htable, ← hq']
    rfl
  have hpte : (q'.write (1274, 2) (entryOf 1273 pteD)).pte (1276, 100, 0) = none := by
    have hmem' : (q'.write (1274, 2) (entryOf 1273 pteD)).mem 1273 0 = 0 := by
      rw [write_mem, if_neg (by decide), hzero]
    rw [pte_of_table hfar, hmem']
    rfl
  rw [Kernel.setPm_envs, Kernel.setPm_pm, hslot, hpt, hpte] at hsays
  cases hsays

end Wrapping

/-- What is checked of the state after the two pages are mapped. -/
def packedB (k : Kernel) : Bool :=
  decide (k.curenv = some 0 ∧ (k.envs 0).envAsid = 0 ∧ (k.envs 0).envPgdir = 1276 ∧ k.pm.npage = 1280 ∧
    k.pm.ppRef 1273 = 1 ∧ k.pm.table (1276, 1) = some 1274 ∧ 64 ≤ k.pm.pageFreeList.length) &&
  (List.range 99).all (fun i => decide (k.pm.table (1276, 2 + i) = none)) &&
  (List.range 4).all (fun j =>
    decide (k.frameAt 0 1 j = if j = 0 then some 1275 else if j = 1 then some 1273 else none))

theorem packed_of_packedB {k : Kernel} (hinv : Inv k) (h : packedB k = true) : Packed 0 k := by
  simp only [packedB, Bool.and_eq_true, decide_eq_true_eq, List.all_eq_true, List.mem_range] at h
  obtain ⟨⟨⟨hcur, hasid, hdir, hnp, href, htab, hfree⟩, hnone⟩, hhome⟩ := h
  refine ⟨hinv, hcur, hasid, hdir, fun i hi => ?_, hhome, href, fun i hi => absurd hi (Nat.not_lt_zero _), hnp, htab,
    hnone 98 (by decide), by omega⟩
  obtain ⟨hp, -⟩ := crowdVa_fields hi
  unfold Kernel.frameOf slotOf
  rw [hdir, hp, Pmap.frame, Acct.pte_none_of_table (hnone (i / 1024) (by omega)), if_neg (Nat.not_lt_zero i)]
  rfl

theorem packed_start : ∃ k₀, Run Fresh step Allowed k₀ ∧ Packed 0 k₀ := by
  obtain ⟨k, hr, hk⟩ := @Run.exists_of_exec Kernel TlbOp Fresh step (fun k a => Allowed k a ∧ Room k a) allowedB
    allowed_of_allowedB [.envAlloc 0 .runnable, .envRun 0, .allocInsert 0 0x400000 pteD, .allocInsert 0 0x401000 pteD]
    _ fresh_small packedB (by decide +kernel)
  exact ⟨k, hr.mono (fun _ _ h => h.1), packed_of_packedB (inv_run k hr) hk⟩

/-- **The page is given out as a page table**, and as a page once more: the table of `farVa` is zeroed while the TLB has
its entry. -/
theorem tlb_coherent_fails : ¬∀ k, Run Fresh step Allowed k → Coherent k := by
  intro hall
  obtain ⟨k₀, hr₀, h₀⟩ := packed_start
  obtain ⟨k₁, hr₁, h₁⟩ := packed_run hr₀ h₀ 65534 (Nat.le_refl _)
  obtain ⟨k₂, hs₂, ha₂, h₂⟩ := (Wrapping.of_packed h₁).insert (by decide) (by decide)
  obtain ⟨k₃, hs₃, ha₃, h₃⟩ := h₂.insert (by decide) (by decide)
  obtain ⟨k₄, hs₄, ha₄, h₄, hf₄, -, -⟩ := h₃.remove (by decide) (by decide)
  obtain ⟨k₅, hs₅, ha₅, h₅, h50, h51⟩ := h₄.insertFar hf₄
  obtain ⟨k₆, hs₆, h₆, ht₆⟩ := h₅.refillFar h50 h51
  obtain ⟨k₇, hs₇, ha₇, h₇, hf₇, -, ht₇⟩ := h₆.remove (by decide) (by decide)
  have hkeep : farEntry ∈ k₇.pm.tlb := by
    rw [ht₇, mem_tlbInvalidate]
    exact ⟨ht₆, by decide⟩
  obtain ⟨k₈, hs₈, ha₈, hnot⟩ := h₇.allocAgain hf₇ hkeep
  have hr₄ := Run.next k₃ _ k₄ (.next k₂ _ k₃ (.next k₁ _ k₂ hr₁ ha₂ hs₂) ha₃ hs₃) ha₄ hs₄
  have ha₆ : Allowed k₅ (.refill farVa 0) := trivial
  have hr₇ := Run.next k₆ _ k₇ (.next k₅ _ k₆ (.next k₄ _ k₅ hr₄ ha₅ hs₅) ha₆ hs₆) ha₇ hs₇
  exact hnot (hall k₈ (.next k₇ _ k₈ hr₇ ha₈ hs₈))

end TlbOp

end Mos
