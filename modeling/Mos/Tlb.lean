import Mathlib.Data.Fintype.Basic
import Mos.FrameRun
import Mos.Keeping
/-!
# Tlb — what the TLB says of the tables

A TLB entry holds two neighbouring entries of a page table, for one address-space id.  `page_insert` and `page_remove`
take the entry of the page out that they change, `env_free` unmaps every page, and a refill copies what the tables have.
-/
namespace Mos

/-! ## Entries -/

namespace TlbEntry

def asid (t : TlbEntry) : Word := t.hi &&& 0xFF

/-- The address of the even or of the odd page. -/
def va (t : TlbEntry) (odd : Bool) : Word := (t.hi &&& ~~~0x1FFF) ||| (if odd then 0x1000 else 0)

def lo (t : TlbEntry) (odd : Bool) : Word := if odd then t.lo1 else t.lo0

/-- The half is valid, and for an address below `UTOP`. -/
def Maps (t : TlbEntry) (odd : Bool) : Prop := t.va odd < utop ∧ t.lo odd &&& (pteV >>> pteHardflagShift) ≠ 0

end TlbEntry

/-- `EntryHi` for an address and an address-space id. -/
def entryHi (asid va : Word) : Word := (va &&& ~~~0x1FFF) ||| (asid &&& 0xFF)

theorem pairMask_bit : ∀ i < 32, (0x1FFF : Word).getLsbD i = decide (i < 13) := by decide

theorem asidMask_bit : ∀ i < 32, (0xFF : Word).getLsbD i = decide (i < 8) := by decide

theorem entryHi_asid (asid va : Word) : entryHi asid va &&& 0xFF = asid &&& 0xFF := by
  unfold entryHi
  ext i hi
  have h₁ := pairMask_bit i hi
  have h₂ := asidMask_bit i hi
  rw [BitVec.getLsbD_eq_getElem hi] at h₁ h₂
  simp only [BitVec.getElem_and, BitVec.getElem_or, BitVec.getElem_not, h₁, h₂]
  by_cases h : i < 8
  · simp [h, show i < 13 by omega]
  · simp [h]

theorem pair_iff {a b : Word} : a >>> 13 = b >>> 13 ↔ a.toNat / 2 ^ 13 = b.toNat / 2 ^ 13 := by
  rw [← BitVec.toNat_inj, BitVec.toNat_ushiftRight, BitVec.toNat_ushiftRight, Nat.shiftRight_eq_div_pow,
    Nat.shiftRight_eq_div_pow]

theorem toNat_pair (x : Word) {y : Word} (hy : y.toNat < 2 ^ 13) :
    ((x &&& ~~~0x1FFF) ||| y).toNat = x.toNat / 2 ^ 13 * 2 ^ 13 + y.toNat := by
  have hand : x &&& ~~~(0x1FFF : Word) = (x >>> 13) <<< 13 := by
    ext i hi
    have hmask := pairMask_bit i hi
    rw [BitVec.getLsbD_eq_getElem hi] at hmask
    simp only [BitVec.getElem_and, BitVec.getElem_not, hmask, BitVec.getElem_shiftLeft]
    by_cases h : i < 13
    · simp [h]
    · rw [BitVec.getElem_ushiftRight, show 13 + (i - 13) = i by omega, BitVec.getLsbD_eq_getElem hi]
      simp [h]
  have hlt := x.isLt
  rw [hand, BitVec.toNat_or, BitVec.toNat_shiftLeft, BitVec.toNat_ushiftRight,
    Nat.shiftRight_eq_div_pow, Nat.shiftLeft_eq,
    Nat.mod_eq_of_lt (by omega), ← Nat.shiftLeft_eq, ← Nat.shiftLeft_add_eq_or_of_lt hy]

theorem pair_or (x : Word) {y : Word} (hy : y.toNat < 2 ^ 13) : ((x &&& ~~~0x1FFF) ||| y) >>> 13 = x >>> 13 := by
  rw [pair_iff, toNat_pair x hy]
  omega

theorem entryHi_pair (asid va : Word) : entryHi asid va >>> 13 = va >>> 13 := by
  refine pair_or va ?_
  rw [BitVec.toNat_and]
  exact Nat.lt_of_le_of_lt Nat.and_le_right (by decide)

theorem valid_shift (w : Word) : w >>> pteHardflagShift &&& (pteV >>> pteHardflagShift) ≠ 0 ↔ valid w = true := by
  have h₁ : pteV >>> pteHardflagShift = BitVec.twoPow 32 1 := by decide
  have h₂ : pteV = BitVec.twoPow 32 7 := by decide
  unfold valid
  rw [h₁, h₂, BitVec.and_twoPow, BitVec.and_twoPow]
  unfold pteHardflagShift
  rw [BitVec.getLsbD_ushiftRight]
  cases w.getLsbD (6 + 1)
  · simp
  · simp
    decide

theorem mem_tlbInvalidate {p : Pmap} {asid va : Word} {t : TlbEntry} :
    t ∈ (tlbInvalidate p asid va).tlb ↔ t ∈ p.tlb ∧ t.probe (entryHi asid va) = false := by
  show t ∈ p.tlb.filter _ ↔ _
  rw [List.mem_filter, Bool.not_eq_true']
  rfl

theorem probe_of_page {t : TlbEntry} {asid va : Word} {odd : Bool} (ha : t.asid = asid &&& 0xFF)
    (hv : (t.va odd).toNat / 2 ^ 12 = va.toNat / 2 ^ 12) : t.probe (entryHi asid va) = true := by
  have hpair : t.hi >>> 13 = va >>> 13 := by
    have hhi : t.va odd >>> 13 = t.hi >>> 13 := pair_or t.hi (by cases odd <;> decide)
    rw [← hhi, pair_iff]
    omega
  have hasid : t.hi &&& 0xFF = asid &&& 0xFF := ha
  simp only [TlbEntry.probe, entryHi_pair, entryHi_asid, hpair, hasid, beq_self_eq_true, Bool.true_or, Bool.and_self]

/-! ## What the operations take out -/

section Tlb

variable {p p' : Pmap} {d pp : Nat} {asid va perm : Word}

theorem pageAlloc_tlb (h : pageAlloc p = some (pp, p')) : p'.tlb = p.tlb := by
  obtain ⟨rest, -, rfl⟩ := pageAlloc_eq h
  rfl

theorem pageDecref_tlb (h : pageDecref p pp = some p') : p'.tlb = p.tlb := by
  have hr : p.ppRef pp ≠ 0 := by
    intro hr
    unfold pageDecref at h
    rw [if_pos hr] at h
    cases h
  rw [Acct.decref_eq hr] at h
  cases h
  rfl

theorem pgdirWalk_tlb {create : Bool} {w : Int × Option PtePtr × Pmap} (h : pgdirWalk p d va create = some w) :
    w.2.2.tlb = p.tlb := by
  unfold pgdirWalk at h
  split at h
  · obtain ⟨t, -, rfl⟩ := Option.map_eq_some_iff.1 h
    rfl
  · split at h
    · split at h
      · cases h
        rfl
      · rename_i pp p₁ ha
        obtain ⟨t, -, rfl⟩ := Option.map_eq_some_iff.1 h
        show p₁.tlb = p.tlb
        exact pageAlloc_tlb ha
    · cases h
      rfl

/-- `page_remove` takes the entry of the page out, if the page is mapped. -/
theorem pageRemove_tlb {l : Nat × PtePtr} (hl : pageLookup p d va = some (some l))
    (h : pageRemove p d asid va = some p') :
    ∀ t ∈ p'.tlb, t ∈ p.tlb ∧ t.probe (entryHi asid va) = false := by
  unfold pageRemove at h
  rw [hl] at h
  obtain ⟨p₁, hd, rfl⟩ := Option.map_eq_some_iff.1 h
  intro t ht
  obtain ⟨ht, hprobe⟩ := mem_tlbInvalidate.1 ht
  exact ⟨by rwa [← pageDecref_tlb hd], hprobe⟩

theorem pageInsertFresh_tlb {r : Int} (h : pageInsertFresh p d asid pp va perm = some (r, p')) :
    ∀ t ∈ p'.tlb, t ∈ p.tlb ∧ t.probe (entryHi asid va) = false := by
  unfold pageInsertFresh at h
  obtain ⟨⟨r₁, e, p₁⟩, hw, hrest⟩ := Option.map_eq_some_iff.1 h
  have htlb : p'.tlb = p₁.tlb := by
    cases e <;> cases hrest <;> rfl
  intro t ht
  rw [htlb, show p₁.tlb = _ from pgdirWalk_tlb hw] at ht
  exact mem_tlbInvalidate.1 ht

theorem pageInsert_tlb {r : Int} (h : pageInsert p d asid pp va perm = some (r, p')) :
    ∀ t ∈ p'.tlb, t ∈ p.tlb ∧ t.probe (entryHi asid va) = false := by
  unfold pageInsert at h
  obtain ⟨⟨r₁, e, p₁⟩, hw, hrest⟩ := Option.bind_eq_some_iff.1 h
  dsimp only at hrest
  split at hrest
  · exact pageInsertFresh_tlb hrest
  · rename_i e
    split at hrest
    · rename_i hv
      obtain ⟨pp', hpa, hrest⟩ := Option.bind_eq_some_iff.1 hrest
      split at hrest
      · cases hrest
        exact fun t ht => mem_tlbInvalidate.1 ht
      · obtain ⟨p₂, hr, hrest⟩ := Option.bind_eq_some_iff.1 hrest
        have hl : pageLookup p d va = some (some (pp', e)) := by
          unfold pageLookup
          rw [hw]
          simp only [Option.bind_some, if_pos hv, hpa, Option.map_some]
        intro t ht
        obtain ⟨ht, hprobe⟩ := pageInsertFresh_tlb hrest t ht
        exact ⟨(pageRemove_tlb hl hr t ht).1, hprobe⟩
    · exact pageInsertFresh_tlb hrest

theorem passiveAlloc_tlb (h : passiveAlloc p d asid va = some p') : ∀ t ∈ p'.tlb, t ∈ p.tlb := by
  unfold passiveAlloc at h
  split at h
  · cases h
  · split at h
    · cases h
    · rename_i pp p₁ ha
      obtain ⟨⟨r, p₂⟩, hi, hrest⟩ := Option.bind_eq_some_iff.1 h
      split at hrest
      · cases hrest
        intro t ht
        rw [← pageAlloc_tlb ha]
        exact (pageInsert_tlb hi t ht).1
      · cases hrest

theorem lookupAlloc_tlb {e : PtePtr} (h : lookupAlloc p d asid va = some (e, p')) : ∀ t ∈ p'.tlb, t ∈ p.tlb := by
  unfold lookupAlloc at h
  obtain ⟨l, -, hrest⟩ := Option.bind_eq_some_iff.1 h
  cases l with
  | some l =>
    cases hrest
    exact fun _ ht => ht
  | none =>
    obtain ⟨p₁, hp, hrest⟩ := Option.bind_eq_some_iff.1 hrest
    obtain ⟨l', -, hrest⟩ := Option.bind_eq_some_iff.1 hrest
    obtain ⟨⟨f, e'⟩, -, he⟩ := Option.map_eq_some_iff.1 hrest
    cases he
    exact passiveAlloc_tlb hp

end Tlb

/-! ## The TLB is right -/

/-- **The TLB says what the tables say**, where `R` has the directory of every address-space id. -/
def TlbRight (R : Word → Nat → Prop) (p : Pmap) : Prop :=
  ∀ t ∈ p.tlb, ∀ odd, t.Maps odd → ∃ d, R t.asid d ∧
    (p.pte (slotOf d (t.va odd))).map (fun w : Word => w >>> pteHardflagShift) = some (t.lo odd)

/-- Nothing comes into the TLB, and the pages that it has stay as they are. -/
def Purges (R : Word → Nat → Prop) (p p' : Pmap) : Prop :=
  ∀ t ∈ p'.tlb, t ∈ p.tlb ∧ ∀ odd d w, t.va odd < utop → R t.asid d → p.pte (slotOf d (t.va odd)) = some w →
    p'.pte (slotOf d (t.va odd)) = some w

section Purges

variable {R : Word → Nat → Prop} {D : Finset Nat} {p p₁ p' : Pmap}

theorem Purges.refl (p : Pmap) : Purges R p p := fun _ ht => ⟨ht, fun _ _ _ _ _ hw => hw⟩

theorem Purges.trans (h : Purges R p p₁) (h' : Purges R p₁ p') : Purges R p p' := by
  intro t ht
  obtain ⟨ht₁, hk'⟩ := h' t ht
  obtain ⟨ht₀, hk⟩ := h t ht₁
  exact ⟨ht₀, fun odd d w hva hR hw => hk' odd d w hva hR (hk odd d w hva hR hw)⟩

theorem TlbRight.mono {R' : Word → Nat → Prop} (h : TlbRight R p) (hR : ∀ a d, R a d → R' a d) : TlbRight R' p := by
  intro t ht odd hm
  obtain ⟨d, hd, hlo⟩ := h t ht odd hm
  exact ⟨d, hR _ _ hd, hlo⟩

theorem TlbRight.purges (h : TlbRight R p) (hp : Purges R p p') : TlbRight R p' := by
  intro t ht odd hm
  obtain ⟨ht₀, hk⟩ := hp t ht
  obtain ⟨d, hR, hpte⟩ := h t ht₀ odd hm
  obtain ⟨w, hw, hlo⟩ := Option.map_eq_some_iff.1 hpte
  refine ⟨d, hR, ?_⟩
  rw [hk odd d w hm.1 hR hw, Option.map_some, hlo]

theorem Purges.of_keeps (hR : ∀ a d, R a d → d ∈ D) (hk : Keeps D p p') (htlb : ∀ t ∈ p'.tlb, t ∈ p.tlb) :
    Purges R p p' :=
  fun t ht => ⟨htlb t ht, fun _ d w hva hRd hw => hk _ (slotOf_mem (hR _ d hRd) (pdx_lt_utop.2 hva)) w hw⟩

/-- **One entry of a table changes**, and what the TLB has of the page is taken out. -/
theorem Purges.of_setsPte (hR : ∀ a d, R a d → d ∈ D) {d₀ : Nat} {asid va : Word} {v : Option Word}
    (hone : ∀ a, R a d₀ → a = asid &&& 0xFF) (hs : SetsPte utopEntries D p p' (slotOf d₀ va) v)
    (htlb : ∀ t ∈ p'.tlb, t ∈ p.tlb ∧ t.probe (entryHi asid va) = false) : Purges R p p' := by
  intro t ht
  obtain ⟨ht₀, hprobe⟩ := htlb t ht
  refine ⟨ht₀, fun odd d w hva hRd hw => ?_⟩
  rw [hs _ (slotOf_mem (hR _ d hRd) (pdx_lt_utop.2 hva)), if_neg]
  · exact hw
  · intro hc
    simp only [slotOf, Prod.mk.injEq] at hc
    obtain ⟨rfl, hpd, hpt⟩ := hc
    rw [pdx_eq, pdx_eq] at hpd
    rw [ptx_eq, ptx_eq] at hpt
    rw [@probe_of_page t asid va odd (hone _ hRd) (by omega)] at hprobe
    cases hprobe

end Purges

/-! ## The operations -/

theorem lookupAlloc_entry {p p' : Pmap} {d : Nat} {asid va : Word} {e : PtePtr}
    (h : lookupAlloc p d asid va = some (e, p')) :
    ∃ pp, pageLookup p' d va = some (some (pp, e)) := by
  unfold lookupAlloc at h
  obtain ⟨l, hl, hrest⟩ := Option.bind_eq_some_iff.1 h
  cases l with
  | some l =>
    cases hrest
    exact ⟨_, hl⟩
  | none =>
    obtain ⟨p₁, hp, hrest⟩ := Option.bind_eq_some_iff.1 hrest
    obtain ⟨l', hl', hrest⟩ := Option.bind_eq_some_iff.1 hrest
    obtain ⟨⟨f, e'⟩, rfl, he⟩ := Option.map_eq_some_iff.1 hrest
    cases he
    exact ⟨f, hl'⟩

namespace Sound

variable {R : Word → Nat → Prop} {base d pp : Nat} {p p' : Pmap} {g : Ledger} {asid va perm : Word}

theorem remove_purges (h : Sound base p g) (hR : ∀ a d, R a d → d ∈ g.dirs) (hone : ∀ a, R a d → a = asid &&& 0xFF)
    (hd : d ∈ g.dirs) (hva : va < utop) (hr : pageRemove p d asid va = some p') : Purges R p p' := by
  obtain ⟨-, -, hset⟩ := h.remove hd hva hr
  have hr₀ := hr
  obtain ⟨l, hl, hrest⟩ := Option.bind_eq_some_iff.1 hr
  cases l with
  | none =>
    cases hrest
    exact .refl p
  | some l => exact .of_setsPte hR hone hset (pageRemove_tlb hl hr₀)

theorem insert_purges (h : Sound base p g) (hR : ∀ a d, R a d → d ∈ g.dirs) (hone : ∀ a, R a d → a = asid &&& 0xFF)
    (hd : d ∈ g.dirs) (hva : va < utop) (hu : Acct.Usable utopEntries p g pp)
    (hlt : p.frame (slotOf d va) = some pp ∨ p.ppRef pp < 65535) (hperm : pp ||| ppn perm = pp) {r : Int}
    (hi : pageInsert p d asid pp va perm = some (r, p')) : Purges R p p' := by
  have htlb := pageInsert_tlb hi
  rcases h.acct.insertPage hd (pdx_lt_utop.2 hva) asid hu hlt hperm with ⟨-, -, he⟩ | ⟨p₁, he, hins⟩
  · obtain ⟨-, rfl⟩ : -eNoMem = r ∧ tlbInvalidate p asid va = p' := by simpa using he.symm.trans hi
    exact .of_keeps hR (.of_same ⟨fun _ _ => rfl, fun _ _ => rfl⟩) (fun t ht => (htlb t ht).1)
  · obtain ⟨-, rfl⟩ : 0 = r ∧ p₁ = p' := by simpa using he.symm.trans hi
    exact .of_setsPte hR hone hins.pte htlb

/-- **A refill copies the tables.** -/
theorem refill_right (h : Sound base p g) (hR : ∀ a d, R a d → d ∈ g.dirs) (hd : d ∈ g.dirs) (hRd : R (asid &&& 0xFF) d)
    (hp : TlbRight R p) {victim : Nat} (hr : doTlbRefill p d asid va victim = some p') : TlbRight R p' := by
  have hkeeps := h.refill_keeps hd hr
  unfold doTlbRefill at hr
  obtain ⟨⟨e, p₁⟩, hl, rfl⟩ := Option.map_eq_some_iff.1 hr
  obtain ⟨f, hlook⟩ := lookupAlloc_entry hl
  obtain ⟨hv, he, -, -⟩ := lookup_inv hlook
  have hold : TlbRight R p₁ := by
    refine hp.purges (.of_keeps hR hkeeps (fun t ht => ?_))
    exact (mem_tlbInvalidate.1 (lookupAlloc_tlb hl t ht)).1
  intro t ht odd hm
  rcases List.mem_cons.1 ht with rfl | ht
  · -- the new entry
    generalize ht : (TlbEntry.mk _ _ _) = t at hm ⊢
    have hhi : t.hi = entryHi asid va := by rw [← ht]; rfl
    have hlo : t.lo odd = p₁.mem e.1 (e.2 / 2 * 2 + if odd then 1 else 0) >>> pteHardflagShift := by
      rw [← ht]
      cases odd <;> rfl
    have hnat : (t.va odd).toNat = va.toNat / 2 ^ 13 * 2 ^ 13 + if odd then 4096 else 0 := by
      unfold TlbEntry.va
      rw [hhi, toNat_pair _ (by cases odd <;> decide), pair_iff.1 (entryHi_pair asid va)]
      cases odd <;> rfl
    have hpd : pdx (t.va odd) = pdx va := by
      rw [pdx_eq, pdx_eq, hnat]
      split <;> omega
    have hpt : ptx (t.va odd) = e.2 / 2 * 2 + if odd then 1 else 0 := by
      rw [he, ptx_eq, hnat]
      dsimp only
      rw [ptx_eq]
      split <;> omega
    have htab : p₁.table (d, pdx (t.va odd)) = some e.1 := by
      rw [hpd, he]
      unfold Pmap.table
      rw [if_pos hv]
    refine ⟨d, ?_, ?_⟩
    · unfold TlbEntry.asid
      rw [hhi, entryHi_asid]
      exact hRd
    · have hvalid := hm.2
      rw [hlo, valid_shift] at hvalid
      show (p₁.pte (slotOf d (t.va odd))).map _ = _
      unfold slotOf
      rw [pte_of_table htab, hpt, if_pos hvalid, Option.map_some, hlo]
  · exact hold t (List.mem_of_mem_eraseIdx ht) odd hm

/-! ## `env_free` -/

theorem freeEntries_purges (hR : ∀ a d, R a d → d ∈ g.dirs) (hone : ∀ a, R a d → a = asid &&& 0xFF) {i t : Nat}
    (hi : i < utopEntries) : ∀ (js : List Nat) {p p' : Pmap}, (∀ j ∈ js, j < pageWords) → Sound base p g → d ∈ g.dirs →
    js.foldlM (fun p j => if valid (p.mem t j) then
      pageRemove p d asid (BitVec.ofNat 32 i <<< pdshift ||| BitVec.ofNat 32 j <<< pgshift) else some p) p = some p' →
    Purges R p p'
  | [], p, p', _, _, _, hf => by
    cases hf
    exact .refl p
  | j :: js, p, p', hjs, h, hd, hf => by
    rw [List.foldlM_cons] at hf
    obtain ⟨p₁, hstep, hrest⟩ := Option.bind_eq_some_iff.1 hf
    have htail : ∀ j' ∈ js, j' < pageWords := fun j' hj' => hjs j' (List.mem_cons_of_mem _ hj')
    split at hstep
    · have hso := slotOf_free (d := d) (Nat.lt_trans hi (pdx_lt utop)) (hjs j List.mem_cons_self)
      have hva : BitVec.ofNat 32 i <<< pdshift ||| BitVec.ofNat 32 j <<< pgshift < utop := by
        have hpd := congrArg (fun s => s.2.1) hso
        exact pdx_lt_utop.1 (hpd.trans_lt hi)
      exact (h.remove_purges hR hone hd hva hstep).trans
        (freeEntries_purges hR hone hi js htail (h.remove hd hva hstep).1.sound hd hrest)
    · cases hstep
      exact freeEntries_purges hR hone hi js htail h hd hrest

theorem freeTable_purges (h : Sound base p g) (hR : ∀ a d, R a d → d ∈ g.dirs) (hone : ∀ a, R a d → a = asid &&& 0xFF)
    {i : Nat} (hd : d ∈ g.dirs) (hi : i < utopEntries) (hf : envFreeTable d asid p i = some p') : Purges R p p' := by
  unfold envFreeTable at hf
  split at hf
  · rename_i hv
    obtain ⟨t, hk, hrest⟩ := Option.bind_eq_some_iff.1 hf
    obtain ⟨p₁, hloop, hrest⟩ := Option.bind_eq_some_iff.1 hrest
    obtain ⟨t', hpa, hrest⟩ := Option.bind_eq_some_iff.1 hrest
    obtain ⟨p₂, hdec, rfl⟩ := Option.map_eq_some_iff.1 hrest
    have hppn : ppn (p.mem d i) = t ∧ ppn (p.mem d i) = t' := by
      unfold kaddr at hk
      unfold pa2page at hpa
      rw [ppn_pteAddr] at hk hpa
      constructor
      · split at hk
        · exact Option.some.inj hk
        · cases hk
      · split at hpa
        · exact Option.some.inj hpa
        · cases hpa
    obtain ⟨rfl, rfl⟩ := hppn
    have hslot : (d, i) ∈ tableSlots utopEntries g.dirs := mem_tableSlots.2 ⟨hd, hi⟩
    have ht : p.table (d, i) = some (ppn (p.mem d i)) := by
      unfold Pmap.table
      rw [if_pos hv]
    obtain ⟨hm, htab, hnone⟩ := freeEntries hi (List.range pageWords) (fun j hj => List.mem_range.1 hj) h hd ht
      (fun j hj hn => absurd (List.mem_range.2 hj) hn) hloop
    obtain ⟨p₃, hdec', -, -, -, hpte⟩ := hm.sound.acct.dropTable hd hi ((htab _ hslot).trans ht) hnone
    obtain rfl : p₃ = p₂ := by simpa using hdec'.symm.trans hdec
    refine (freeEntries_purges hR hone hi _ (fun j hj => List.mem_range.1 hj) h hd hloop).trans ?_
    refine .of_keeps hR (fun s hs w hw => (hpte s hs).trans hw) (fun t ht => ?_)
    have ht₃ : t ∈ p₃.tlb := (mem_tlbInvalidate.1 ht).1
    rw [pageDecref_tlb hdec] at ht₃
    exact ht₃
  · cases hf
    exact .refl p

theorem freeTables_purges (hR : ∀ a d, R a d → d ∈ g.dirs) (hone : ∀ a, R a d → a = asid &&& 0xFF) :
    ∀ (is : List Nat) {p p' : Pmap}, (∀ i ∈ is, i < utopEntries) → Sound base p g → d ∈ g.dirs →
    is.foldlM (envFreeTable d asid) p = some p' → Purges R p p'
  | [], p, p', _, _, _, hf => by
    cases hf
    exact .refl p
  | i :: is, p, p', his, h, hd, hf => by
    rw [List.foldlM_cons] at hf
    obtain ⟨p₁, hstep, hrest⟩ := Option.bind_eq_some_iff.1 hf
    have hi := his i List.mem_cons_self
    exact (h.freeTable_purges hR hone hd hi hstep).trans
      (freeTables_purges hR hone is (fun i' hi' => his i' (List.mem_cons_of_mem _ hi'))
        (h.freeTable hd hi hstep).1.sound hd
        hrest)

/-- **A space that is given back leaves nothing in the TLB.** -/
theorem freeSpace_right (h : Sound base p g) (hR : ∀ a d, R a d → d ∈ g.dirs) (hone : ∀ a, R a d → a = asid &&& 0xFF)
    (hd : d ∈ g.dirs) (hp : TlbRight R p) (hf : envFreePages d asid p = some p') :
    TlbRight (fun a d' => R a d' ∧ d' ≠ d) p' := by
  unfold envFreePages at hf
  obtain ⟨p₁, hloop, hrest⟩ := Option.bind_eq_some_iff.1 hf
  obtain ⟨d', -, hrest⟩ := Option.bind_eq_some_iff.1 hrest
  obtain ⟨p₂, hdec, rfl⟩ := Option.map_eq_some_iff.1 hrest
  have his : ∀ i ∈ List.range (pdx utop), i < utopEntries := fun i hi => List.mem_range.1 hi
  obtain ⟨-, hnone⟩ := freeTables _ his h hd (fun i hi hn => absurd (List.mem_range.2 hi) hn) hloop
  have hmem := decref_mem hdec
  have hpte : p₂.pte = p₁.pte := by
    funext s
    unfold Pmap.pte Pmap.table
    rw [hmem]
  have hright : TlbRight R (tlbInvalidate p₂ asid (uvpt + BitVec.ofNat 32 (pdx uvpt) <<< pgshift)) := by
    refine (hp.purges (freeTables_purges hR hone _ his h hd hloop)).purges
      (.of_keeps hR (fun s _ w hw => (congrFun hpte s).trans hw) (fun t ht => ?_))
    rw [← pageDecref_tlb hdec]
    exact (mem_tlbInvalidate.1 ht).1
  intro t ht odd hm
  obtain ⟨e, hRe, hlo⟩ := hright t ht odd hm
  refine ⟨e, ⟨hRe, ?_⟩, hlo⟩
  rintro rfl
  have hlo' : (p₂.pte (slotOf e (t.va odd))).map _ = _ := hlo
  rw [hpte] at hlo'
  unfold slotOf at hlo'
  rw [Acct.pte_none_of_table (hnone _ (pdx_lt_utop.2 hm.1))] at hlo'
  cases hlo'

end Sound

end Mos
