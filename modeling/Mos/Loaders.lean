import Mos.FrameRun
import Mos.Headers
import Mos.Isolation
import Mos.SegImage
/-!
# Loaders — `spawn` and `load_icode` build the same pages

`load_icode_mapper` fills a frame and inserts it; `spawn_mapper` lets the kernel insert an empty page in the child,
maps it at `UTEMP` in the parent, copies there, and unmaps it.  Both put one page where there may be another, so over
the same calls of `elf_load_seg` they show the same image.
-/
namespace Mos
namespace Spawning

/-! ## `spawn_mapper` -/

/-- What a call returns. -/
def result : Outcome → Option (Int × Kernel)
  | some (.ret i, k) => some (i, k)
  | _ => none

/-- `memcpy` to a page of the caller; `none` is a fault. -/
def memcpy (k : Kernel) (page : Word) (offset : Nat) (src : Nat → BitVec 8) (len : Nat) : Option Kernel :=
  (pageLookup k.pm k.curPgdir page).bind fun l =>
    match l with
    | some (pp, e) => if k.pm.read e &&& pteD != 0 then some (k.setPm (k.pm.copyIn pp offset src len)) else none
    | none => none

def spawnMapper (cur : EnvIx) (childId : Word) (m : MapPage) (k : Kernel) : Option (Int × Kernel) :=
  (result (sysMemAlloc k cur childId m.va m.perm)).bind fun (r, k₁) =>
    if r ≠ 0 then some (r, k₁)
    else match m.src with
      | none => some (0, k₁)
      | some src =>
        (result (sysMemMap k₁ cur childId m.va 0 utemp (m.perm ||| pteD))).bind fun (r, k₂) =>
          if r ≠ 0 then (result (sysMemUnmap k₂ cur childId m.va)).map fun (_, k₃) => (r, k₃)
          else (memcpy k₂ utemp m.offset src m.len).bind fun k₃ => result (sysMemUnmap k₃ cur 0 utemp)

/-- `read_map`: the bytes from `offset` on, in the pages that `open` has mapped. -/
def File.readMap (f : File) (offset : Word) : Except Int Bytes :=
  if BitVec.ofNat 32 maxFileSize ≤ offset then .error (-eNoDisk)
  else if f.size.toNat ≤ offset.toNat / pageSize * pageSize then .error (-eNoDisk)
  else .ok fun i => f.byte (offset.toNat + i)

/-- `read_map` and `elf_load_seg`, for one header. -/
def loadSegment (f : File) (cur : EnvIx) (childId : Word) (ph : Elf32Phdr) (k : Kernel) : Option (Int × Kernel) :=
  match f.readMap ph.pOffset with
  | .error r => some (r, k)
  | .ok bin => elfLoadSeg ph bin (spawnMapper cur childId) k

/-! ## Images -/

/-- A page as its process finds it. -/
structure UserPage where
  bytes : Nat → BitVec 8
  flags : Word

/-- The page at `va` in the space of a directory. -/
def pageAt (p : Pmap) (d : Nat) (va : Word) : Option UserPage :=
  (p.pte (slotOf d va)).map fun w => ⟨byteAt (p.mem (ppn w)), pteFlags w⟩

/-- The page that a call of the mapper makes. -/
def pageOf (m : MapPage) : UserPage := ⟨m.bytes, m.perm ||| pteCCacheable ||| pteV⟩

/-- The pages of a space, by page number. -/
abbrev Image := Nat → Option UserPage

def Image.put (img : Image) (m : MapPage) : Image := Function.update img (vpn m.va) (some (pageOf m))

/-- The call has made its page in the space `d`, and no other. -/
def Puts (p p' : Pmap) (d : Nat) (m : MapPage) : Prop :=
  ∀ va < utop, pageAt p' d va = if vpn va = vpn m.va then some (pageOf m) else pageAt p d va

/-! ## The free list -/

theorem alloc_length {p q : Pmap} {pp : Nat} (h : pageAlloc p = some (pp, q)) :
    p.pageFreeList.length = q.pageFreeList.length + 1 := by
  unfold pageAlloc at h
  split at h
  · cases h
  · rename_i hf
    cases h
    rw [hf, List.length_cons]

theorem walk_length {p p' : Pmap} {d : Nat} {va : Word} {c : Int} {e : Option PtePtr} {create : Bool}
    (h : pgdirWalk p d va create = some (c, e, p')) : p.pageFreeList.length ≤ p'.pageFreeList.length + 1 := by
  unfold pgdirWalk at h
  split at h
  · obtain ⟨t, -, ht⟩ := Option.map_eq_some_iff.1 h
    cases ht
    exact Nat.le_succ _
  · split at h
    · split at h
      · cases h
        exact Nat.le_succ _
      · rename_i pp p₁ ha
        obtain ⟨t, -, ht⟩ := Option.map_eq_some_iff.1 h
        cases ht
        exact Nat.le_of_eq (alloc_length (q := p₁) ha)
    · cases h
      exact Nat.le_succ _

theorem insertFresh_length {p p' : Pmap} {d pp : Nat} {asid va perm : Word} {r : Int}
    (h : pageInsertFresh p d asid pp va perm = some (r, p')) : p.pageFreeList.length ≤ p'.pageFreeList.length + 1 := by
  unfold pageInsertFresh at h
  obtain ⟨⟨c, e, p₁⟩, hw, hr⟩ := Option.map_eq_some_iff.1 h
  have hlen := walk_length hw
  cases e with
  | none =>
    cases hr
    exact hlen
  | some e =>
    cases hr
    exact hlen

theorem remove_length {p p' : Pmap} {d : Nat} {asid va : Word} (h : pageRemove p d asid va = some p') :
    p.pageFreeList.length ≤ p'.pageFreeList.length := by
  unfold pageRemove at h
  obtain ⟨l, -, hl⟩ := Option.bind_eq_some_iff.1 h
  cases l with
  | none =>
    cases hl
    exact Nat.le_refl _
  | some l =>
    obtain ⟨p₁, hd, rfl⟩ := Option.map_eq_some_iff.1 hl
    show p.pageFreeList.length ≤ p₁.pageFreeList.length
    unfold pageDecref at hd
    split at hd
    · cases hd
    · dsimp only at hd
      split at hd
      · rename_i hzero
        rw [pageFree, if_pos hzero] at hd
        obtain rfl := Option.some.inj hd
        exact Nat.le_succ _
      · obtain rfl := Option.some.inj hd
        exact Nat.le_refl _

theorem insert_length {p p' : Pmap} {d pp : Nat} {asid va perm : Word} {r : Int}
    (h : pageInsert p d asid pp va perm = some (r, p')) :
    p.pageFreeList.length ≤ p'.pageFreeList.length + 1 := by
  unfold pageInsert at h
  obtain ⟨⟨c, e, p₁⟩, -, h⟩ := Option.bind_eq_some_iff.1 h
  cases e with
  | none => exact insertFresh_length h
  | some e =>
    dsimp only at h
    split at h
    · obtain ⟨pp', -, h⟩ := Option.bind_eq_some_iff.1 h
      split at h
      · cases h
        exact Nat.le_succ _
      · obtain ⟨p₂, hr, h⟩ := Option.bind_eq_some_iff.1 h
        exact Nat.le_trans (remove_length hr) (insertFresh_length h)
    · exact insertFresh_length h

/-! ## One page -/

section

variable {p p' : Pmap} {g : Ledger} {d pp : Nat} {va perm : Word} {m : MapPage}

theorem insert_succeeds (h : Acct utopEntries p g) (hd : d ∈ g.dirs) (hva : va < utop) (asid : Word)
    (hu : Acct.Usable utopEntries p g pp) (hroom : p.ppRef pp < 65535) (hperm : perm < 4096)
    (hfree : 1 ≤ p.pageFreeList.length) :
    ∃ p', pageInsert p d asid pp va perm = some (0, p') ∧ Acct.Inserted utopEntries p p' g d va pp perm ∧
      p.pageFreeList.length ≤ p'.pageFreeList.length + 1 := by
  rcases h.insertPage hd (pdx_lt_utop.2 hva) asid hu (.inr hroom) (by rw [Account.ppn_flags hperm, Nat.or_zero])
      with ⟨-, hnil, -⟩ | ⟨p', hi, hins⟩
  · rw [hnil] at hfree
    cases hfree
  · exact ⟨p', hi, hins, insert_length hi⟩

theorem mem_insert (h : Acct utopEntries p g) (hins : Acct.Inserted utopEntries p p' g d va pp perm)
    {s : Nat × Nat × Nat} {f : Nat} (hs : s ∈ pageSlots utopEntries g.dirs) (hf : p.frame s = some f) :
    p'.mem f = p.mem f :=
  hins.mem f (h.usable_of_frame hs hf).outside fun _ => (h.usable_of_frame hs hf).notFree

theorem copyIn_acct (h : Acct utopEntries p g) (ho : Outside utopEntries p g.dirs pp) (o : Nat) (src : Nat → BitVec 8)
    (n : Nat) :
    Acct utopEntries (p.copyIn pp o src n) g ∧ SameMaps utopEntries g.dirs p (p.copyIn pp o src n) := by
  obtain ⟨hn, hr, hfl, hmem⟩ := copyIn_frame pp o src n p
  have hkeep : ∀ f, ¬Outside utopEntries p g.dirs f → (p.copyIn pp o src n).mem f = p.mem f :=
    fun f hf => hmem f fun hc => hf (hc ▸ ho)
  exact ⟨h.congr hn hr hfl hkeep, SameMaps.of_mem hkeep⟩

theorem slotOf_eq_iff (d : Nat) (va va' : Word) : slotOf d va = slotOf d va' ↔ vpn va = vpn va' := by
  rw [slotOf_vpn, slotOf_vpn]
  constructor
  · intro h
    obtain ⟨h₁, h₂⟩ := Prod.mk.inj (Prod.mk.inj h).2
    rw [← Nat.div_add_mod (vpn va) pageWords, ← Nat.div_add_mod (vpn va') pageWords, h₁, h₂]
  · intro h
    rw [h]

/-- **A call has made its page** when the entry is there, with the bytes, and nothing else has changed. -/
theorem puts_of (hpp : pp < 2 ^ 20) (hperm : m.perm < 4096)
    (hpte : ∀ va < utop, p'.pte (slotOf d va) = if slotOf d va = slotOf d m.va then some (entryOf pp m.perm)
      else p.pte (slotOf d va))
    (hbytes : ∀ a, byteAt (p'.mem pp) a = m.bytes a)
    (hmem : ∀ va < utop, vpn va ≠ vpn m.va → ∀ f, p.frame (slotOf d va) = some f → p'.mem f = p.mem f) :
    Puts p p' d m := by
  intro va hva
  unfold pageAt
  rw [hpte va hva]
  by_cases hv : vpn va = vpn m.va
  · rw [if_pos ((slotOf_eq_iff d va m.va).2 hv), if_pos hv, Option.map_some, ppn_entryOf hpp,
      Account.ppn_flags hperm, Nat.or_zero,
      pteFlags_entryOf hperm, funext hbytes]
    rfl
  · rw [if_neg fun hc => hv ((slotOf_eq_iff d va m.va).1 hc), if_neg hv]
    cases hw : p.pte (slotOf d va) with
    | none => rfl
    | some w =>
      have hf : p.frame (slotOf d va) = some (ppn w) := by
        unfold Pmap.frame
        rw [hw]
        rfl
      rw [Option.map_some, Option.map_some, hmem va hva hv _ hf]

/-- **A page that `page_alloc` takes** is zero, and mapped nowhere; nothing else changes. -/
structure TakesPage (p p' : Pmap) (g : Ledger) (pp : Nat) : Prop where
  alloc : pageAlloc p = some (pp, p')
  lt : pp < 2 ^ 20
  ref : p'.ppRef pp = 0
  length : p'.pageFreeList.length + 1 = p.pageFreeList.length
  acct : Acct utopEntries p' { g with limbo := insert pp g.limbo }
  same : SameMaps utopEntries g.dirs p p'
  zero : ∀ a, byteAt (p'.mem pp) a = 0
  mem : ∀ f, f ≠ pp → p'.mem f = p.mem f
  unmapped : ∀ s ∈ pageSlots utopEntries g.dirs, p.frame s ≠ some pp

theorem exists_page (h : Acct utopEntries p g) (hfree : 1 ≤ p.pageFreeList.length) : ∃ pp p', TakesPage p p' g pp := by
  cases hf : p.pageFreeList with
  | nil =>
    rw [hf] at hfree
    cases hfree
  | cons pp rest =>
    obtain ⟨p₁, ha, -, hr, hfl, hmem, hacct, hsame⟩ := h.alloc hf
    have hpp : pp ∈ p.pageFreeList := by rw [hf]; exact List.mem_cons_self
    obtain ⟨hlt, hr0, -⟩ := h.of_free hpp
    refine ⟨pp, p₁, ha, Nat.lt_of_lt_of_le hlt h.npage_le,
      (congrFun hr pp).trans hr0, by rw [hfl, hf, List.length_cons], hacct, hsame,
      fun a => ?_, fun f hfp => ?_, fun s hs hc => (h.usable_of_frame hs hc).notFree hpp⟩
    · rw [hmem, Function.update_self]
      unfold byteAt getByte
      simp
    · rw [hmem, Function.update_of_ne hfp]

namespace TakesPage

variable {p₁ : Pmap} (ht : TakesPage p p₁ g pp)
include ht

theorem usable : Acct.Usable utopEntries p₁ { g with limbo := insert pp g.limbo } pp :=
  ht.acct.usable_of_limbo (Finset.mem_insert_self pp g.limbo)

theorem ppn {perm : Word} (hperm : perm < 4096) : ppn (entryOf pp perm) = pp := by
  rw [ppn_entryOf ht.lt, Account.ppn_flags hperm, Nat.or_zero]

theorem frame {s : Nat × Nat × Nat} {f : Nat} (hs : s ∈ pageSlots utopEntries g.dirs) (hf : p.frame s = some f) :
    p₁.frame s = some f ∧ f ≠ pp :=
  ⟨by rw [ht.same.frame _ hs, hf], fun hc => ht.unmapped s hs (hc ▸ hf)⟩

end TakesPage

/-- **`load_icode_mapper` puts one page.** -/
theorem loadIcodeMapper_puts (h : Acct utopEntries p g) (hd : d ∈ g.dirs) (asid : Word) (hva : m.va < utop)
    (hperm : m.perm < 4096) (hfree : 2 ≤ p.pageFreeList.length) :
    ∃ p' g', loadIcodeMapper d asid m p = some (0, p') ∧ Acct utopEntries p' g' ∧ g'.dirs = g.dirs ∧
      Puts p p' d m ∧ p.pageFreeList.length ≤ p'.pageFreeList.length + 2 := by
  obtain ⟨pp, p₁, ht⟩ := exists_page h (Nat.le_of_succ_le hfree)
  -- the page is filled
  obtain ⟨p₂, hacct₂, hsame₂, hr₂, hfl₂, hmem₂, hbytes, hi⟩ : ∃ p₂ : Pmap, Acct utopEntries p₂
      { g with limbo := insert pp g.limbo } ∧
      SameMaps utopEntries g.dirs p₁ p₂ ∧ p₂.ppRef = p₁.ppRef ∧ p₂.pageFreeList = p₁.pageFreeList ∧
      (∀ x, x ≠ pp → p₂.mem x = p₁.mem x) ∧ (∀ a, byteAt (p₂.mem pp) a = m.bytes a) ∧
      loadIcodeMapper d asid m p = pageInsert p₂ d asid pp m.va m.perm := by
    unfold loadIcodeMapper
    rw [ht.alloc]
    dsimp only
    cases hsrc : m.src with
    | some src =>
      obtain ⟨hacct₂, hsame₂⟩ := copyIn_acct ht.acct ht.usable.outside m.offset src m.len
      obtain ⟨-, hr₂, hfl₂, hmem₂⟩ := copyIn_frame pp m.offset src m.len p₁
      refine ⟨_, hacct₂, hsame₂, hr₂, hfl₂, hmem₂, fun a => ?_, rfl⟩
      rw [copyIn_bytes, ht.zero, MapPage.bytes, hsrc]
    | none =>
      refine ⟨p₁, ht.acct, SameMaps.refl p₁, rfl, rfl, fun _ _ => rfl, fun a => ?_, rfl⟩
      rw [ht.zero, MapPage.bytes, hsrc]
  have hlen : p₂.pageFreeList.length + 1 = p.pageFreeList.length := by rw [hfl₂, ht.length]
  have hu := hacct₂.usable_of_limbo (Finset.mem_insert_self pp g.limbo)
  obtain ⟨p', hins', hins, hlen'⟩ :=
    insert_succeeds hacct₂ hd hva asid hu (by rw [hr₂, ht.ref]; decide) hperm (by omega)
  refine ⟨p', _, hi.trans hins', hins.acct, rfl, puts_of ht.lt hperm ?_ ?_ ?_, by omega⟩
  · intro va hva'
    have hslot := slotOf_mem hd (pdx_lt_utop.2 hva')
    rw [hins.pte _ hslot, hsame₂.pte _ hslot, ht.same.pte _ hslot]
  · intro a
    rw [hins.mem pp hu.outside fun _ => hu.notFree]
    exact hbytes a
  · intro va hva' _ f hf'
    have hs := slotOf_mem hd (pdx_lt_utop.2 hva')
    obtain ⟨hf₁, hfp⟩ := ht.frame hs hf'
    have hf₂ : p₂.frame (slotOf d va) = some f := by rw [hsame₂.frame _ hs, hf₁]
    rw [mem_insert hacct₂ hins hs hf₂, hmem₂ f hfp, ht.mem f hfp]

/-- A page that was just taken, at the place it was inserted: it is mapped there only. -/
theorem ref_inserted (h : Acct utopEntries p g) (hu : Acct.Usable utopEntries p g pp) (hr : p.ppRef pp = 0)
    (hins : Acct.Inserted utopEntries p p' g d va pp perm) (hd : d ∈ g.dirs) (hva : va < utop)
    (hppn : ppn (entryOf pp perm) = pp) :
    p'.ppRef pp < 65535 := by
  obtain ⟨-, hnone, hheld⟩ := h.unref hu.lt hr
  have hslot := slotOf_mem hd (pdx_lt_utop.2 hva)
  have hframe : p'.frame (slotOf d va) = some pp := by
    unfold Pmap.frame
    rw [hins.pte _ hslot, if_pos rfl, Option.map_some, hppn]
  have hone : ∀ s ∈ pageSlots utopEntries g.dirs, p'.frame s = some pp → s = slotOf d va := by
    intro s hs hf
    by_contra hne
    unfold Pmap.frame at hf
    rw [hins.pte s hs, if_neg hne] at hf
    exact hnone s hs hf
  have hout := (hins.acct.usable_of_frame hslot hframe).outside
  have href := hins.acct.ref pp (by rw [hins.npage]; exact hu.lt)
  have htable : count (tableSlots utopEntries g.dirs) p'.table pp = 0 := count_eq_zero.2 hout.table
  have hpage : count (pageSlots utopEntries g.dirs) p'.frame pp = 1 := count_eq_one hslot hframe hone
  have hsum : refs utopEntries p' (g.settle pp) pp =
      count (tableSlots utopEntries g.dirs) p'.table pp +
        count (pageSlots utopEntries g.dirs) p'.frame pp + g.held pp := rfl
  have hrefs : (p'.ppRef pp).toNat = 1 := by rw [href, hsum, htable, hpage, hheld]
  rw [BitVec.lt_def, hrefs]
  decide

theorem entryOf_pteD (pp : Nat) (perm : Word) : (entryOf pp (perm ||| pteD) &&& pteD != 0) = true := by
  have hbit : (entryOf pp (perm ||| pteD) &&& pteD).getLsbD 8 = true := by
    have hd : pteD.getLsbD 8 = true := by decide
    unfold entryOf
    simp [hd]
  rw [bne_iff_ne]
  intro hc
  rw [hc] at hbit
  cases hbit

/-- **The way through `UTEMP`**: the page of the child is filled, and nothing else has changed in the child. -/
theorem copy_through {k : Kernel} {cur child : EnvIx} {childId : Word} {src : Nat → BitVec 8}
    (h : Acct utopEntries p g) (hdc : (k.envs child).envPgdir ∈ g.dirs) (hdp : (k.envs cur).envPgdir ∈ g.dirs)
    (hne : (k.envs child).envPgdir ≠ (k.envs cur).envPgdir) (hcur : k.curPgdir = (k.envs cur).envPgdir)
    (hid : envid2env k cur childId true = some child) (hlegal : isIllegalVa m.va = false)
    (hperm : m.perm ||| pteD < 4096) (hppn : ∀ perm, perm < 4096 → ppn (entryOf pp perm) = pp)
    (hperm' : m.perm < 4096) (hw : p.pte (slotOf (k.envs child).envPgdir m.va) = some (entryOf pp m.perm))
    (hr : p.ppRef pp < 65535) (hfree : 1 ≤ p.pageFreeList.length) : ∃ p' g',
      ((result (sysMemMap (k.setPm p) cur childId m.va 0 utemp (m.perm ||| pteD))).bind fun (r, k₂) =>
        if r ≠ 0 then (result (sysMemUnmap k₂ cur childId m.va)).map fun (_, k₃) => (r, k₃)
        else (memcpy k₂ utemp m.offset src m.len).bind fun k₃ =>
          result (sysMemUnmap k₃ cur 0 utemp)) = some (0, k.setPm p') ∧
      Acct utopEntries p' g' ∧ g'.dirs = g.dirs ∧
      (∀ va < utop, p'.pte (slotOf (k.envs child).envPgdir va) = p.pte (slotOf (k.envs child).envPgdir va)) ∧
      (∀ va < utop, ∀ f, p.frame (slotOf (k.envs child).envPgdir va) = some f → f ≠ pp → p'.mem f = p.mem f) ∧
      (∀ a, byteAt (p'.mem pp) a = if m.offset ≤ a ∧ a < m.offset + m.len then src (a - m.offset)
        else byteAt (p.mem pp) a) ∧
      p.pageFreeList.length ≤ p'.pageFreeList.length + 1 := by
  have hva : m.va < utop := legal_lt hlegal
  have htemp : utemp < utop := by decide
  have hslot := slotOf_mem hdc (pdx_lt_utop.2 hva)
  have hslotT := slotOf_mem hdp (pdx_lt_utop.2 htemp)
  have hframe : p.frame (slotOf (k.envs child).envPgdir m.va) = some pp := by
    unfold Pmap.frame
    rw [hw, Option.map_some, hppn _ hperm']
  have hu := h.usable_of_frame hslot hframe
  -- `syscall_mem_map`
  obtain ⟨t, ht, -, -⟩ := table_of_pte hw
  obtain ⟨hlookup, -, -⟩ := h.lookup_some hdc (pdx_lt_utop.2 hva) ht hw
  rw [hppn _ hperm'] at hlookup
  obtain ⟨p₁, hi, hins, hlen⟩ := insert_succeeds h hdp htemp (k.envs cur).envAsid hu hr hperm hfree
  have hmap : result (sysMemMap (k.setPm p) cur childId m.va 0 utemp (m.perm ||| pteD)) = some (0, k.setPm p₁) := by
    have hid' : envid2env (k.setPm p) cur childId true = some child := hid
    have hself : envid2env (k.setPm p) cur 0 true = some cur := rfl
    have hut : isIllegalVa utemp = false := by decide
    unfold sysMemMap
    rw [hlegal, hut, hid', hself]
    dsimp only [Kernel.setPm]
    rw [hlookup]
    rw [Option.bind_some]
    dsimp only
    rw [Bool.or_self, if_neg Bool.false_ne_true, hi]
    rfl
  have hw₁ : p₁.pte (slotOf (k.envs cur).envPgdir utemp) = some (entryOf pp (m.perm ||| pteD)) := by
    rw [hins.pte _ hslotT, if_pos rfl]
  have hframe₁ : p₁.frame (slotOf (k.envs cur).envPgdir utemp) = some pp := by
    unfold Pmap.frame
    rw [hw₁, Option.map_some, hppn _ hperm]
  have hu₁ := hins.acct.usable_of_frame hslotT hframe₁
  -- `memcpy`
  obtain ⟨t₁, ht₁, -, -⟩ := table_of_pte hw₁
  obtain ⟨hlookup₁, hread, -⟩ := hins.acct.lookup_some hdp (pdx_lt_utop.2 htemp) ht₁ hw₁
  rw [hppn _ hperm] at hlookup₁
  have hcopy : memcpy (k.setPm p₁) utemp m.offset src m.len = some (k.setPm (p₁.copyIn pp m.offset src m.len)) := by
    have hd : p₁.read (t₁, ptx utemp) &&& pteD != 0 := by
      show p₁.mem t₁ (ptx utemp) &&& pteD != 0
      rw [hread]
      exact entryOf_pteD pp m.perm
    unfold memcpy
    dsimp only [Kernel.setPm]
    rw [hcur, hlookup₁, Option.bind_some]
    exact if_pos hd
  obtain ⟨hacct₂, hsame₂⟩ := copyIn_acct hins.acct hu₁.outside m.offset src m.len
  obtain ⟨-, -, hfl₂, hmem₂⟩ := copyIn_frame pp m.offset src m.len p₁
  -- `syscall_mem_unmap`
  obtain ⟨p₃, hrm, hacct₃, -, -, hset, -, -, hmem₃, -⟩ :=
    hacct₂.removePage hdp (pdx_lt_utop.2 htemp) (k.envs cur).envAsid
  have hunmap : result (sysMemUnmap (k.setPm (p₁.copyIn pp m.offset src m.len)) cur 0 utemp) =
      some (0, k.setPm p₃) := by
    have hself : envid2env (k.setPm (p₁.copyIn pp m.offset src m.len)) cur 0 true = some cur := rfl
    have hut : isIllegalVa utemp = false := by decide
    unfold sysMemUnmap
    rw [hut, hself]
    dsimp only [Kernel.setPm]
    rw [if_neg Bool.false_ne_true, hrm]
    rfl
  have hslots : ∀ va, slotOf (k.envs child).envPgdir va ≠ slotOf (k.envs cur).envPgdir utemp :=
    fun va hc => hne (Prod.mk.inj hc).1
  have hpte : ∀ va < utop, p₃.pte (slotOf (k.envs child).envPgdir va) = p.pte (slotOf (k.envs child).envPgdir va) := by
    intro va hva'
    have hslot' := slotOf_mem hdc (pdx_lt_utop.2 hva')
    rw [hset _ hslot', if_neg (hslots va), hsame₂.pte _ hslot', hins.pte _ hslot', if_neg (hslots va)]
  have hframe₂ : (p₁.copyIn pp m.offset src m.len).frame (slotOf (k.envs cur).envPgdir utemp) = some pp := by
    rw [hsame₂.frame _ hslotT, hframe₁]
  refine ⟨p₃, _, ?_, hacct₃, rfl, hpte, ?_, ?_, ?_⟩
  · rw [hmap, Option.bind_some]
    dsimp only
    rw [if_neg (not_not.2 rfl), hcopy, Option.bind_some]
    exact hunmap
  · intro va hva' f hf hfp
    have hs := slotOf_mem hdc (pdx_lt_utop.2 hva')
    have hf₁ : (p₁.copyIn pp m.offset src m.len).frame (slotOf (k.envs child).envPgdir va) = some f := by
      rw [hsame₂.frame _ hs]
      unfold Pmap.frame at hf ⊢
      rw [hins.pte _ hs, if_neg (hslots va), hf]
    rw [hmem₃ f (hacct₂.usable_of_frame hs hf₁).outside, hmem₂ f hfp, mem_insert h hins hs hf]
  · intro a
    rw [hmem₃ pp (hacct₂.usable_of_frame hslotT hframe₂).outside, copyIn_bytes]
    rw [hins.mem pp hu.outside fun _ => hu.notFree]
  · have hlen₂ := remove_length hrm
    rw [hfl₂] at hlen₂
    omega

/-- **`spawn_mapper` puts one page** in the child. -/
theorem spawnMapper_puts {k : Kernel} {cur child : EnvIx} {childId : Word} (h : Acct utopEntries p g)
    (hdc : (k.envs child).envPgdir ∈ g.dirs) (hdp : (k.envs cur).envPgdir ∈ g.dirs)
    (hne : (k.envs child).envPgdir ≠ (k.envs cur).envPgdir) (hcur : k.curPgdir = (k.envs cur).envPgdir)
    (hid : envid2env k cur childId true = some child) (hlegal : isIllegalVa m.va = false) (hperm : m.perm < 4096)
    (hpermD : m.perm ||| pteD < 4096) (hfree : 3 ≤ p.pageFreeList.length) :
    ∃ p' g', spawnMapper cur childId m (k.setPm p) = some (0, k.setPm p') ∧ Acct utopEntries p' g' ∧ g'.dirs = g.dirs ∧
      Puts p p' (k.envs child).envPgdir m ∧ p.pageFreeList.length ≤ p'.pageFreeList.length + 3 := by
  have hva : m.va < utop := legal_lt hlegal
  obtain ⟨pp, p₁, ht⟩ := exists_page h (Nat.le_trans (by decide) hfree)
  have hlen₁ := ht.length
  have hslot := slotOf_mem hdc (pdx_lt_utop.2 hva)
  -- `syscall_mem_alloc`
  obtain ⟨p₂, hi₂, hins₂, hlen₂⟩ :=
    insert_succeeds ht.acct hdc hva (k.envs child).envAsid ht.usable (by rw [ht.ref]; decide) hperm (by omega)
  have halloc : result (sysMemAlloc (k.setPm p) cur childId m.va m.perm) = some (0, k.setPm p₂) := by
    have hid' : envid2env (k.setPm p) cur childId true = some child := hid
    unfold sysMemAlloc
    rw [hlegal, hid']
    dsimp only [Kernel.setPm]
    rw [ht.alloc]
    dsimp only
    rw [hi₂]
    rfl
  have hpte₂ : ∀ va < utop, p₂.pte (slotOf (k.envs child).envPgdir va) =
      if slotOf (k.envs child).envPgdir va = slotOf (k.envs child).envPgdir m.va then some (entryOf pp m.perm)
      else p.pte (slotOf (k.envs child).envPgdir va) := by
    intro va hva'
    have hslot := slotOf_mem hdc (pdx_lt_utop.2 hva')
    rw [hins₂.pte _ hslot, ht.same.pte _ hslot]
  have hw₂ : p₂.pte (slotOf (k.envs child).envPgdir m.va) = some (entryOf pp m.perm) := by rw [hpte₂ _ hva, if_pos rfl]
  have hmem₂ : ∀ va < utop, ∀ f, p.frame (slotOf (k.envs child).envPgdir va) = some f → p₂.mem f = p.mem f := by
    intro va hva' f hf'
    have hs := slotOf_mem hdc (pdx_lt_utop.2 hva')
    obtain ⟨hf₁, hfp⟩ := ht.frame hs hf'
    rw [mem_insert ht.acct hins₂ hs hf₁, ht.mem f hfp]
  have hpp₂ : p₂.mem pp = p₁.mem pp := hins₂.mem pp ht.usable.outside fun _ => ht.usable.notFree
  unfold spawnMapper
  rw [halloc, Option.bind_some]
  dsimp only
  rw [if_neg (not_not.2 rfl)]
  cases hsrc : m.src with
  | none =>
    refine ⟨p₂, _, rfl, hins₂.acct, rfl,
      puts_of ht.lt hperm hpte₂ (fun a => ?_) (fun va hva' _ => hmem₂ va hva'), by omega⟩
    rw [hpp₂, ht.zero, MapPage.bytes, hsrc]
  | some src =>
    obtain ⟨p₃, g₃, hcall, hacct₃, hdirs₃, hpte₃, hmem₃, hbytes₃, hlen₃⟩ := copy_through hins₂.acct hdc hdp hne hcur hid
      hlegal hpermD (fun perm => ht.ppn) hperm hw₂
        (ref_inserted ht.acct ht.usable ht.ref hins₂ hdc hva (ht.ppn hperm)) (by omega)
    refine ⟨p₃, g₃, hcall, hacct₃, hdirs₃, puts_of ht.lt hperm (fun va hva' => ?_) (fun a => ?_)
      (fun va hva' hv f hf' => ?_), by omega⟩
    · rw [hpte₃ va hva', hpte₂ va hva']
    · rw [hbytes₃, hpp₂, ht.zero, MapPage.bytes, hsrc]
    · have hf₂ : p₂.frame (slotOf (k.envs child).envPgdir va) = some f := by
        unfold Pmap.frame at hf' ⊢
        rw [hpte₂ va hva', if_neg fun hc => hv ((slotOf_eq_iff _ va m.va).1 hc), hf']
      rw [hmem₃ va hva' f hf₂ (ht.frame (slotOf_mem hdc (pdx_lt_utop.2 hva')) hf').2, hmem₂ va hva' f hf']

end

/-! ## One segment -/

/-- The page that `init_stack` has given to the child. -/
def stackPage : Word := ustacktop - BitVec.ofNat 32 pageSize

/-- **A segment that both loaders take**: it lies where user pages lie, apart from the stack page, and its content is in
the file. -/
structure Fits (f : File) (ph : Elf32Phdr) : Prop where
  low : utemp.toNat ≤ ph.pVaddr.toNat
  high : ph.pVaddr.toNat + max ph.pFilesz.toNat ph.pMemsz.toNat ≤ utop.toNat
  apart : ph.pVaddr.toNat + max ph.pFilesz.toNat ph.pMemsz.toNat ≤ stackPage.toNat ∨ ustacktop.toNat ≤ ph.pVaddr.toNat
  offset : ph.pOffset.toNat < f.size.toNat
  content : ph.pOffset.toNat + ph.pFilesz.toNat ≤ f.size.toNat

/-- The content of a segment. -/
def File.segment (f : File) (ph : Elf32Phdr) : Bytes := fun i => f.byte (ph.pOffset.toNat + i)

/-- A call that both mappers take. -/
structure Taken (m : MapPage) : Prop where
  legal : isIllegalVa m.va = false
  perm : m.perm < 4096
  permD : m.perm ||| pteD < 4096
  apart : vpn m.va ≠ vpn stackPage

theorem segPages_va {ph : Elf32Phdr} {bin : Bytes} {m : MapPage} (h : m ∈ segPages ph bin) :
    (∃ i, m.va = ph.pVaddr + BitVec.ofNat 32 i ∧
      (i < max ph.pFilesz.toNat ph.pMemsz.toNat ∨ i = 0 ∧ ph.pVaddr.toNat % pageSize ≠ 0)) ∧
    (m.perm = pteV ∨ m.perm = pteV ||| pteD) := by
  have hperm : SegImage.perm ph = pteV ∨ SegImage.perm ph = pteV ||| pteD := by
    unfold SegImage.perm
    split
    · exact .inr rfl
    · exact .inl rfl
  have hp : pageSize = 4096 := rfl
  rw [SegImage.segPages_eq, List.mem_append, List.mem_append] at h
  rcases h with (h | h) | h
  · split at h
    · rename_i hoff
      obtain rfl := List.mem_singleton.1 h
      exact ⟨⟨0, (BitVec.add_zero _).symm, .inr ⟨rfl, hoff⟩⟩, hperm⟩
    · cases h
  · obtain ⟨k, hk, rfl⟩ := List.mem_map.1 h
    have hk := List.mem_range.1 hk
    refine ⟨⟨_, rfl, .inl ?_⟩, hperm⟩
    unfold SegImage.contentPages at hk
    rw [hp] at hk ⊢
    omega
  · obtain ⟨k, hk, rfl⟩ := List.mem_map.1 h
    have hk := List.mem_range.1 hk
    refine ⟨⟨_, rfl, .inl ?_⟩, hperm⟩
    unfold SegImage.zeroPages at hk
    rw [hp] at hk ⊢
    omega

theorem Fits.taken {f : File} {ph : Elf32Phdr} (h : Fits f ph) {bin : Bytes} {m : MapPage} (hm : m ∈ segPages ph bin) :
    Taken m := by
  obtain ⟨⟨i, hva, hi⟩, hperm⟩ := segPages_va hm
  have htop : utop.toNat = 0x7f400000 := rfl
  have htemp : utemp.toNat = 0x3fe000 := by decide
  have hst : ustacktop.toNat = 0x7f3fe000 := by decide
  have hsp : stackPage.toNat = 0x7f3fd000 := by decide
  have hp : pageSize = 4096 := rfl
  rw [hp] at hi
  have hlow := h.low
  have hhigh := h.high
  have hapart := h.apart
  have hnat : m.va.toNat = ph.pVaddr.toNat + i := by
    rw [hva, BitVec.toNat_add, BitVec.toNat_ofNat]
    omega
  refine ⟨?_, ?_, ?_, ?_⟩
  · unfold isIllegalVa
    rw [Bool.or_eq_false_iff, decide_eq_false_iff_not, decide_eq_false_iff_not, BitVec.lt_def, ge_iff_le, BitVec.le_def]
    omega
  · rcases hperm with h | h <;> rw [h] <;> decide
  · rcases hperm with h | h <;> rw [h] <;> decide
  · have hvpn : ∀ w : Word, vpn w = w.toNat / 4096 := by
      intro w
      unfold vpn pgshift
      rw [BitVec.toNat_ushiftRight, Nat.shiftRight_eq_div_pow]
    rw [hvpn, hvpn, hnat, hsp]
    omega

/-! ## Runs of calls -/

/-- The space `d` shows an image, and there are `n` free pages. -/
structure ShowsImage (p : Pmap) (dirs : Finset Nat) (d : Nat) (img : Image) (n : Nat) : Prop where
  acct : ∃ g, Acct utopEntries p g ∧ g.dirs = dirs
  page : ∀ va < utop, img (vpn va) = pageAt p d va
  room : n ≤ p.pageFreeList.length

theorem ShowsImage.put {p p' : Pmap} {dirs : Finset Nat} {d n : Nat} {img : Image} {g : Ledger} {m : MapPage}
    (h : ShowsImage p dirs d img (n + 3)) (hacct : Acct utopEntries p' g) (hdirs : g.dirs = dirs)
    (hputs : Puts p p' d m) (hlen : p.pageFreeList.length ≤ p'.pageFreeList.length + 3) :
    ShowsImage p' dirs d (img.put m) n := by
  refine ⟨⟨g, hacct, hdirs⟩, fun va hva => ?_, ?_⟩
  · rw [hputs va hva]
    unfold Image.put
    by_cases hv : vpn va = vpn m.va
    · rw [if_pos hv, hv, Function.update_self]
    · rw [if_neg hv, Function.update_of_ne hv, h.page va hva]
  · have := h.room
    omega

/-- **A run of calls**: each has the memory it takes. -/
theorem mapPages_runs {σ : Type} {f : MapPage → σ → Option (Int × σ)} {Ok : σ → Image → Nat → Prop} :
    ∀ {ms : List MapPage}
    {s : σ} {img : Image} {n : Nat},
    (∀ m ∈ ms, ∀ s img n, Ok s img (n + 3) → ∃ s', f m s = some (0, s') ∧ Ok s' (img.put m) n) →
    Ok s img (n + 3 * ms.length) →
    ∃ s', mapPages f ms s = some (0, s') ∧ Ok s' (ms.foldl Image.put img) n
  | [], s, img, n, _, h => ⟨s, rfl, h⟩
  | m :: ms, s, img, n, hstep, h => by
    have hroom : n + 3 * (m :: ms).length = n + 3 * ms.length + 3 := by
      rw [List.length_cons]
      omega
    rw [hroom] at h
    obtain ⟨s₁, hs₁, hok₁⟩ := hstep m List.mem_cons_self s img _ h
    obtain ⟨s₂, hs₂, hok₂⟩ := mapPages_runs (fun x hx => hstep x (List.mem_cons_of_mem _ hx)) hok₁
    refine ⟨s₂, ?_, hok₂⟩
    unfold mapPages
    rw [hs₁, Option.bind_some, if_neg (not_not.2 rfl), hs₂]

/-- The calls for some headers. -/
def callsOf (f : File) (phs : List Elf32Phdr) : List MapPage :=
  phs.flatMap fun ph => if ph.pType = ptLoad then segPages ph (f.segment ph) else []

theorem callsOf_cons (f : File) (ph : Elf32Phdr) (phs : List Elf32Phdr) :
    callsOf f (ph :: phs) = (if ph.pType = ptLoad then segPages ph (f.segment ph) else []) ++
    callsOf f phs := List.flatMap_cons

theorem readMap_eq {f : File} {ph : Elf32Phdr} (h : Fits f ph) : f.readMap ph.pOffset = .ok (f.segment ph) := by
  have hmax : f.size.toNat ≤ 4194304 := f.bounded
  have hoff := h.offset
  have hlim : ¬BitVec.ofNat 32 maxFileSize ≤ ph.pOffset := by
    have hnat : (BitVec.ofNat 32 maxFileSize).toNat = 4194304 := by decide
    rw [BitVec.le_def, hnat]
    omega
  have hpage : ¬f.size.toNat ≤ ph.pOffset.toNat / pageSize * pageSize := by
    have hp : pageSize = 4096 := rfl
    rw [hp]
    omega
  unfold File.readMap
  rw [if_neg hlim, if_neg hpage]
  rfl

/-! ## The loaders -/

section

variable {f : File} {elfbuf : Bytes} {ehdr : Elf32Ehdr} {ph : Elf32Phdr}

/-- The file in memory. -/
def File.binary (f : File) : Binary := ⟨f.size.toNat, f.byte⟩

/-- **`load_icode`, over some headers.** -/
theorem loadIcode_runs {dirs : Finset Nat} {d : Nat} (hd : d ∈ dirs) (asid : Word) :
    ∀ {phs : List Elf32Phdr} {p : Pmap} {img : Image} {n : Nat},
    (∀ ph ∈ phs, ph.pType = ptLoad → Fits f ph) → ShowsImage p dirs d img (n + 3 * (callsOf f phs).length) →
    ∃ p', phs.foldlM (fun p ph =>
      if ph.pType = ptLoad then
        (elfLoadSeg ph (fun i => f.binary.byte (ph.pOffset.toNat + i)) (loadIcodeMapper d asid) p).bind fun r =>
        if r.1 = 0 then some r.2 else none
      else some p) p = some p' ∧ ShowsImage p' dirs d ((callsOf f phs).foldl Image.put img) n
  | [], p, img, n, _, h => ⟨p, rfl, h⟩
  | ph :: phs, p, img, n, hfit, h => by
    rw [callsOf_cons, List.length_append] at h
    have hrest : ∀ x ∈ phs, x.pType = ptLoad → Fits f x := fun x hx => hfit x (List.mem_cons_of_mem _ hx)
    rw [callsOf_cons, List.foldl_append, List.foldlM_cons]
    by_cases hl : ph.pType = ptLoad
    · rw [if_pos hl] at h
      have hroom : n + 3 * ((segPages ph (f.segment ph)).length + (callsOf f phs).length) =
          n + 3 * (callsOf f phs).length + 3 * (segPages ph (f.segment ph)).length := by omega
      rw [hroom] at h
      obtain ⟨p₁, hp₁, hok₁⟩ := @mapPages_runs Pmap (loadIcodeMapper d asid) (fun p img n => ShowsImage p dirs d img n)
        _ p img _ (fun m hm p img n hok => by
          obtain ⟨g, hacct, rfl⟩ := hok.acct
          have htaken := (hfit ph List.mem_cons_self hl).taken hm
          have hroom := hok.room
          obtain ⟨p', g', hcall, hacct', hdirs, hputs, hlen⟩ :=
            loadIcodeMapper_puts hacct hd asid (legal_lt htaken.legal) htaken.perm (by omega)
          exact ⟨p', hcall, hok.put hacct' hdirs hputs (by omega)⟩) h
      obtain ⟨p₂, hp₂, hok₂⟩ := loadIcode_runs hd asid hrest hok₁
      have hload : elfLoadSeg ph (fun i => f.binary.byte (ph.pOffset.toNat + i)) (loadIcodeMapper d asid) p =
          some (0, p₁) := hp₁
      rw [if_pos hl, if_pos hl, hload]
      exact ⟨p₂, hp₂, hok₂⟩
    · rw [if_neg hl] at h
      rw [List.length_nil, Nat.zero_add] at h
      obtain ⟨p₂, hp₂, hok₂⟩ := loadIcode_runs hd asid hrest h
      rw [if_neg hl, if_neg hl]
      exact ⟨p₂, hp₂, hok₂⟩

/-- The child of `spawn` with an image, in a kernel that is `k` but for the pages. -/
def ShowsChild (k : Kernel) (dirs : Finset Nat) (child : EnvIx) (s : Kernel) (img : Image) (n : Nat) : Prop :=
  ∃ p, s = k.setPm p ∧ ShowsImage p dirs (k.envs child).envPgdir img n

/-- **`spawn`, for one header.** -/
theorem loadSegment_runs {k s : Kernel} {dirs : Finset Nat} {cur child : EnvIx} {childId : Word} {img : Image} {n : Nat}
    (hdc : (k.envs child).envPgdir ∈ dirs) (hdp : (k.envs cur).envPgdir ∈ dirs)
    (hne : (k.envs child).envPgdir ≠ (k.envs cur).envPgdir) (hcur : k.curPgdir = (k.envs cur).envPgdir)
    (hid : envid2env k cur childId true = some child) (hfit : Fits f ph)
    (h : ShowsChild k dirs child s img (n + 3 * (segPages ph (f.segment ph)).length)) :
    ∃ s', loadSegment f cur childId ph s = some (0, s') ∧
    ShowsChild k dirs child s' ((segPages ph (f.segment ph)).foldl Image.put img) n := by
  unfold loadSegment
  rw [readMap_eq hfit]
  refine mapPages_runs (fun m hm s img n hok => ?_) h
  obtain ⟨p, rfl, hok⟩ := hok
  obtain ⟨g, hacct, rfl⟩ := hok.acct
  have htaken := hfit.taken hm
  have hroom := hok.room
  obtain ⟨p', g', hcall, hacct', hdirs, hputs, hlen⟩ :=
    spawnMapper_puts hacct hdc hdp hne hcur hid htaken.legal htaken.perm htaken.permD (by omega)
  exact ⟨_, hcall, p', rfl, hok.put hacct' hdirs hputs (by omega)⟩

/-- The headers from turn `k` on, as the loop has them in `elfbuf`. -/
def turnsFrom (f : File) (elfbuf : Bytes) (ehdr : Elf32Ehdr) (k : Nat) : List Elf32Phdr :=
  (List.range' k (ehdr.ePhnum - k)).map fun i => (elfOf (f.held elfbuf ehdr (i + 1))).phdr 0

theorem turnsFrom_cons {k : Nat} (hk : k < ehdr.ePhnum) :
    turnsFrom f elfbuf ehdr k = (elfOf (f.held elfbuf ehdr (k + 1))).phdr 0 :: turnsFrom f elfbuf ehdr (k + 1) := by
  unfold turnsFrom
  have hsub : ehdr.ePhnum - k = (ehdr.ePhnum - (k + 1)) + 1 := by omega
  rw [hsub, List.range'_succ, List.map_cons]

/-- **The loop of `spawn`, when every load succeeds.** -/
theorem phdrLoop_runs {σ : Type} {r : Results σ} {Ok : σ → Image → Nat → Prop} (ho : Outlives f elfbuf ehdr)
    (hload : ∀ i < ehdr.ePhnum, ((elfOf (f.held elfbuf ehdr (i + 1))).phdr 0).pType = ptLoad →
      ∀ s img n, Ok s img (n + 3 *
        (segPages ((elfOf (f.held elfbuf ehdr (i + 1))).phdr 0)
          (f.segment ((elfOf (f.held elfbuf ehdr (i + 1))).phdr 0))).length) →
          ∃ s', r.load ((elfOf (f.held elfbuf ehdr (i + 1))).phdr 0) s = some (0, s') ∧
          Ok s' ((segPages ((elfOf (f.held elfbuf ehdr (i + 1))).phdr 0)
            (f.segment ((elfOf (f.held elfbuf ehdr (i + 1))).phdr 0))).foldl Image.put img) n) :
    ∀ (n k : Nat) (off : Word) (s : σ) (img : Image), ehdr.ePhnum - k = n → k ≤ ehdr.ePhnum →
    (k < ehdr.ePhnum → off = offsetOf ehdr k) →
      ∀ room, Ok s img (room + 3 * (callsOf f (turnsFrom f elfbuf ehdr k)).length) →
      ∃ s', phdrLoop r f k off (f.held elfbuf ehdr k) s = (headersFrom ehdr k, s', none) ∧
        Ok s' ((callsOf f (turnsFrom f elfbuf ehdr k)).foldl Image.put img) room
  | 0, k, off, s, img, hn, hk, _, room, h => by
    obtain rfl : k = ehdr.ePhnum := by omega
    have hnil : turnsFrom f elfbuf ehdr ehdr.ePhnum = [] := by
      unfold turnsFrom
      rw [Nat.sub_self]
      rfl
    rw [hnil] at h ⊢
    rw [phdrLoop_end ho, headersFrom_nil (Nat.le_refl _)]
    exact ⟨s, rfl, h⟩
  | n + 1, k, off, s, img, hn, hk, hoff, room, h => by
    have hlt : k < ehdr.ePhnum := by omega
    obtain rfl := hoff hlt
    rw [turnsFrom_cons hlt, callsOf_cons, List.length_append] at h
    rw [turnsFrom_cons hlt, callsOf_cons, List.foldl_append, phdrLoop_turn ho r hlt, headersFrom_cons hlt,
      turn_held (ho.stride k hlt) (ho.inside k hlt)]
    obtain ⟨s₁, hs₁, hok₁⟩ : ∃ s₁, (if ((elfOf (f.held elfbuf ehdr (k + 1))).phdr 0).pType = ptLoad then
          r.load ((elfOf (f.held elfbuf ehdr (k + 1))).phdr 0) s else some (0, s)) = some (0, s₁) ∧
        Ok s₁ ((if ((elfOf (f.held elfbuf ehdr (k + 1))).phdr 0).pType = ptLoad then
          segPages ((elfOf (f.held elfbuf ehdr (k + 1))).phdr 0)
            (f.segment ((elfOf (f.held elfbuf ehdr (k + 1))).phdr 0)) else []).foldl
            Image.put img) (room + 3 * (callsOf f (turnsFrom f elfbuf ehdr (k + 1))).length) := by
      by_cases hl : ((elfOf (f.held elfbuf ehdr (k + 1))).phdr 0).pType = ptLoad
      · rw [if_pos hl] at h
        rw [if_pos hl, if_pos hl]
        refine hload k hlt hl s img _ ?_
        have hroom : ∀ a b : Nat, room + 3 * (a + b) = room + 3 * b + 3 * a := by
          intro a b
          omega
        rw [← hroom]
        exact h
      · rw [if_neg hl, List.length_nil, Nat.zero_add] at h
        rw [if_neg hl, if_neg hl]
        exact ⟨s, rfl, h⟩
    rw [hs₁]
    dsimp only
    rw [if_neg (Int.lt_irrefl 0)]
    dsimp only
    obtain ⟨s₂, hs₂, hok₂⟩ := phdrLoop_runs ho hload n (k + 1)
      (offsetOf ehdr k + BitVec.ofNat 32 (phentsize (f.held elfbuf ehdr (k + 1)))) s₁ _ (by omega) hlt
      (offset_turn ho) room hok₁
    rw [hs₂]
    exact ⟨s₂, rfl, hok₂⟩

/-! ## The headers in the file -/

/-- Bytes that are those of a file from `o` on. -/
def Copies (b b' : Binary) (o n : Nat) : Prop := ∀ i < n, b.byte i = b'.byte (o + i)

theorem Copies.u16 {b b' : Binary} {o n : Nat} (h : Copies b b' o n) {j : Nat} (hj : j + 1 < n) :
    b.u16 j = b'.u16 (o + j) := by
  unfold Binary.u16
  rw [h j (Nat.lt_of_succ_lt hj), h (j + 1) hj]
  rfl

theorem Copies.u32 {b b' : Binary} {o n : Nat} (h : Copies b b' o n) {j : Nat} (hj : j + 3 < n) :
    b.u32 j = b'.u32 (o + j) := by
  have hlow := h.u16 (j := j) (by omega)
  have hhigh := h.u16 (j := j + 2) (by omega)
  unfold Binary.u32
  rw [hlow, hhigh]
  rfl

theorem Copies.phdr {b b' : Binary} {o n : Nat} (h : Copies b b' o n) (hn : 32 ≤ n) : b.phdr 0 = b'.phdr o := by
  unfold Binary.phdr
  rw [h.u32 (j := 0) (by omega), h.u32 (j := 0 + 4) (by omega), h.u32 (j := 0 + 8) (by omega),
    h.u32 (j := 0 + 16) (by omega),
    h.u32 (j := 0 + 20) (by omega), h.u32 (j := 0 + 24) (by omega)]
  simp only [Nat.zero_add, Nat.add_zero]

theorem Copies.elfFrom {b b' : Binary} {n : Nat} (h : Copies b b' 0 n) (hn : 46 ≤ n) (hsize : sizeofElf32Ehdr ≤ b.size)
    (hsize' : sizeofElf32Ehdr ≤ b'.size) : elfFrom b = elfFrom b' := by
  have hbyte : ∀ i < n, b.byte i = b'.byte i := by
    intro i hi
    rw [h i hi, Nat.zero_add]
  have hu16 : ∀ j, j + 1 < n → b.u16 j = b'.u16 j := by
    intro j hj
    rw [h.u16 hj, Nat.zero_add]
  have hu32 : ∀ j, j + 3 < n → b.u32 j = b'.u32 j := by
    intro j hj
    rw [h.u32 hj, Nat.zero_add]
  unfold Mos.elfFrom
  rw [hbyte 0 (by omega), hbyte 1 (by omega), hbyte 2 (by omega), hbyte 3 (by omega), hu16 16 (by omega),
    hu32 24 (by omega),
    hu32 28 (by omega), hu16 42 (by omega), hu16 44 (by omega)]
  simp only [hsize, hsize']

/-- **A program that both loaders take**: its headers have 32 bytes each and are in the file, and its segments fit. -/
structure Loadable (f : File) (ehdr : Elf32Ehdr) : Prop where
  phentsize : ehdr.ePhentsize = 32
  table : ehdr.ePhoff.toNat + 32 * ehdr.ePhnum ≤ f.size.toNat
  segments : ∀ ph ∈ f.binary.phdrs ehdr, ph.pType = ptLoad → Fits f ph

theorem Accepted.size_le (h : Accepted f elfbuf ehdr) : sizeofElf32Ehdr ≤ f.size.toNat := by
  have hlong := h.long
  rw [readn_eq (by decide)] at hlong
  have hzero : (0 : Word).toNat = 0 := rfl
  rw [hzero, Nat.sub_zero] at hlong
  omega

theorem Accepted.whole (h : Accepted f elfbuf ehdr) : elfFrom f.binary = some ehdr := by
  have hcopies : Copies (elfOf (f.header elfbuf)) f.binary 0 sizeofElf32Ehdr := by
    intro i hi
    exact if_pos hi
  rw [← hcopies.elfFrom (by decide) (Nat.le_refl _) h.size_le]
  exact h.accepts

theorem Loadable.turns (h : Loadable f ehdr) : turnsFrom f elfbuf ehdr 0 = f.binary.phdrs ehdr := by
  unfold turnsFrom Binary.phdrs
  rw [Nat.sub_zero, List.range_eq_range']
  refine List.map_congr_left fun k hk => ?_
  have hk := (List.mem_range'_1.1 hk).2
  rw [Nat.zero_add] at hk
  have hmax : f.size.toNat ≤ 4194304 := f.bounded
  have htable := h.table
  have hoff : (offsetOf ehdr k).toNat = ehdr.ePhoff.toNat + k * ehdr.ePhentsize := by
    unfold offsetOf
    rw [h.phentsize, BitVec.toNat_add, BitVec.toNat_ofNat]
    omega
  have hcopies : Copies (elfOf (f.held elfbuf ehdr (k + 1))) f.binary (ehdr.ePhoff.toNat + k * ehdr.ePhentsize) 32 := by
    intro i hi
    have hn : i < min ehdr.ePhentsize (f.size.toNat - (offsetOf ehdr k).toNat) := by
      rw [hoff, h.phentsize]
      omega
    rw [← hoff]
    exact if_pos hn
  exact hcopies.phdr (Nat.le_refl _)

/-! ## Both loaders -/

/-- The kernel when `spawn` comes to its loop: the child has its stack page only, and there is memory. -/
structure ChildReady (k : Kernel) (cur child : EnvIx) (childId : Word) (calls : Nat) : Prop where
  framed : ∃ g, Framed k g
  running : k.curenv = some cur
  live : (k.envs cur).envStatus ≠ .free ∧ (k.envs child).envStatus ≠ .free
  apart : child ≠ cur
  id : envid2env k cur childId true = some child
  empty : ∀ va < utop, vpn va ≠ vpn stackPage → pageAt k.pm (k.envs child).envPgdir va = none
  room : 3 * calls ≤ k.pm.pageFreeList.length

/-- The kernel when `load_icode` is called for `e`. -/
structure EnvReady (k : Kernel) (e : EnvIx) (calls : Nat) : Prop where
  framed : ∃ g, Framed k g
  live : (k.envs e).envStatus ≠ .free
  empty : ∀ va < utop, pageAt k.pm (k.envs e).envPgdir va = none
  room : 3 * calls ≤ k.pm.pageFreeList.length

theorem exists_image (p : Pmap) (d : Nat) : ∃ img : Image, ∀ va < utop, img (vpn va) = pageAt p d va := by
  refine ⟨fun v => pageAt p d (BitVec.ofNat 32 (v * pageSize)), fun va _ => ?_⟩
  have hv : vpn (BitVec.ofNat 32 (vpn va * pageSize)) = vpn va := by
    have hlt := va.isLt
    unfold vpn pgshift pageSize
    simp only [BitVec.toNat_ushiftRight, Nat.shiftRight_eq_div_pow, BitVec.toNat_ofNat]
    omega
  dsimp only
  unfold pageAt
  rw [(slotOf_eq_iff d _ va).2 hv]

theorem foldl_put_congr {v : Nat} : ∀ {ms : List MapPage} {img img' : Image}, img v = img' v →
    ms.foldl Image.put img v = ms.foldl Image.put img' v
  | [], _, _, h => h
  | m :: ms, img, img', h => by
    rw [List.foldl_cons, List.foldl_cons]
    refine foldl_put_congr ?_
    unfold Image.put
    rw [Function.update_apply, Function.update_apply, h]

theorem foldl_put_apart {v : Nat} :
    ∀ {ms : List MapPage} {img : Image}, (∀ m ∈ ms, vpn m.va ≠ v) → ms.foldl Image.put img v = img v
  | [], _, _ => rfl
  | m :: ms, img, h => by
    rw [List.foldl_cons, foldl_put_apart fun x hx => h x (List.mem_cons_of_mem _ hx)]
    exact Function.update_of_ne (Ne.symm (h m List.mem_cons_self)) _ _

/-- **The two loaders agree**: `spawn` starts its child at the entry point that `load_icode` sets, and apart from the
stack page the child has the pages that `load_icode` makes, with the same bytes and the same flags. -/
theorem loaders_agree {k k₀ : Kernel} {cur child e : EnvIx} {childId : Word} (hacc : Accepted f elfbuf ehdr)
    (hfit : Loadable f ehdr) (hk : ChildReady k cur child childId (callsOf f (f.binary.phdrs ehdr)).length)
    (hk₀ : EnvReady k₀ e (callsOf f (f.binary.phdrs ehdr)).length) (sp : Word) :
    ∃ k' k₀', spawn ⟨0, sp, loadSegment f cur childId, 0⟩ f elfbuf k =
        (headersFrom ehdr 0 ++ [.trapframe (k₀'.envs e).envTf.cp0Epc sp], k', .started) ∧
      loadIcode k₀ e f.binary = some k₀' ∧
      (∀ va < utop, vpn va ≠ vpn stackPage →
        pageAt k'.pm (k'.envs child).envPgdir va = pageAt k₀'.pm (k₀'.envs e).envPgdir va) ∧
      pageAt k'.pm (k'.envs child).envPgdir stackPage = pageAt k.pm (k.envs child).envPgdir stackPage := by
  obtain ⟨g, hg⟩ := hk.framed
  obtain ⟨g₀, hg₀⟩ := hk₀.framed
  have hdc := hg.mem hk.live.2
  have hdp := hg.mem hk.live.1
  have hne : (k.envs child).envPgdir ≠ (k.envs cur).envPgdir := fun hc => hk.apart (hg.inj _ _ hk.live.2 hk.live.1 hc)
  have hcur := hg.cur cur hk.running
  have hout : Outlives f elfbuf ehdr := outlives_short hacc (by rw [hfit.phentsize]; decide)
  obtain ⟨img, himg⟩ := exists_image k.pm (k.envs child).envPgdir
  obtain ⟨img₀, himg₀⟩ := exists_image k₀.pm (k₀.envs e).envPgdir
  -- `spawn`
  have hfits : ∀ ph ∈ turnsFrom f elfbuf ehdr 0, ph.pType = ptLoad → Fits f ph := by
    rw [hfit.turns]
    exact hfit.segments
  have hmem : ∀ i < ehdr.ePhnum, (elfOf (f.held elfbuf ehdr (i + 1))).phdr 0 ∈ turnsFrom f elfbuf ehdr 0 := by
    intro i hi
    exact List.mem_map.2 ⟨i, List.mem_range'_1.2 ⟨Nat.zero_le _, by omega⟩, rfl⟩
  have hstart : ShowsChild k g.dirs child k img (0 + 3 * (callsOf f (turnsFrom f elfbuf ehdr 0)).length) := by
    rw [hfit.turns, Nat.zero_add]
    exact ⟨k.pm, rfl, ⟨g, hg.sound.acct, rfl⟩, himg, hk.room⟩
  obtain ⟨k', hloop, p', rfl, hshows⟩ := phdrLoop_runs (r := ⟨0, sp, loadSegment f cur childId, 0⟩) hout
    (fun i hi hl s img n hok => loadSegment_runs hdc hdp hne hcur hk.id (hfits _ (hmem i hi) hl) hok) _ 0 ehdr.ePhoff
    k img rfl (Nat.zero_le _)
    (fun _ => (offsetOf_zero ehdr).symm) 0 hstart
  rw [hfit.turns] at hshows
  -- `load_icode`
  obtain ⟨p₀', hload, hshows₀⟩ := loadIcode_runs (hg₀.mem hk₀.live) (k₀.envs e).envAsid (n := 0) hfit.segments
    (by rw [Nat.zero_add]; exact ⟨⟨g₀, hg₀.sound.acct, rfl⟩, himg₀, hk₀.room⟩)
  refine ⟨k.setPm p', (k₀.setPm p₀').setEnv e (fun v => { v with envTf := { v.envTf with cp0Epc := ehdr.eEntry } }),
    ?_, ?_, ?_, ?_⟩
  · rw [spawn_eq hacc (Int.lt_irrefl 0), hloop]
    dsimp only [Kernel.setEnv]
    rw [Function.update_self, if_neg (not_not.2 rfl)]
  · unfold loadIcode
    rw [hacc.whole, Option.bind_some, hload]
    rfl
  · -- both images start empty
    intro va hva hv
    have hdir : (((k₀.setPm p₀').setEnv e fun v =>
      { v with envTf := { v.envTf with cp0Epc := ehdr.eEntry } }).envs e).envPgdir =
        (k₀.envs e).envPgdir := by
      dsimp only [Kernel.setEnv, Kernel.setPm]
      rw [Function.update_self]
    have hstart : img (vpn va) = img₀ (vpn va) := by
      rw [himg va hva, himg₀ va hva, hk.empty va hva hv, hk₀.empty va hva]
    rw [hdir]
    show pageAt p' (k.envs child).envPgdir va = pageAt p₀' (k₀.envs e).envPgdir va
    rw [← hshows.page va hva, ← hshows₀.page va hva]
    exact foldl_put_congr hstart
  · -- no segment reaches the stack page
    have hstack : stackPage < utop := by decide
    show pageAt p' (k.envs child).envPgdir stackPage = pageAt k.pm (k.envs child).envPgdir stackPage
    rw [← hshows.page _ hstack, ← himg _ hstack]
    refine foldl_put_apart fun m hm => ?_
    obtain ⟨ph, hph, hm⟩ := List.mem_flatMap.1 hm
    by_cases hl : ph.pType = ptLoad
    · rw [if_pos hl] at hm
      exact ((hfit.segments ph hph hl).taken hm).apart
    · rw [if_neg hl] at hm
      cases hm

end

/-! ## A small image -/

/-- An image with one segment: a byte at `0x400000`, and three zeros behind it. -/
def oneSegment : File where
  size := 85
  byte := fun i =>
    match i with
    | 52 => 1
    | 56 => 84
    | 62 => 0x40
    | 68 => 1
    | 72 => 4
    | 84 => 7
    | i => headerBytes 32 1 i
  bounded := by decide

def oneSegmentEhdr : Elf32Ehdr := ⟨0, 52, 32, 1⟩

theorem oneSegment_accepted : Accepted oneSegment (fun _ => 0) oneSegmentEhdr := ⟨readn_eq (by decide), by rfl⟩

theorem oneSegment_phdrs : oneSegment.binary.phdrs oneSegmentEhdr = [⟨1, 84, 0x400000, 1, 4, 0⟩] := by rfl

theorem oneSegment_loadable : Loadable oneSegment oneSegmentEhdr := by
  refine ⟨rfl, by decide, fun ph hph _ => ?_⟩
  rw [oneSegment_phdrs] at hph
  obtain rfl := List.mem_singleton.1 hph
  exact ⟨by decide, by decide, .inl (by decide), by decide, by decide⟩

theorem oneSegment_calls : (callsOf oneSegment (oneSegment.binary.phdrs oneSegmentEhdr)).length = 1 := by
  rw [oneSegment_phdrs]
  rfl

theorem pageAt_none {p : Pmap} {d : Nat} (h : (List.range utopEntries).all (fun i => (p.table (d, i)).isNone) = true) :
    ∀ va < utop, pageAt p d va = none := by
  intro va hva
  have ht := List.all_eq_true.1 h (pdx va) (List.mem_range.2 (pdx_lt_utop.2 hva))
  unfold pageAt
  rw [show p.pte (slotOf d va) = none from Acct.pte_none_of_table (Option.isNone_iff_eq_none.1 ht) _]
  rfl

theorem exists_ready : ∃ k, ChildReady k 0 1 4097 1 ∧ EnvReady k 1 1 := by
  obtain ⟨s, hr, hs⟩ :=
    @Run.exists_of_exec Granted Act Granted.Booted Granted.step (fun s a => MapSafe s.kernel a) Granted.mapSafeB
    Granted.mapSafe_of_mapSafeB [.tick, .exec stackFrame, .syscall .exofork 0] Granted.small Granted.booted_small
    (fun s => decide (s.kernel.curenv = some 0 ∧ (s.kernel.envs 0).envStatus ≠ .free ∧
      (s.kernel.envs 1).envStatus ≠ .free ∧
        envid2env s.kernel 0 4097 true = some 1 ∧ 3 ≤ s.kernel.pm.pageFreeList.length) &&
      (List.range utopEntries).all (fun i => (s.kernel.pm.table ((s.kernel.envs 1).envPgdir, i)).isNone))
      (by decide +kernel)
  rw [Bool.and_eq_true, decide_eq_true_eq] at hs
  obtain ⟨⟨hcur, hlive₀, hlive₁, hid, hroom⟩, hempty⟩ := hs
  have hframed := (Run.invariant Granted.Inv Granted.inv_booted Granted.inv_step s hr).framed
  exact ⟨s.kernel, ⟨hframed, hcur, ⟨hlive₀, hlive₁⟩, by decide, hid, fun va hva _ => pageAt_none hempty va hva, hroom⟩,
    ⟨hframed, hlive₁, pageAt_none hempty, hroom⟩⟩

/-- Both loaders take the image with one segment. -/
theorem loaders_agree_one : ∃ k cur child childId e k' k₀', ChildReady k cur child childId 1 ∧
    spawn ⟨0, 0, loadSegment oneSegment cur childId, 0⟩ oneSegment (fun _ => 0) k =
      (headersFrom oneSegmentEhdr 0 ++ [.trapframe (k₀'.envs e).envTf.cp0Epc 0], k', .started) ∧
    loadIcode k e oneSegment.binary = some k₀' := by
  obtain ⟨k, hchild, henv⟩ := exists_ready
  rw [← oneSegment_calls] at hchild henv
  obtain ⟨k', k₀', hspawn, hload, -⟩ := loaders_agree oneSegment_accepted oneSegment_loadable hchild henv 0
  rw [oneSegment_calls] at hchild
  exact ⟨k, 0, 1, 4097, 1, k', k₀', hchild, hspawn, hload⟩

end Spawning
end Mos
