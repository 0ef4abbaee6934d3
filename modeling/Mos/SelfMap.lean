import Mos.Counter
import Mos.Directory
/-!
# SelfMap — a directory is its own page table

`env_setup_vm` enters a directory in itself at `UVPT`, so user code reads the tables at `vpt` and the directory at
`vpd`. No call on the directory writes that entry.  It is lost when the frame of the directory gets free and comes
back as a table, which takes an entry with that frame in one of the tables.
-/
namespace Mos

def vpt : Word := uvpt

def vpd : Word := uvpt + BitVec.ofNat 32 (pdx uvpt) <<< pgshift

/-- The physical address of `va`: `va2pa`, and the offset in the page. -/
def translate (p : Pmap) (pgdir : Nat) (va : Word) : Option Word := (va2pa p pgdir va).map fun pa => pa + (va &&& 0xFFF)

/-- The physical address of an entry. -/
def slotPa (e : PtePtr) : Word := page2pa e.1 + BitVec.ofNat 32 (4 * e.2)

/-- The word at a physical address. -/
def Pmap.readPa (p : Pmap) (pa : Word) : Word := p.mem (ppn pa) ((pa &&& 0xFFF).toNat / 4)

/-- **The window shows the tables**: `vpt[VPN(va)]` is the entry that `pgdir_walk` finds, `vpd[PDX(va)]` that of the
directory. -/
structure SelfMapped (p : Pmap) (d : Nat) : Prop where
  table : ∀ va, valid (p.mem d (pdx va)) = true → ∃ e : PtePtr,
    (∀ create w, pgdirWalk p d va create = some w → w = (0, some e, p)) ∧
    translate p d (vpt + 4 * BitVec.ofNat 32 (vpn va)) = some (slotPa e) ∧ p.readPa (slotPa e) = p.read e
  walks : ∀ va, va < utop ∨ uvpt ≤ va → valid (p.mem d (pdx va)) = true → ∀ create, pgdirWalk p d va create ≠ none
  directory : ∀ va, translate p d (vpd + 4 * BitVec.ofNat 32 (pdx va)) = some (slotPa (d, pdx va)) ∧
    p.readPa (slotPa (d, pdx va)) = p.mem d (pdx va)

/-! ## Addresses in the window -/

theorem vpn_lt (va : Word) : vpn va < 2 ^ 20 := ppn_lt va

theorem vpn_eq (va : Word) : vpn va = pdx va * 1024 + ptx va := by
  have hv : vpn va = va.toNat / 2 ^ 12 := by
    unfold vpn pgshift
    rw [BitVec.toNat_ushiftRight, Nat.shiftRight_eq_div_pow]
  rw [hv, pdx_eq, ptx_eq]
  omega

theorem and_0xFFF (w : Word) : (w &&& 0xFFF).toNat = w.toNat % 4096 := by
  have hmask : (0xFFF : Word).toNat = 2 ^ 12 - 1 := by decide
  rw [BitVec.toNat_and, hmask, Nat.and_two_pow_sub_one_eq_mod]

/-- The parts of the address of a word of the window: table `i`, entry `j`. -/
theorem window_word {i j : Nat} (hi : i < 1024) (hj : j < 1024) {a : Word}
    (ha : a.toNat = uvpt.toNat + i * 4096 + 4 * j) :
    pdx a = pdx uvpt ∧ ptx a = i ∧ a &&& 0xFFF = BitVec.ofNat 32 (4 * j) := by
  have hu : uvpt.toNat = 511 * 2 ^ 22 := by decide
  rw [hu] at ha
  refine ⟨?_, ?_, ?_⟩
  · rw [pdx_eq, pdx_eq, hu, ha]
    omega
  · rw [ptx_eq, ha]
    omega
  · apply BitVec.eq_of_toNat_eq
    rw [and_0xFFF, ha, BitVec.toNat_ofNat]
    omega

theorem vpt_word (va : Word) : pdx (vpt + 4 * BitVec.ofNat 32 (vpn va)) = pdx uvpt ∧
    ptx (vpt + 4 * BitVec.ofNat 32 (vpn va)) = pdx va ∧
    (vpt + 4 * BitVec.ofNat 32 (vpn va)) &&& 0xFFF = BitVec.ofNat 32 (4 * ptx va) := by
  have hu : uvpt.toNat = 511 * 2 ^ 22 := by decide
  have hv := vpn_lt va
  refine window_word (pdx_lt va) (ptx_lt va) ?_
  have h4 : (4 : Word).toNat = 4 := by decide
  unfold vpt
  rw [BitVec.toNat_add, BitVec.toNat_mul, BitVec.toNat_ofNat, h4, hu]
  have := vpn_eq va
  omega

theorem vpd_word (va : Word) : pdx (vpd + 4 * BitVec.ofNat 32 (pdx va)) = pdx uvpt ∧
    ptx (vpd + 4 * BitVec.ofNat 32 (pdx va)) = pdx uvpt ∧
    (vpd + 4 * BitVec.ofNat 32 (pdx va)) &&& 0xFFF = BitVec.ofNat 32 (4 * pdx va) := by
  have hvpd : vpd.toNat = uvpt.toNat + pdx uvpt * 4096 := by decide
  have hu : uvpt.toNat = 511 * 2 ^ 22 := by decide
  have hi : pdx uvpt = 511 := by decide
  have hp := pdx_lt va
  refine window_word (pdx_lt uvpt) (pdx_lt va) ?_
  have h4 : (4 : Word).toNat = 4 := by decide
  rw [BitVec.toNat_add, BitVec.toNat_mul, BitVec.toNat_ofNat, h4, hvpd, hu, hi]
  omega

theorem readPa_slotPa (p : Pmap) {t j : Nat} (ht : t < 2 ^ 20) (hj : j < 1024) :
    p.readPa (slotPa (t, j)) = p.mem t j := by
  have hpa : (slotPa (t, j)).toNat = t * 4096 + 4 * j := by
    unfold slotPa page2pa pgshift
    rw [BitVec.toNat_add, BitVec.toNat_shiftLeft, BitVec.toNat_ofNat, BitVec.toNat_ofNat, Nat.shiftLeft_eq]
    omega
  have hppn : ppn (slotPa (t, j)) = t := by
    unfold ppn pgshift
    rw [BitVec.toNat_ushiftRight, Nat.shiftRight_eq_div_pow, hpa]
    omega
  unfold Pmap.readPa
  rw [hppn, and_0xFFF, hpa]
  congr 1
  omega

/-! ## The entry of the directory in itself -/

namespace SelfMap

/-- What a directory keeps: its frame is in use, its own entry is there, and no other entry has its frame. -/
structure Inv (d : Nat) (p : Pmap) : Prop where
  npage_le : p.npage ≤ 2 ^ 20
  dir_lt : d < p.npage
  own : p.mem d (pdx uvpt) = selfEntry d
  zero : ∀ i, pdx uvpt < i → i < pageWords → valid (p.mem d i) = false
  used : d ∉ p.pageFreeList
  free : ∀ f ∈ p.pageFreeList, f < p.npage
  tables : ∀ i < utopEntries, ∀ t, p.table (d, i) = some t → t ≠ d ∧ t < p.npage
  pages : ∀ i < utopEntries, ∀ j < pageWords, p.frame (d, i, j) ≠ some d

namespace Inv

variable {d : Nat} {p p' : Pmap}

theorem congr (h : Inv d p) (hn : p'.npage = p.npage) (hm : p'.mem = p.mem) (hused : d ∉ p'.pageFreeList)
    (hfree : ∀ f ∈ p'.pageFreeList, f < p.npage) : Inv d p' := by
  have htable : ∀ s, p'.table s = p.table s := fun s => by unfold Pmap.table; rw [hm]
  have hframe : ∀ s, p'.frame s = p.frame s := fun s => by unfold Pmap.frame Pmap.pte; rw [htable, hm]
  exact ⟨hn ▸ h.npage_le, hn ▸ h.dir_lt, by rw [hm]; exact h.own, by rw [hm]; exact h.zero, hused, hn ▸ hfree,
    fun i hi t ht => hn ▸ h.tables i hi t (htable _ ▸ ht), fun i hi j hj => hframe _ ▸ h.pages i hi j hj⟩

theorem tlb (h : Inv d p) (asid va : Word) : Inv d (tlbInvalidate p asid va) := h.congr rfl rfl h.used h.free

theorem setRef (h : Inv d p) (pp : Nat) (r : BitVec 16) : Inv d (p.setRef pp r) := h.congr rfl rfl h.used h.free

/-- **A page gets free that is not the directory.** -/
theorem decref (h : Inv d p) {pp : Nat} (hpp : pp ≠ d) (hlt : pp < p.npage) (hr : pageDecref p pp = some p') :
    Inv d p' := by
  have hne : p.ppRef pp ≠ 0 := by
    intro hc
    rw [pageDecref, if_pos hc] at hr
    cases hr
  rw [Acct.decref_eq hne] at hr
  cases hr
  have hmem : ∀ f, f ∈ (if p.ppRef pp = 1 then pp :: p.pageFreeList else p.pageFreeList) →
      f = pp ∨ f ∈ p.pageFreeList := by
    intro f hf
    split at hf
    · exact List.mem_cons.1 hf
    · exact .inr hf
  refine h.congr rfl rfl (fun hc => ?_) (fun f hf => ?_)
  · rcases hmem d hc with hd | hd
    · exact hpp hd.symm
    · exact h.used hd
  · rcases hmem f hf with rfl | hf
    · exact hlt
    · exact h.free f hf

/-- **An entry of a table is written**, for another frame or for none. -/
theorem write (h : Inv d p) {t j : Nat} {w : Word} (ht : t ≠ d) (hw : valid w = true → ppn w ≠ d) :
    Inv d (p.write (t, j) w) := by
  have hdir : ∀ i, (p.write (t, j) w).mem d i = p.mem d i := fun i => by rw [write_mem, if_neg (fun hc => ht hc.1.symm)]
  have htable : ∀ i, (p.write (t, j) w).table (d, i) = p.table (d, i) := fun i => by unfold Pmap.table; rw [hdir]
  refine ⟨h.npage_le, h.dir_lt, (hdir _).trans h.own,
    fun i hi hi' => by rw [hdir]; exact h.zero i hi hi', h.used, h.free,
    fun i hi t' ht' => h.tables i hi t' (htable i ▸ ht'), fun i hi j' hj' hc => ?_⟩
  obtain ⟨e, he, hppn⟩ := frame_eq_some hc
  obtain ⟨t', ht', hv, hmem⟩ := table_of_pte he
  rw [htable] at ht'
  rw [write_mem] at hv hmem
  split at hmem
  · rename_i heq
    rw [if_pos heq] at hv
    subst hmem
    exact hw hv hppn
  · rename_i hne
    rw [if_neg hne] at hv
    refine h.pages i hi j' hj' ?_
    unfold Pmap.frame
    rw [pte_of_table ht', if_pos hv, Option.map_some, hmem, hppn]

/-- **A new table**: its frame is not the directory's, and it has no page. -/
theorem newTable (h : Inv d p) {i t : Nat} {rest : List Nat} (hi : i < utopEntries) (hf : p.pageFreeList = t :: rest) :
    Inv d ((Pmap.setRef { p with pageFreeList := rest, mem := Function.update p.mem t (fun _ => 0) } t 1).write (d, i)
      (Acct.tableEntry t)) ∧ t ≠ d ∧ t < p.npage := by
  have htd : t ≠ d := fun hc => h.used (by rw [hf, hc]; exact List.mem_cons_self)
  have htlt : t < p.npage := h.free t (by rw [hf]; exact List.mem_cons_self)
  have hppn : ppn (Acct.tableEntry t) = t := Acct.ppn_tableEntry (Nat.lt_of_lt_of_le htlt h.npage_le)
  have hne : i ≠ pdx uvpt := fun hc => absurd (hc ▸ hi) (by decide)
  generalize hq : (Pmap.setRef { p with pageFreeList := rest, mem := Function.update p.mem t (fun _ => 0) } t 1).write
    (d, i)
    (Acct.tableEntry t) = q
  have hmem : ∀ f j, q.mem f j = if f = d ∧ j = i then Acct.tableEntry t else if f = t then 0 else p.mem f j := by
    intro f j
    rw [← hq, write_mem]
    refine ite_congr rfl (fun _ => rfl) fun _ => ?_
    show Function.update p.mem t (fun _ => 0) f j = _
    by_cases hft : f = t
    · rw [hft, Function.update_self, if_pos rfl]
    · rw [Function.update_of_ne hft, if_neg hft]
  have hdir : ∀ j, j ≠ i → q.mem d j = p.mem d j := fun j hj => by
    rw [hmem, if_neg (fun hc => hj hc.2), if_neg (Ne.symm htd)]
  have htable : ∀ j, q.table (d, j) = if j = i then some t else p.table (d, j) := by
    intro j
    unfold Pmap.table
    by_cases hj : j = i
    · have hentry : q.mem d i = Acct.tableEntry t := by rw [hmem, if_pos ⟨rfl, rfl⟩]
      rw [if_pos hj, hj, hentry, if_pos (show valid (Acct.tableEntry t) = true from valid_or_pteV _), hppn]
    · rw [if_neg hj, hdir j hj]
  have hnpage : q.npage = p.npage := by rw [← hq]; rfl
  have hlist : q.pageFreeList = rest := by rw [← hq]; rfl
  refine ⟨⟨hnpage ▸ h.npage_le, hnpage ▸ h.dir_lt, (hdir _ (Ne.symm hne)).trans h.own,
    fun j hj hj' => ?_, ?_, ?_, ?_, ?_⟩,
    htd, htlt⟩
  · have hij : j ≠ i := by
      have : utopEntries ≤ pdx uvpt := by decide
      omega
    rw [hdir j hij]
    exact h.zero j hj hj'
  · rw [hlist]
    exact fun hc => h.used (by rw [hf]; exact List.mem_cons_of_mem _ hc)
  · rw [hlist, hnpage]
    exact fun f hf' => h.free f (by rw [hf]; exact List.mem_cons_of_mem _ hf')
  · intro j hj t' ht'
    rw [htable] at ht'
    rw [hnpage]
    split at ht'
    · cases ht'
      exact ⟨htd, htlt⟩
    · exact h.tables j hj t' ht'
  · intro i' hi' j hj hc
    obtain ⟨e, he, hppne⟩ := frame_eq_some hc
    obtain ⟨t', ht', hv, hentry⟩ := table_of_pte he
    have htd' : t' ≠ d := by
      rw [htable] at ht'
      split at ht'
      · cases ht'
        exact htd
      · exact (h.tables i' hi' t' ht').1
    have hrow : q.mem t' j = if t' = t then 0 else p.mem t' j := by rw [hmem, if_neg (fun hc => htd' hc.1)]
    dsimp only at hv hentry
    rw [hrow] at hv hentry
    split at hentry
    · rename_i heq
      rw [if_pos heq, valid_zero] at hv
      cases hv
    · rename_i hne'
      rw [if_neg hne'] at hv
      rw [htable] at ht'
      split at ht'
      · cases ht'
        exact hne' rfl
      · refine h.pages i' hi' j hj ?_
        unfold Pmap.frame
        rw [pte_of_table ht', if_pos hv, Option.map_some, hentry, hppne]

theorem walk (h : Inv d p) {va : Word} (hva : va < utop) {w : Int × Option PtePtr × Pmap}
    (hw : pgdirWalk p d va true = some w) : Inv d w.2.2 ∧ ∀ e, w.2.1 = some e → e.1 ≠ d := by
  have hi : pdx va < utopEntries := pdx_lt_utop.2 hva
  cases ht : p.table (d, pdx va) with
  | some t =>
    rw [walk_eq true ht] at hw
    obtain ⟨htd, hlt⟩ := h.tables _ hi t ht
    rw [if_pos hlt] at hw
    cases hw
    exact ⟨h, fun e he => by cases he; exact htd⟩
  | none =>
    unfold pgdirWalk at hw
    rw [if_neg (by rw [table_eq_none.1 ht]; simp), if_pos rfl] at hw
    cases hf : p.pageFreeList with
    | nil =>
      simp only [pageAlloc, hf] at hw
      cases hw
      exact ⟨h, fun e he => by cases he⟩
    | cons t rest =>
      obtain ⟨hq, htd, hlt⟩ := h.newTable hi hf
      have hppn : ppn (Acct.tableEntry t) = t := Acct.ppn_tableEntry (Nat.lt_of_lt_of_le hlt h.npage_le)
      simp only [pageAlloc, hf] at hw
      obtain ⟨t', hk, rfl⟩ := Option.map_eq_some_iff.1 hw
      rw [write_mem, if_pos ⟨rfl, rfl⟩, kaddr, ppn_pteAddr] at hk
      split at hk
      · cases hk
        refine ⟨hq, fun e he => ?_⟩
        cases he
        exact fun hc => htd (hppn.symm.trans hc)
      · cases hk

theorem remove (h : Inv d p) {asid va : Word} (hva : va < utop) (hr : pageRemove p d asid va = some p') : Inv d p' := by
  have hi : pdx va < utopEntries := pdx_lt_utop.2 hva
  unfold pageRemove at hr
  obtain ⟨l, hl, hr⟩ := Option.bind_eq_some_iff.1 hr
  cases l with
  | none =>
    cases hr
    exact h
  | some l =>
    obtain ⟨pp, e⟩ := l
    obtain ⟨q, hq, rfl⟩ := Option.map_eq_some_iff.1 hr
    obtain ⟨hv, rfl, hve, rfl⟩ := lookup_inv hl
    have htable : p.table (d, pdx va) = some (ppn (p.mem d (pdx va))) := by
      unfold Pmap.table
      rw [if_pos hv]
    have hframe : p.frame (d, pdx va, ptx va) = some (ppn (p.read (ppn (p.mem d (pdx va)), ptx va))) := by
      have hve' : valid (p.mem (ppn (p.mem d (pdx va))) (ptx va)) = true := hve
      unfold Pmap.frame
      rw [pte_of_table htable, if_pos hve', Option.map_some]
      rfl
    have hpp : ppn (p.read (ppn (p.mem d (pdx va)), ptx va)) ≠ d := fun hc =>
      h.pages _ hi _ (ptx_lt va) (hframe.trans (congrArg some hc))
    have hlt : ppn (p.read (ppn (p.mem d (pdx va)), ptx va)) < p.npage := by
      unfold pageLookup at hl
      obtain ⟨w, hw, hl⟩ := Option.bind_eq_some_iff.1 hl
      rw [walk_eq false htable, if_pos (h.tables _ hi _ htable).2] at hw
      cases hw
      simp only [if_pos hve] at hl
      obtain ⟨pp', hpa, hpe⟩ := Option.map_eq_some_iff.1 hl
      unfold pa2page at hpa
      split at hpa
      · rename_i hlt
        exact hlt
      · cases hpa
    exact ((h.decref hpp hlt hq).write (h.tables _ hi _ htable).1 (fun hc => by rw [valid_zero] at hc; cases hc)).tlb
      asid va

theorem entry (h : Inv d p) {pp : Nat} {perm : Word} (hlt : pp < p.npage) (hne : pp ||| ppn perm ≠ d) :
    ppn (entryOf pp perm) ≠ d := by
  rw [ppn_entryOf (Nat.lt_of_lt_of_le hlt h.npage_le)]
  exact hne

theorem insertFresh (h : Inv d p) {asid va perm : Word} {pp : Nat} {r : Int × Pmap} (hva : va < utop)
    (hlt : pp < p.npage) (hne : pp ||| ppn perm ≠ d) (hr : pageInsertFresh p d asid pp va perm = some r) :
    Inv d r.2 := by
  unfold pageInsertFresh at hr
  obtain ⟨⟨c, e, q⟩, hw, rfl⟩ := Option.map_eq_some_iff.1 hr
  obtain ⟨hq, he⟩ := (h.tlb asid va).walk hva hw
  cases e with
  | none => exact hq
  | some e => exact (hq.setRef pp _).write (he e rfl) (fun _ => h.entry hlt hne)

theorem npage_remove {asid va : Word} (hr : pageRemove p d asid va = some p') : p'.npage = p.npage := by
  unfold pageRemove at hr
  obtain ⟨l, -, hr⟩ := Option.bind_eq_some_iff.1 hr
  cases l with
  | none =>
    cases hr
    rfl
  | some l =>
    obtain ⟨q, hq, rfl⟩ := Option.map_eq_some_iff.1 hr
    have hne : p.ppRef l.1 ≠ 0 := by
      intro hc
      rw [pageDecref, if_pos hc] at hq
      cases hq
    rw [Acct.decref_eq hne] at hq
    cases hq
    rfl

theorem insert (h : Inv d p) {asid va perm : Word} {pp : Nat} {r : Int × Pmap} (hva : va < utop) (hlt : pp < p.npage)
    (hne : pp ||| ppn perm ≠ d) (hr : pageInsert p d asid pp va perm = some r) : Inv d r.2 := by
  have hi : pdx va < utopEntries := pdx_lt_utop.2 hva
  unfold pageInsert at hr
  obtain ⟨w, hw, hr⟩ := Option.bind_eq_some_iff.1 hr
  cases ht : p.table (d, pdx va) with
  | none =>
    rw [walk_eq_none ht] at hw
    cases hw
    exact h.insertFresh hva hlt hne hr
  | some t =>
    obtain ⟨htd, htlt⟩ := h.tables _ hi t ht
    rw [walk_eq false ht, if_pos htlt] at hw
    cases hw
    dsimp only at hr
    split at hr
    · obtain ⟨pp', -, hr⟩ := Option.bind_eq_some_iff.1 hr
      split at hr
      · cases hr
        exact (h.tlb asid va).write htd (fun _ => h.entry hlt hne)
      · obtain ⟨p₁, hp₁, hr⟩ := Option.bind_eq_some_iff.1 hr
        exact (h.remove hva hp₁).insertFresh hva (npage_remove hp₁ ▸ hlt) hne hr
    · exact h.insertFresh hva hlt hne hr

theorem selfMapped (h : Inv d p) : SelfMapped p d := by
  have hd : d < 2 ^ 20 := Nat.lt_of_lt_of_le h.dir_lt h.npage_le
  have hself : valid (selfEntry d) = true := valid_or_pteV _
  have hwindow : ∀ a, pdx a = pdx uvpt → translate p d a =
      some ((if valid (p.mem d (ptx a)) then pteAddr (p.mem d (ptx a)) else ~~~0) + (a &&& 0xFFF)) := by
    intro a ha
    unfold translate va2pa
    rw [ha, h.own, if_pos hself, kaddr, ppn_pteAddr, ppn_selfEntry hd, if_pos h.dir_lt]
    rfl
  refine ⟨fun va hv => ⟨(ppn (p.mem d (pdx va)), ptx va), fun create w hw => ?_, ?_, ?_⟩, fun va hva hv create => ?_,
    fun va => ⟨?_, ?_⟩⟩
  · unfold pgdirWalk at hw
    rw [if_pos hv, kaddr, ppn_pteAddr] at hw
    split at hw
    · cases hw
      rfl
    · cases hw
  · obtain ⟨hpdx, hptx, hoff⟩ := vpt_word va
    rw [hwindow _ hpdx, hptx, hoff, if_pos hv, pteAddr_eq]
    rfl
  · exact readPa_slotPa p (ppn_lt _) (ptx_lt va)
  · have htable : p.table (d, pdx va) = some (ppn (p.mem d (pdx va))) := by
      unfold Pmap.table
      rw [if_pos hv]
    have hlt : ppn (p.mem d (pdx va)) < p.npage := by
      by_cases hlow : va < utop
      · exact (h.tables _ (pdx_lt_utop.2 hlow) _ htable).2
      · have hup : uvpt ≤ va := hva.resolve_left hlow
        have hge : pdx uvpt ≤ pdx va := by
          rw [pdx_eq, pdx_eq]
          exact Nat.div_le_div_right (BitVec.le_def.1 hup)
        rcases Nat.lt_or_eq_of_le hge with hgt | heq
        · rw [h.zero _ hgt (pdx_lt va)] at hv
          cases hv
        · rw [← heq, h.own, ppn_selfEntry hd]
          exact h.dir_lt
    rw [walk_eq create htable, if_pos hlt]
    exact Option.some_ne_none _
  · obtain ⟨hpdx, hptx, hoff⟩ := vpd_word va
    rw [hwindow _ hpdx, hptx, hoff, h.own, if_pos hself, pteAddr_eq, ppn_selfEntry hd]
    rfl
  · exact readPa_slotPa p hd (pdx_lt va)

end Inv

/-- `env_setup_vm` has built the directory in a machine that runs. -/
def Built (d : Nat) (p : Pmap) : Prop :=
  ∃ k e k', Run Linked Mos.step MapSafe k ∧ envSetupVm k e = some k' ∧ k'.pm = p ∧ (k'.envs e).envPgdir = d

/-- The call maps or unmaps below `UTOP`, and what it maps is a page. -/
def Below (p : Pmap) : DirOp → Prop
  | .insert _ pp va _ => va < utop ∧ pp < p.npage
  | .remove _ va => va < utop

/-- The entry that the call writes has not the frame of the directory. -/
def Elsewhere (d : Nat) : DirOp → Prop
  | .insert _ pp _ perm => pp ||| ppn perm ≠ d
  | .remove _ _ => True

theorem inv_setup {p p₁ : Pmap} {pp base : Nat} {r : BitVec 16} (hn : p.npage ≤ 2 ^ 20) (hnodup : p.pageFreeList.Nodup)
    (hfree : ∀ f ∈ p.pageFreeList, f < p.npage) (ha : pageAlloc p = some (pp, p₁)) :
    Inv pp (setupPgdir (p₁.setRef pp r) base pp) := by
  obtain ⟨rest, hf, rfl⟩ := pageAlloc_eq ha
  rw [hf] at hnodup hfree
  have hlow : utopEntries ≤ pdx uvpt := by decide
  have hzero : ∀ i, i ≠ pdx uvpt → ¬(pdx utop ≤ i ∧ i < pdx uvpt) → (setupPgdir (Pmap.setRef { p with
      pageFreeList := rest, mem := Function.update p.mem pp (fun _ => 0) } pp r) base pp).mem pp i = 0 := by
    intro i h₁ h₂
    rw [Sound.setupPgdir_mem, if_pos rfl, if_neg h₁, if_neg h₂]
    show Function.update p.mem pp (fun _ => 0) pp i = 0
    rw [Function.update_self]
  have htable : ∀ i < utopEntries, (setupPgdir (Pmap.setRef { p with
      pageFreeList := rest, mem := Function.update p.mem pp (fun _ => 0) } pp r) base pp).table (pp, i) = none := by
    intro i hi
    refine Sound.table_none ?_
    rw [hzero i (by omega) (fun hc => absurd hi (Nat.not_lt.2 hc.1))]
    exact valid_zero
  refine ⟨hn, hfree pp List.mem_cons_self, by rw [Sound.setupPgdir_mem, if_pos rfl, if_pos rfl], fun i hi _ => ?_,
    (List.nodup_cons.1 hnodup).1, fun f hf' => hfree f (List.mem_cons_of_mem _ hf'), fun i hi t ht => ?_,
    fun i hi j _ hc => ?_⟩
  · rw [hzero i (by omega) (by omega)]
    exact valid_zero
  · rw [htable i hi] at ht
    cases ht
  · obtain ⟨e, he, -⟩ := frame_eq_some hc
    rw [Acct.pte_none_of_table (htable i hi)] at he
    cases he

theorem inv_built {d : Nat} {p : Pmap} (h : Built d p) : Inv d p := by
  obtain ⟨k, e, k', hk, hs, rfl, rfl⟩ := h
  obtain ⟨g, hg⟩ := (Run.invariant Accounted (fun _ hl => Accounted.linked hl)
    (fun _ _ _ hk hok hs => hk.step_safe hok hs) k hk).framed
  obtain ⟨⟨pp, pm₁⟩, ha, rfl⟩ := Option.map_eq_some_iff.1 hs
  have hdir : (((k.setPm (setupPgdir (pm₁.setRef pp (pm₁.ppRef pp + 1)) k.basePgdir pp)).setEnv e
      (fun v => { v with envPgdir := pp })).envs e).envPgdir = pp := by
    show (Function.update k.envs e { k.envs e with envPgdir := pp } e).envPgdir = pp
    rw [Function.update_self]
  have hacct := hg.sound.acct
  show Inv ((((k.setPm _).setEnv e _).envs e).envPgdir) (setupPgdir (pm₁.setRef pp (pm₁.ppRef pp + 1)) k.basePgdir pp)
  rw [hdir]
  exact inv_setup hacct.npage_le hacct.nodup (fun f hf => (hacct.of_free hf).1) ha

/-- **A directory shows itself and its tables**, whatever is mapped and unmapped below `UTOP`. -/
theorem self_map (d : Nat) (p : Pmap) (h : Run (Built d) (DirOp.step d) (fun p op => Below p op ∧ Elsewhere d op) p) :
    SelfMapped p d := by
  have hinv : Inv d p := by
    refine Run.invariant (Inv d) (fun _ hb => inv_built hb) ?_ p h
    intro p op p' hp hok hs
    cases op with
    | insert asid pp va perm =>
      obtain ⟨r, hr, rfl⟩ := Option.map_eq_some_iff.1 hs
      exact hp.insert hok.1.1 hok.1.2 hok.2 hr
    | remove asid va => exact hp.remove hok.1 hs
  exact hinv.selfMapped

/-! ## The small machine -/

/-- Environment 1 of the small machine has got its directory, in frame 1275. -/
def small : Option Pmap := (mipsInit smallBoard [emptyProgram]).bind fun k =>
  (envSetupVm k 1).bind fun k' => if (k'.envs 1).envPgdir = 1275 then some k'.pm else none

theorem built_small (p : Pmap) (h : small = some p) : Built 1275 p := by
  obtain ⟨k, hk, hrest⟩ := Option.bind_eq_some_iff.1 h
  obtain ⟨k', hk', hrest⟩ := Option.bind_eq_some_iff.1 hrest
  split at hrest
  · rename_i hd
    cases hrest
    exact ⟨k, 1, k', .start k (Granted.linked_small k hk), hk', rfl, hd⟩
  · cases hrest

/-- A check that implies `Below`. -/
def belowB (p : Pmap) : DirOp → Bool
  | .insert _ pp va _ => decide (va < utop) && decide (pp < p.npage)
  | .remove _ va => decide (va < utop)

theorem below_of_belowB (p : Pmap) (op : DirOp) (h : belowB p op = true) : Below p op := by
  cases op with
  | insert asid pp va perm =>
    simp only [belowB, Bool.and_eq_true, decide_eq_true_eq] at h
    exact h
  | remove asid va =>
    simp only [belowB, decide_eq_true_eq] at h
    exact h

/-- A check that implies `Elsewhere`. -/
def elsewhereB (d : Nat) : DirOp → Bool
  | .insert _ pp _ perm => decide (pp ||| ppn perm ≠ d)
  | .remove _ _ => true

theorem elsewhere_of_elsewhereB (d : Nat) (op : DirOp) (h : elsewhereB d op = true) : Elsewhere d op := by
  cases op with
  | insert asid pp va perm =>
    simp only [elsewhereB, decide_eq_true_eq] at h
    exact h
  | remove asid va => trivial

/-- A page is mapped at `UTEXT`. -/
theorem self_map_small : ∃ p : Pmap, (p.table (1275, 1)).isSome ∧ SelfMapped p 1275 := by
  obtain ⟨p, hr, hp⟩ := @Run.exists_of_exec Pmap DirOp (Built 1275) (DirOp.step 1275)
    (fun p op => Below p op ∧ Elsewhere 1275 op) (fun p op => belowB p op && elsewhereB 1275 op)
    (fun p op h => by
      rw [Bool.and_eq_true] at h
      exact ⟨below_of_belowB p op h.1, elsewhere_of_elsewhereB 1275 op h.2⟩)
    [.insert 1 1000 utext pteD] small built_small (fun p => (p.table (1275, 1)).isSome) (by decide +kernel)
  exact ⟨p, hp, self_map 1275 p hr⟩

/-- **The permission names the directory**: its frame is freed with the page, and becomes the next table. -/
theorem self_map_fails : ¬∀ (d : Nat) (p : Pmap), Run (Built d) (DirOp.step d) Below p → SelfMapped p d := by
  obtain ⟨p, hr, hp⟩ := @Run.exists_of_exec Pmap DirOp (Built 1275) (DirOp.step 1275) Below belowB below_of_belowB
    [.insert 1 0 utext (1275 <<< 12), .remove 1 utext, .insert 1 1000 0x800000 pteD, .insert 1 1000 0xC00000 pteD]
    small built_small
    (fun p => decide (translate p 1275 vpd ≠ some (slotPa (1275, 0)))) (by decide +kernel)
  intro hall
  have h := ((hall 1275 p hr).directory 0).1
  have h0 : vpd + 4 * BitVec.ofNat 32 (pdx 0) = vpd := by decide
  have h1 : pdx 0 = 0 := by decide
  rw [h0, h1] at h
  exact of_decide_eq_true hp h

end SelfMap

end Mos
