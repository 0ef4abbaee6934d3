import Mos.Framed
/-!
# Boot — the kernel starts with its spaces apart

`mips_init` builds the template directory from the pages of the kernel image and loads the first programs.  What the
linker promises is a hypothesis here: `kernel.lds` puts `envs` below the end of the kernel, `user.lds` puts the segments
of a program below `UTOP`.
-/
namespace Mos

/-- `envs` is part of the kernel image. -/
def Board.EnvsInKernel (b : Board) : Prop := b.envsPa.toNat + roundPage (nenv * sizeofEnv) ≤ kernEnd

/-- The pages of the segments lie below `UTOP`. -/
def Binary.Low (b : Binary) : Prop :=
  ∀ ehdr, elfFrom b = some ehdr → ∀ ph ∈ b.phdrs ehdr, ph.pType = ptLoad → ∀ bin, ∀ m ∈ segPages ph bin, m.va < utop

/-- **The kernel as `mips_init` leaves it**, for an image and programs that were linked by the scripts. -/
def Linked (k : Kernel) : Prop :=
  ∃ b programs, b.EnvsInKernel ∧ (∀ p ∈ programs, p.binary.Low) ∧ mipsInit b programs = some k

theorem Linked.booted {k : Kernel} (h : Linked k) : Booted k := by
  obtain ⟨b, programs, -, -, hk⟩ := h
  exact ⟨b, programs, hk⟩

/-! ## The template -/

/-- What holds while `map_segment` fills the template: the frames below `used` are the kernel's and have been mapped
`n` times at most. -/
structure Template (base used n : Nat) (p : Pmap) (g : Ledger) : Prop where
  acct : Acct pageWords p g
  dirs : g.dirs = {base}
  used : ∀ f < used, g.held f = 1 ∧ Outside pageWords p g.dirs f ∧ count (pageSlots pageWords g.dirs) p.frame f ≤ n
  pages : ∀ s ∈ pageSlots pageWords g.dirs, ∀ w, p.pte s = some w → w &&& pteD = 0
  entries : ∀ i, ReadOnly (p.mem base i)

namespace Template

variable {base used n : Nat} {p p' : Pmap} {g : Ledger}

theorem ref_le (h : Template base used n p g) {f : Nat} (hf : f < used) (hlt : f < p.npage) :
    (p.ppRef f).toNat ≤ n + 1 := by
  obtain ⟨hheld, hout, hcount⟩ := h.used f hf
  rw [h.acct.ref f hlt]
  unfold refs
  rw [count_eq_zero.2 hout.table, hheld]
  omega

theorem not_free (h : Template base used n p g) {f : Nat} (hf : f < used) : f ∉ p.pageFreeList := by
  intro hc
  obtain ⟨hlt, hr, -⟩ := h.acct.of_free hc
  have hzero := (h.acct.unref hlt hr).2.2
  rw [(h.used f hf).1] at hzero
  cases hzero

/-- **One page of a segment.** -/
theorem step (h : Template base used n p g) {pp : Nat} {asid va : Word} {r : Int} (hpp : pp < used) (hlt : pp < p.npage)
    (hn : n + 1 < 65535) (hi : pageInsert p base asid pp va pteG = some (r, p')) :
    p'.npage = p.npage ∧ ∃ g', Template base used (n + 1) p' g' := by
  have hbase : base ∈ g.dirs := by rw [h.dirs]; simp
  have hu : Acct.Usable pageWords p g pp := ⟨hlt, h.not_free hpp, (h.used pp hpp).2.1⟩
  have href : p.ppRef pp < 65535 := by
    have := h.ref_le hpp hlt
    rw [BitVec.lt_def]
    exact Nat.lt_of_le_of_lt this hn
  have hperm : pp ||| ppn pteG = pp := by
    have h0 : ppn pteG = 0 := by decide
    rw [h0, Nat.or_zero]
  have hva : pdx va < pageWords := pdx_lt va
  rcases h.acct.insertPage hbase hva asid hu (.inr href) hperm with ⟨-, -, he⟩ | ⟨p₁, he, hins⟩
  · obtain ⟨-, rfl⟩ : -eNoMem = r ∧ tlbInvalidate p asid va = p' := by simpa using he.symm.trans hi
    refine ⟨rfl, g, h.acct.tlb asid va, h.dirs, fun f hf => ?_, h.pages, h.entries⟩
    obtain ⟨hheld, hout, hcount⟩ := h.used f hf
    exact ⟨hheld, ⟨hout.dir, hout.table⟩, Nat.le_succ_of_le hcount⟩
  · obtain ⟨-, rfl⟩ : 0 = r ∧ p₁ = p' := by simpa using he.symm.trans hi
    have hslot := slotOf_mem hbase hva
    refine ⟨hins.npage, g.settle pp, hins.acct, h.dirs, fun f hf => ?_, fun s hs w hw => ?_, fun i => ?_⟩
    · obtain ⟨hheld, hout, hcount⟩ := h.used f hf
      refine ⟨hheld, ⟨hout.dir, fun s hs hc => ?_⟩, ?_⟩
      · rcases hins.table s hs f hc with hc | ⟨-, hc⟩
        · exact hout.table s hs hc
        · exact h.not_free hf hc
      · have hw := count_write p.frame p₁.frame hslot (fun s hs hne => by
          unfold Pmap.frame
          rw [hins.pte s hs, if_neg hne]) f
        show count (pageSlots pageWords g.dirs) p₁.frame f ≤ n + 1
        split at hw <;> split at hw <;> omega
    · rw [hins.pte s hs] at hw
      split at hw
      · cases hw
        exact readOnly_entryOf pp (by decide) (valid_entryOf pp pteG)
      · exact h.pages s hs w hw
    · rcases hins.dir base hbase i with he | ⟨-, t, he⟩
      · rw [he]
        exact h.entries i
      · rw [he]
        exact readOnly_tableEntry t

/-- **A segment.** -/
theorem segment {asid pa va : Word} {size : Nat} (h : Template base used n p g)
    (hpa : ∀ i < size / pageSize, ppn (pa + BitVec.ofNat 32 (i * pageSize)) < used)
    (hn : n + size / pageSize + 1 < 65535) (hm : mapSegment p base asid pa va size pteG = some p') :
    p'.npage = p.npage ∧ ∃ g', Template base used (n + size / pageSize) p' g' := by
  unfold mapSegment at hm
  split at hm
  · cases hm
  · have hloop : ∀ (is : List Nat) (n : Nat) (p : Pmap) (g : Ledger), Template base used n p g →
        (∀ i ∈ is, ppn (pa + BitVec.ofNat 32 (i * pageSize)) < used) → n + is.length + 1 < 65535 →
        is.foldlM (fun p i => (pa2page p (pa + BitVec.ofNat 32 (i * pageSize))).bind (fun pp =>
          (pageInsert p base asid pp (va + BitVec.ofNat 32 (i * pageSize)) pteG).map Prod.snd)) p = some p' →
        p'.npage = p.npage ∧ ∃ g', Template base used (n + is.length) p' g' := by
      intro is
      induction is with
      | nil =>
        intro n p g h _ _ hf
        cases hf
        exact ⟨rfl, g, h⟩
      | cons i is ih =>
        intro n p g h his hn hf
        rw [List.foldlM_cons] at hf
        obtain ⟨p₁, hstep, hrest⟩ := Option.bind_eq_some_iff.1 hf
        obtain ⟨pp, hpp, hmap⟩ := Option.bind_eq_some_iff.1 hstep
        obtain ⟨⟨r, p₂⟩, hins, rfl⟩ := Option.map_eq_some_iff.1 hmap
        have hppn : ppn (pa + BitVec.ofNat 32 (i * pageSize)) = pp ∧ pp < p.npage := by
          unfold pa2page at hpp
          split at hpp
          · rename_i hlt
            obtain rfl := Option.some.inj hpp
            exact ⟨rfl, hlt⟩
          · cases hpp
        rw [List.length_cons] at hn ⊢
        obtain ⟨hnp, g₁, h₁⟩ := h.step (hppn.1 ▸ his i List.mem_cons_self) hppn.2 (by omega) hins
        obtain ⟨hnp', g', h'⟩ := ih (n + 1) p₂ g₁ h₁ (fun j hj => his j (List.mem_cons_of_mem _ hj)) (by omega) hrest
        refine ⟨hnp'.trans hnp, g', ?_⟩
        have harith : n + (is.length + 1) = n + 1 + is.length := by omega
        rw [harith]
        exact h'
    have := hloop (List.range (size / pageSize)) n p g h (fun i hi => hpa i (List.mem_range.1 hi))
      (by rw [List.length_range]; exact hn) hm
    rw [List.length_range] at this
    exact this

/-- **The finished template**: all that is mapped there is the kernel's. -/
theorem sound (h : Template base used n p g) : ∃ g', Sound base p g' ∧ g'.dirs = ∅ := by
  have hbase : base ∈ g.dirs := by rw [h.dirs]; simp
  have hts : ∀ x, x ∉ tableSlots utopEntries ∅ := fun x hx => absurd (mem_tableSlots.1 hx).1 (Finset.notMem_empty _)
  have hps : ∀ x, x ∉ pageSlots utopEntries ∅ := fun x hx => absurd (mem_pageSlots.1 hx).1 (Finset.notMem_empty _)
  refine ⟨⟨∅, refs pageWords p g, g.limbo⟩, ⟨h.acct.forget utopEntries, fun d hd => absurd hd (Finset.notMem_empty d),
    fun s hs => absurd hs (hts s), fun s hs => absurd hs (hps s), ⟨?_, Finset.notMem_empty _⟩,
    fun d hd => absurd hd (Finset.notMem_empty d), ?_, ?_⟩, rfl⟩
  · have hheld := h.acct.dir_held base hbase
    show refs pageWords p g base ≠ 0
    unfold refs
    omega
  · rintro d (rfl | hd) i _
    · exact h.entries i
    · exact absurd hd (Finset.notMem_empty d)
  · rintro d (rfl | hd) i _ hi hv
    · have ht : p.table (d, i) = some (ppn (p.mem d i)) := by
        unfold Pmap.table
        rw [if_pos hv]
      have hi' : i < pageWords := Nat.lt_trans hi (pdx_lt uvpt)
      refine ⟨?_, Finset.notMem_empty _, fun j hj hvj => ?_⟩
      · have hpos := count_pos (mem_tableSlots.2 ⟨hbase, hi'⟩) ht
        show refs pageWords p g _ ≠ 0
        unfold refs
        omega
      · refine h.pages (d, i, j) (mem_pageSlots.2 ⟨hbase, hi', hj⟩) _ ?_
        rw [pte_of_table ht, if_pos hvj]
    · exact absurd hd (Finset.notMem_empty d)

end Template

theorem ppn_add {pa : Word} {i : Nat} (h : pa.toNat + i * pageSize < 2 ^ 32) :
    ppn (pa + BitVec.ofNat 32 (i * pageSize)) = pa.toNat / 2 ^ 12 + i := by
  have hi : i * pageSize = i * 2 ^ 12 := rfl
  unfold ppn pgshift
  rw [BitVec.toNat_ushiftRight, Nat.shiftRight_eq_div_pow, BitVec.toNat_add, BitVec.toNat_ofNat]
  omega

theorem template_zero {base used : Nat} {p : Pmap} {g : Ledger} (ha : Acct pageWords p g) (hd : g.dirs = {base})
    (hz : ∀ i, p.mem base i = 0) (hu : ∀ f < used, g.held f = 1 ∧ f ≠ base) : Template base used 0 p g := by
  have htable : ∀ i, p.table (base, i) = none := fun i => Sound.table_none (by rw [hz]; exact valid_zero)
  have hone : ∀ d ∈ g.dirs, d = base := fun d hdir => by simpa [hd] using hdir
  have hpte : ∀ s ∈ pageSlots pageWords g.dirs, p.pte s = none := by
    intro s hs
    have hsd : s = (base, s.2.1, s.2.2) := by rw [← hone s.1 (mem_pageSlots.1 hs).1]
    rw [hsd]
    exact Acct.pte_none_of_table (htable s.2.1) s.2.2
  refine ⟨ha, hd, fun f hf => ⟨(hu f hf).1, ⟨?_, ?_⟩, ?_⟩, ?_, fun i => ?_⟩
  · exact fun hc => (hu f hf).2 (hone f hc)
  · intro s hs hc
    have hsd : s = (base, s.2) := by rw [← hone _ (mem_tableSlots.1 hs).1]
    rw [hsd, htable] at hc
    cases hc
  · refine Nat.le_of_eq (count_eq_zero.2 (fun s hs hc => ?_))
    rw [Pmap.frame, hpte s hs] at hc
    cases hc
  · intro s hs w hw
    rw [hpte s hs] at hw
    cases hw
  · rw [hz]
    exact readOnly_zero

theorem template_init {b : Board} {freemem base : Nat} {pm₁ : Pmap}
    (ha : pageAlloc (pageInit b freemem) = some (base, pm₁)) :
    ∃ g, Template base (roundPage freemem / pageSize) 0 (pm₁.setRef base (pm₁.ppRef base + 1)) g := by
  have hacct : Acct pageWords (pageInit b freemem) ⟨∅, fun f => if f < roundPage freemem /
    pageSize then 1 else 0, ∅⟩ := by
    refine Acct.noDirs (npage_pageInit b freemem) (fun f hf => absurd hf (Finset.notMem_empty f)) ?_
      (nodup_pageInit b freemem) ?_
    · intro f _
      show (if f < _ then (1 : BitVec 16) else 0).toNat = if f < _ then 1 else 0
      split <;> rfl
    · intro f
      rw [mem_pageInit]
      simp
  obtain ⟨rest, hf, hpm⟩ := pageAlloc_eq ha
  have hfree : base ∈ (pageInit b freemem).pageFreeList := by simp [hf]
  obtain ⟨-, hr0, -⟩ := hacct.of_free hfree
  have hge : ∀ f, f < roundPage freemem / pageSize → f ≠ base := by
    rintro f hfu rfl
    have hone : (pageInit b freemem).ppRef f = 1 := if_pos hfu
    rw [hone] at hr0
    cases hr0
  obtain ⟨p₂, ha₂, -, hr, -, hm, hacct₁, -⟩ := hacct.alloc hf
  obtain rfl : p₂ = pm₁ := by simpa using ha₂.symm.trans ha
  have hzero : ∀ i, (p₂.setRef base (p₂.ppRef base + 1)).mem base i = 0 := by
    intro i
    show p₂.mem base i = 0
    rw [hm, Function.update_self]
  have href : (p₂.setRef base (p₂.ppRef base + 1)).ppRef = Function.update p₂.ppRef base 1 := by
    show Function.update p₂.ppRef base (p₂.ppRef base + 1) = _
    rw [hr, hr0]
    rfl
  have hdir := @Acct.newDir pageWords p₂ (p₂.setRef base (p₂.ppRef base + 1)) _ hacct₁ base
      (Finset.mem_insert_self base _)
    (fun i _ => by rw [hzero]; exact valid_zero) rfl href rfl (fun _ _ => rfl)
  refine ⟨_, template_zero hdir.1 (by simp) hzero (fun f hfu => ⟨?_, hge f hfu⟩)⟩
  exact (Function.update_of_ne (hge f hfu) _ _).trans (if_pos hfu)

/-- **`env_init`** leaves sound spaces, and none of an environment. -/
theorem envInit_framed {b : Board} {pages : Nat} {pm : Pmap} {k : Kernel} (hb : b.EnvsInKernel)
    (hv : mipsVmInit b = some (pages, pm)) (hk : envInit b pages pm = some k) :
    (∃ g, Framed k g) ∧ k.curenv = none := by
  obtain ⟨⟨pages', freemem⟩, halloc, hp⟩ := Option.map_eq_some_iff.1 hv
  obtain ⟨rfl, rfl⟩ := Prod.mk.inj hp
  have hkern : roundPage kernEnd = kernEnd := by decide
  unfold alloc at halloc
  rw [hkern] at halloc
  split at halloc
  · cases halloc
  · obtain ⟨rfl, rfl⟩ := Prod.mk.inj (Option.some.inj halloc)
    have hnp : b.npage ≤ 2 ^ 20 := npage_pageInit b 0
    obtain ⟨⟨base, pm₁⟩, ha, hk₁⟩ := Option.bind_eq_some_iff.1 hk
    obtain ⟨pm₃, hseg₁, hk₂⟩ := Option.bind_eq_some_iff.1 hk₁
    obtain ⟨pm₄, hseg₂, rfl⟩ := Option.map_eq_some_iff.1 hk₂
    obtain ⟨g₀, h₀⟩ := template_init ha
    have hsize : roundPage (nenv * sizeofEnv) / pageSize = 55 := by decide
    have henvs : b.envsPa.toNat + 225280 ≤ 0x400000 := hb
    -- `pages` lies right behind the kernel, `envs` inside it
    obtain ⟨-, g₁, h₁⟩ := h₀.segment (fun i hi => by
        rw [ppn_add] <;> simp only [BitVec.toNat_ofNat, roundPage, pageSize, kernEnd, sizeofPage] at hi ⊢ <;> omega)
      (by simp only [roundPage, pageSize, sizeofPage]; omega) hseg₁
    obtain ⟨-, g₂, h₂⟩ := h₁.segment (fun i hi => by
        rw [hsize] at hi
        rw [ppn_add] <;> simp only [roundPage, pageSize, kernEnd, sizeofPage] <;> omega)
      (by
        rw [hsize]
        simp only [roundPage, pageSize, sizeofPage]
        omega) hseg₂
    obtain ⟨g, hg, hdirs⟩ := h₂.sound
    have hzero : (0 : Word) < utop := by decide
    refine ⟨⟨g, hg, fun d => ?_, fun e e' he => absurd rfl he, fun c hc => (by cases hc), fun e => ?_⟩, rfl⟩
    · rw [hdirs]
      exact ⟨fun hd => absurd hd (Finset.notMem_empty d), fun ⟨e, he, _⟩ => absurd rfl he⟩
    · exact hzero

/-! ## Loading a program -/

theorem copyIn_frame (f o : Nat) (src : Nat → BitVec 8) (n : Nat) (p : Pmap) :
    (p.copyIn f o src n).npage = p.npage ∧ (p.copyIn f o src n).ppRef = p.ppRef ∧
    (p.copyIn f o src n).pageFreeList = p.pageFreeList ∧ ∀ x, x ≠ f → (p.copyIn f o src n).mem x = p.mem x := by
  unfold Pmap.copyIn
  generalize List.range n = is
  induction is generalizing p with
  | nil => exact ⟨rfl, rfl, rfl, fun _ _ => rfl⟩
  | cons i is ih =>
    obtain ⟨hn, hr, hf, hm⟩ := ih (p.writeByte f (o + i) (src i))
    refine ⟨hn, hr, hf, fun x hx => (hm x hx).trans ?_⟩
    exact Function.update_of_ne hx _ _

theorem segPages_perm {ph : Elf32Phdr} {bin : Nat → BitVec 8} {m : MapPage} (h : m ∈ segPages ph bin) :
    ppn m.perm = 0 := by
  have hperm : ppn (if ph.pFlags &&& pfW ≠ 0 then pteV ||| pteD else pteV) = 0 := by
    split <;> decide
  unfold segPages at h
  simp only [List.mem_append, List.mem_map] at h
  rcases h with (h | ⟨i, -, rfl⟩) | ⟨i, -, rfl⟩
  · split at h
    · rw [List.mem_singleton.1 h]
      exact hperm
    · cases h
  · exact hperm
  · exact hperm

theorem mapPages_ind {σ : Type} {f : MapPage → σ → Option (Int × σ)} {P : σ → Prop} :
    ∀ (ms : List MapPage) {s s' : σ} {r : Int},
    (∀ m ∈ ms, ∀ s r s', P s → f m s = some (r, s') → P s') → P s → mapPages f ms s = some (r, s') → P s'
  | [], s, s', r, _, h, hl => by
    cases hl
    exact h
  | m :: ms, s, s', r, hstep, h, hl => by
    unfold mapPages at hl
    obtain ⟨⟨i, s₁⟩, hone, hrest⟩ := Option.bind_eq_some_iff.1 hl
    have h₁ := hstep m List.mem_cons_self s i s₁ h hone
    split at hrest
    · cases hrest
      exact h₁
    · exact mapPages_ind ms (fun x hx => hstep x (List.mem_cons_of_mem _ hx)) h₁ hrest

/-- **What every page of a program keeps, `load_icode` keeps.** -/
theorem loadIcode_ind {k k' : Kernel} {e : EnvIx} {binary : Binary} {P : Pmap → Prop}
    (hstep : ∀ ehdr, elfFrom binary = some ehdr → ∀ ph ∈ binary.phdrs ehdr, ph.pType = ptLoad →
      ∀ bin, ∀ m ∈ segPages ph bin, ∀ p r p', P p → loadIcodeMapper (k.envs e).envPgdir (k.envs e).envAsid m p =
      some (r, p') → P p')
    (h : P k.pm) (hl : loadIcode k e binary = some k') : ∃ pm entry, P pm ∧
      k' = (k.setPm pm).setEnv e (fun v => { v with envTf := { v.envTf with cp0Epc := entry } }) := by
  obtain ⟨ehdr, hehdr, hrest⟩ := Option.bind_eq_some_iff.1 hl
  obtain ⟨pm, hpm, rfl⟩ := Option.map_eq_some_iff.1 hrest
  refine ⟨pm, ehdr.eEntry, ?_, rfl⟩
  have hphs : ∀ (phs : List Elf32Phdr), (∀ ph ∈ phs, ph ∈ binary.phdrs ehdr) → ∀ {p : Pmap}, P p →
      phs.foldlM (fun p ph =>
        if ph.pType = ptLoad then
          (elfLoadSeg ph (fun i => binary.byte (ph.pOffset.toNat + i))
            (loadIcodeMapper (k.envs e).envPgdir (k.envs e).envAsid) p).bind (fun r =>
            if r.1 = 0 then some r.2 else none)
        else some p) p = some pm → P pm := by
    intro phs
    induction phs with
    | nil =>
      intro _ p hp hf
      cases hf
      exact hp
    | cons ph phs ih =>
      intro hsub p hp hf
      rw [List.foldlM_cons] at hf
      obtain ⟨p₁, hone, hrun⟩ := Option.bind_eq_some_iff.1 hf
      refine ih (fun x hx => hsub x (List.mem_cons_of_mem _ hx)) ?_ hrun
      split at hone
      · rename_i htype
        obtain ⟨⟨i, p₂⟩, hseg, hr⟩ := Option.bind_eq_some_iff.1 hone
        dsimp only at hr
        split at hr
        · cases hr
          exact mapPages_ind _ (hstep ehdr hehdr ph (hsub ph List.mem_cons_self) htype _) hp hseg
        · cases hr
      · cases hone
        exact hp
  exact hphs _ (fun _ hx => hx) h hpm

namespace Sound

variable {base d : Nat} {asid : Word} {p p' : Pmap} {g : Ledger}

/-- The page that `load_icode_mapper` takes and fills, when there is one. -/
theorem loadIcodeMapper_page (h : Sound base p g) {m : MapPage} {r : Int}
    (hl : Mos.loadIcodeMapper d asid m p = some (r, p')) :
    p' = p ∨ ∃ pp p₁ p₂, pageAlloc p = some (pp, p₁) ∧ (∀ x, x ≠ pp → p₂.mem x = p₁.mem x) ∧
      Maps base nothing p p₂ g { g with limbo := insert pp g.limbo } ∧ pp ∈ p.pageFreeList ∧
        g.held pp = 0 ∧ pp ∉ g.dirs ∧
      p₂.ppRef pp = 0 ∧ pageInsert p₂ d asid pp m.va m.perm = some (r, p') := by
  unfold Mos.loadIcodeMapper at hl
  cases ha : pageAlloc p with
  | none =>
    rw [ha] at hl
    cases hl
    exact .inl rfl
  | some a =>
    obtain ⟨pp, p₁⟩ := a
    rw [ha] at hl
    dsimp only at hl
    obtain ⟨hfree, -, -, hm⟩ := h.alloc ha
    have hlimbo := Finset.mem_insert_self pp g.limbo
    obtain ⟨p₂, ⟨hn, href, hfl, hmem⟩, hl⟩ : ∃ p₂ : Pmap, (p₂.npage = p₁.npage ∧ p₂.ppRef = p₁.ppRef ∧
        p₂.pageFreeList = p₁.pageFreeList ∧ ∀ x, x ≠ pp → p₂.mem x = p₁.mem x) ∧
        pageInsert p₂ d asid pp m.va m.perm = some (r, p') := by
      split at hl
      · exact ⟨_, copyIn_frame pp m.offset _ m.len p₁, hl⟩
      · exact ⟨p₁, ⟨rfl, rfl, rfl, fun _ _ => rfl⟩, hl⟩
    have hunused := hm.sound.acct.unref (hm.sound.acct.limbo pp hlimbo).1 (hm.sound.acct.limbo pp hlimbo).2
    have hm₂ := hm.sound.congr hn href hfl (fun f hf => hmem f (fun hc => by
      rw [hc] at hf
      exact hf.elim (fun ho => ho hunused.1) (fun hh => hh hunused.2.2)))
    exact .inr ⟨pp, p₁, p₂, rfl, hmem, (hm.trans hm₂).mono (fun _ _ hn => hn.elim id id), hfree,
      hunused.2.2, hunused.1.dir,
      (hm₂.sound.acct.limbo pp hlimbo).2, hl⟩

theorem loadIcodeMapper (h : Sound base p g) {m : MapPage} {r : Int} (hd : d ∈ g.dirs) (hva : m.va < utop)
    (hperm : ppn m.perm = 0) (hl : Mos.loadIcodeMapper d asid m p = some (r, p')) :
    ∃ g', Maps base (fresh p d) p p' g g' := by
  rcases h.loadIcodeMapper_page hl with rfl | ⟨pp, p₁, p₂, -, -, hm, hfree, hheld, -, hr0, hi⟩
  · exact ⟨g, .refl h⟩
  · have hu := hm.sound.acct.usable_of_limbo (Finset.mem_insert_self pp g.limbo)
    have hor : pp ||| ppn m.perm = pp := by rw [hperm, Nat.or_zero]
    rcases hm.sound.insertPage hd hva hu hheld (.inr (by rw [hr0]; decide)) hor hi with ⟨-, -, -, hm₃⟩ | ⟨-, -, hm₃⟩
    · exact ⟨_, (hm.trans hm₃).mono (fun _ _ hn => hn.elim False.elim False.elim)⟩
    · refine ⟨_, (hm.trans hm₃).mono (fun d' f hn => ?_)⟩
      rcases hn with hn | ⟨rfl, rfl⟩
      · exact hn.elim
      · exact ⟨rfl, hfree⟩

end Sound

namespace Framed

variable {k k' : Kernel} {g : Ledger}

/-- **`load_icode`** fills the space of `e`. -/
theorem loadIcode (h : Framed k g) {e : EnvIx} {binary : Binary} (hlow : binary.Low)
    (hlive : (k.envs e).envStatus ≠ .free) (hl : Mos.loadIcode k e binary = some k') : ∃ g', Framed k' g' := by
  obtain ⟨pm, entry, ⟨g', hm⟩, rfl⟩ := loadIcode_ind
    (P := fun p => ∃ g', Maps k.basePgdir (fun d _ => d = (k.envs e).envPgdir) k.pm p g g') (by
      rintro ehdr hehdr ph hph htype bin m hmem p r p' ⟨g₁, hm₁⟩ hone
      have hd : (k.envs e).envPgdir ∈ g₁.dirs := hm₁.dirs ▸ h.mem hlive
      obtain ⟨g₂, hm₂⟩ := hm₁.sound.loadIcodeMapper hd (hlow ehdr hehdr ph hph htype bin m hmem)
          (segPages_perm hmem) hone
      exact ⟨g₂, (hm₁.trans hm₂).mono (fun _ _ hn => hn.elim id And.left)⟩) ⟨g, .refl h.sound⟩ hl
  have hs : Shares (fun e' _ => e' = e ∧ True) k (k.setPm pm) g' := h.maps hlive (hm.mono (fun _ _ hd => ⟨hd, trivial⟩))
  refine ⟨g', (hs.framed.setEnv e (f := fun v => { v with envTf := { v.envTf with cp0Epc := entry } }) ?_ ?_ ?_).framed⟩
  · exact Iff.rfl
  · rfl
  · exact h.dst e

/-- **`env_create`** -/
theorem envCreate (h : Framed k g) (hal : k.procs.Alive) (hcur : k.curenv = none) {binary : Binary} {priority : Word}
    (hlow : binary.Low) (hc : Mos.envCreate k binary priority = some k') : (∃ g', Framed k' g') ∧ k'.curenv = none := by
  have hrun : ∀ e, k.curenv ≠ some e := fun e he => by rw [hcur] at he; cases he
  unfold Mos.envCreate at hc
  split at hc
  · rename_i i k₁ ha
    cases hc
    rcases envAlloc_inv ha with ⟨-, -, rfl⟩ | ⟨e, rest, pp, pm₁, hf, hall, -⟩
    · exact ⟨⟨g, h⟩, hcur⟩
    · have hfree : (k.envs e).envStatus = .free := hal.free e (by rw [show k.procs.free = e :: rest from hf]; simp)
      obtain ⟨g', hs⟩ := h.allocated_free hall hfree (hrun e)
      exact ⟨⟨g', hs.framed⟩, hall.curenv.trans hcur⟩
  · rename_i e k₁ ha
    obtain ⟨k₂, hl, rfl⟩ := Option.map_eq_some_iff.1 hc
    rcases envAlloc_inv ha with ⟨i, hr, -⟩ | ⟨e', rest, pp, pm₁, hf, hall, hr⟩
    · cases hr
    · obtain rfl : e = e' := by simpa using hr
      have hfree : (k.envs e).envStatus = .free := hal.free e (by rw [show k.procs.free = e :: rest from hf]; simp)
      obtain ⟨g₁, hs⟩ := h.allocated_live hall hfree (hrun e) (f := fun v =>
        { v with envPri := priority, envStatus := .runnable }) rfl (by simp) rfl rfl
      obtain ⟨g', hg'⟩ := hs.framed.loadIcode hlow (by rw [Kernel.setEnv_self]; simp) hl
      have hq : Shares nobody k₂ (k₂.setSched (k₂.sched.insertHead e)) g' := hg'.other rfl rfl rfl rfl rfl
      refine ⟨⟨g', hq.framed⟩, ?_⟩
      obtain ⟨ehdr, -, hrest⟩ := Option.bind_eq_some_iff.1 hl
      obtain ⟨pm, -, rfl⟩ := Option.map_eq_some_iff.1 hrest
      exact hall.curenv.trans hcur

end Framed

/-- **What `env_create` keeps, from a kernel without environments on, holds at boot.** -/
theorem linked_ind {Q : Binary → Prop} {P : Kernel → Prop} (hinit : ∀ k, (∀ e, (k.envs e).envStatus = .free) → P k)
    (hstep : ∀ k g binary priority k', Framed k g → k.procs.Alive → k.curenv = none → binary.Low → Q binary → P k →
      envCreate k binary priority = some k' → P k')
    {b : Board} {programs : List Program} (hb : b.EnvsInKernel) (hlow : ∀ p ∈ programs, p.binary.Low ∧ Q p.binary)
    {k : Kernel} (hk : mipsInit b programs = some k) : (∃ g, Framed k g) ∧ P k := by
  unfold mipsInit at hk
  obtain ⟨⟨pages, pm⟩, hvm, h₁⟩ := Option.bind_eq_some_iff.1 hk
  obtain ⟨k₀, hk₀, hfold⟩ := Option.bind_eq_some_iff.1 h₁
  obtain ⟨hf₀, hcur₀⟩ := envInit_framed hb hvm hk₀
  have hprocs := envInit_procs hk₀
  have hal₀ : k₀.procs.Alive := by
    rw [hprocs]
    exact alive_init _
  have hp₀ : P k₀ := hinit k₀ (fun e => by
    show k₀.procs.status e = .free
    rw [hprocs])
  clear hk₀ hvm hk h₁ hprocs
  induction programs generalizing k₀ with
  | nil =>
    cases hfold
    exact ⟨hf₀, hp₀⟩
  | cons pr prs ih =>
    obtain ⟨k₁, hc, hrest⟩ := Option.bind_eq_some_iff.1 hfold
    obtain ⟨g₀, hg₀⟩ := hf₀
    obtain ⟨hl, hq⟩ := hlow pr List.mem_cons_self
    obtain ⟨hf₁, hcur₁⟩ := hg₀.envCreate hal₀ hcur₀ hl hc
    refine ih (fun p hp => hlow p (List.mem_cons_of_mem _ hp)) k₁ hrest hf₁ hcur₁ ?_
      (hstep k₀ g₀ pr.binary pr.priority k₁ hg₀ hal₀ hcur₀ hl hq hp₀ hc)
    rcases envCreate_procs hc with hp | ⟨e, rest, hf, hp⟩
    · rw [hp]
      exact hal₀
    · rw [hp]
      exact alive_create hal₀ hf

/-- **The kernel boots with its spaces apart.** -/
theorem linked_framed {k : Kernel} (h : Linked k) : ∃ g, Framed k g := by
  obtain ⟨b, programs, hb, hlow, hk⟩ := h
  exact (linked_ind (Q := fun _ => True) (P := fun _ => True) (fun _ _ => trivial)
    (fun _ _ _ _ _ _ _ _ _ _ _ _ => trivial) hb (fun p hp => ⟨hlow p hp, trivial⟩) hk).1

end Mos
