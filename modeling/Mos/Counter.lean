import Mos.Returning
import Mos.Directory
/-!
# Counter — sixteen bits count the mappings of a frame

`pp_ref` is a `u_short`.  While every frame is mapped at no more than 65535 pages, over all environments, the counter
of a frame is the number of its mappings, and no frame with mappings is free.  Nothing in the system calls keeps an
environment from mapping a frame once more.
-/
namespace Mos

/-! ## What is incremented -/

/-- The value of `pp->pp_ref` that `page_insert` increments, from step 2 on. -/
def freshRef (p : Pmap) (pgdir : Nat) (asid : Word) (pp : Nat) (va : Word) : Option (BitVec 16) :=
  (pgdirWalk (tlbInvalidate p asid va) pgdir va true).bind (fun w => w.2.1.map (fun _ => w.2.2.ppRef pp))

/-- The value of `pp->pp_ref` that `page_insert` increments, where it does. -/
def insertRef (p : Pmap) (pgdir : Nat) (asid : Word) (pp : Nat) (va : Word) : Option (BitVec 16) :=
  (pgdirWalk p pgdir va false).bind (fun w =>
    match w.2.1 with
    | none => freshRef p pgdir asid pp va
    | some e =>
      if valid (p.read e) then
        (pa2page p (p.read e)).bind (fun pp' =>
          if pp' = pp then none else (pageRemove p pgdir asid va).bind (fun p₁ => freshRef p₁ pgdir asid pp va))
      else freshRef p pgdir asid pp va)

/-- The value that the `page_insert` of a call increments. -/
def callRef (k : Kernel) (cur : EnvIx) : Syscall → Option (BitVec 16)
  | .memAlloc envid va _ =>
    if isIllegalVa va then none
    else (envid2env k cur envid true).bind (fun e => (pageAlloc k.pm).bind (fun a =>
      insertRef a.2 (k.envs e).envPgdir (k.envs e).envAsid a.1 va))
  | .memMap srcid srcva dstid dstva _ =>
    if isIllegalVa srcva || isIllegalVa dstva then none
    else (envid2env k cur srcid true).bind (fun src => (envid2env k cur dstid true).bind (fun dst =>
      (pageLookup k.pm (k.envs src).envPgdir srcva).bind (fun l => l.bind (fun (pp, _) =>
        insertRef k.pm (k.envs dst).envPgdir (k.envs dst).envAsid pp dstva))))
  | .ipcTrySend envid _ srcva _ =>
    if srcva = 0 ∨ isIllegalVa srcva then none
    else (envid2env k cur envid false).bind (fun e =>
      if (k.envs e).envIpcRecving = 0 then none
      else (pageLookup k.pm (k.envs cur).envPgdir srcva).bind (fun l => l.bind (fun (pp, _) =>
        insertRef k.pm (k.envs e).envPgdir (k.envs e).envAsid pp (k.envs e).envIpcDstva)))
  | _ => none

/-- The value that a system call increments as a step of the machine. -/
def stepRef (k : Kernel) : Act → Option (BitVec 16)
  | .syscall c _ => k.curenv.bind (fun cur => (readArgs k cur).bind (fun k₁ => callRef k₁ cur c))
  | _ => none

/-! ## The condition -/

/-- The pages below `UTOP` that map `f`, over the live environments. -/
def mappings (k : Kernel) (f : Nat) : Nat := count (pageSlots utopEntries k.dirs) k.pm.frame f

/-- Calls pass flags as permissions. -/
def FlagsOnly : Act → Prop
  | .syscall c _ => c.perm < 4096
  | _ => True

/-- The call returns from the check of its addresses. -/
def Syscall.refused : Syscall → Bool
  | .memAlloc _ va _ => isIllegalVa va
  | .memMap _ srcva _ dstva _ => isIllegalVa srcva || isIllegalVa dstva
  | .ipcTrySend _ _ srcva _ => srcva ≠ 0 && isIllegalVa srcva
  | _ => false

def callsNothing : Act → Bool
  | .syscall _ _ => false
  | _ => true

def flagsOnlyB : Act → Bool
  | .syscall c _ => decide (c.perm < 4096)
  | _ => true

/-- **A call maps a frame at another page only while it is mapped at less than 65535.** -/
def Room (k : Kernel) : Act → Prop
  | .syscall c _ => c.refused = false → ∀ cur k₁, k.curenv = some cur → readArgs k cur = some k₁ → ∀ e va pp,
      Asks k₁ cur c e va pp → k₁.frameOf e va = some pp ∨ mappings k₁ pp < 65535
  | _ => True

/-- No frame on the free list is a directory, a table or a page of a live environment. -/
def FreeUnmapped (k : Kernel) : Prop :=
  ∀ f ∈ k.pm.pageFreeList, ∀ e, (k.envs e).envStatus ≠ .free → (k.envs e).envPgdir ≠ f ∧
    ∀ i < utopEntries, k.pm.table ((k.envs e).envPgdir, i) ≠ some f ∧ ∀ j < pageWords, k.frameAt e i j ≠ some f

/-! ## Counters and mappings -/

namespace Acct

variable {lim : Nat} {p : Pmap} {g : Ledger} {d pp : Nat} {va : Word}

theorem freshRef_eq (h : Acct lim p g) (hd : d ∈ g.dirs) (hva : pdx va < lim) (hnf : pp ∉ p.pageFreeList)
    {asid : Word} {r : BitVec 16} (hr : freshRef p d asid pp va = some r) : r = p.ppRef pp := by
  unfold freshRef at hr
  rcases (h.tlb asid va).walk_create hd hva with ⟨t, -, hw⟩ | ⟨-, -, hw⟩ | ⟨t, rest, p₁, -, hf, hw, -, -, href, -⟩
  · rw [hw] at hr
    exact (Option.some.inj hr).symm
  · rw [hw] at hr
    cases hr
  · rw [hw] at hr
    have hpt : pp ≠ t := by
      rintro rfl
      apply hnf
      have hf' : p.pageFreeList = pp :: rest := hf
      rw [hf']
      exact List.mem_cons_self
    have hr' : p₁.ppRef pp = r := Option.some.inj hr
    rw [← hr', href, Function.update_of_ne hpt]
    rfl

/-- **`page_insert` increments the counter as it was at the call**, for a page that is not mapped there. -/
theorem insertRef_eq (h : Acct lim p g) (hd : d ∈ g.dirs) (hva : pdx va < lim) (hnf : pp ∉ p.pageFreeList)
    {asid : Word} {r : BitVec 16} (hr : insertRef p d asid pp va = some r) :
    p.frame (slotOf d va) ≠ some pp ∧ r = p.ppRef pp := by
  unfold insertRef at hr
  cases ht : p.table (d, pdx va) with
  | none =>
    rw [walk_none ht] at hr
    refine ⟨?_, h.freshRef_eq hd hva hnf hr⟩
    rw [Pmap.frame, slotOf, pte_none_of_table ht]
    simp
  | some t =>
    have hlt := h.tree.table_lt _ (mem_tableSlots.2 ⟨hd, hva⟩) t ht
    rw [walk_of_table ht hlt] at hr
    simp only [Option.bind_some] at hr
    have hpte : p.pte (slotOf d va) = if valid (p.read (t, ptx va)) then some (p.read (t, ptx va)) else none :=
      pte_of_table ht _
    split at hr
    · rename_i hv
      rw [if_pos hv] at hpte
      obtain ⟨pp', hpa, hr⟩ := Option.bind_eq_some_iff.1 hr
      have hpp' : p.frame (slotOf d va) = some pp' := by
        unfold pa2page at hpa
        split at hpa
        · rw [Pmap.frame, hpte, Option.map_some]
          exact hpa
        · cases hpa
      split at hr
      · cases hr
      · rename_i hne
        obtain ⟨p₁, hrm, hr⟩ := Option.bind_eq_some_iff.1 hr
        obtain ⟨p₁', hrm', hacct, -, -, -, href, hfl, -⟩ := h.removePage hd hva asid
        obtain rfl : p₁' = p₁ := by simpa using hrm'.symm.trans hrm
        have hframe : p.frame (slotOf d va) ≠ some pp := by
          rw [hpp']
          exact fun hc => hne (Option.some.inj hc)
        refine ⟨hframe, ?_⟩
        rw [← href pp hframe]
        exact hacct.freshRef_eq hd hva (fun hc => (hfl pp hc).elim hnf hframe) hr
    · rename_i hv
      rw [if_neg hv] at hpte
      refine ⟨?_, h.freshRef_eq hd hva hnf hr⟩
      rw [Pmap.frame, hpte]
      simp

end Acct

namespace Framed

variable {k k' : Kernel} {g : Ledger}

/-- **The counter of a mapped frame is the number of its mappings.** -/
theorem ref_mapped (h : Framed k g) {e : EnvIx} {i j f : Nat} (he : (k.envs e).envStatus ≠ .free) (hi : i < utopEntries)
    (hj : j < pageWords) (hf : k.frameAt e i j = some f) : (k.pm.ppRef f).toNat = mappings k f := by
  have hslot : ((k.envs e).envPgdir, i, j) ∈ pageSlots utopEntries g.dirs := mem_pageSlots.2 ⟨h.mem he, hi, hj⟩
  rw [h.sound.acct.ref f (h.sound.acct.tree.frame_lt _ hslot f hf)]
  unfold refs mappings
  rw [count_eq_zero.2 (h.sound.acct.tree.frame_table _ hslot f hf), h.sound.frame _ hslot f hf, h.dirs_eq]
  omega

theorem ref_frameOf (h : Framed k g) {e : EnvIx} {va : Word} {f : Nat} (he : (k.envs e).envStatus ≠ .free)
    (hva : va < utop) (hf : k.frameOf e va = some f) : (k.pm.ppRef f).toNat = mappings k f :=
  h.ref_mapped he (pdx_lt_utop.2 hva) (ptx_lt va) hf

theorem freeUnmapped (h : Framed k g) : FreeUnmapped k := by
  intro f hf e he
  obtain ⟨htab, hframe⟩ := h.sound.acct.not_free hf
  refine ⟨?_, fun i hi => ⟨?_, fun j hj => ?_⟩⟩
  · rintro rfl
    exact h.sound.acct.dir_ref (h.mem he) (h.sound.acct.of_free hf).2.1
  · exact htab _ (mem_tableSlots.2 ⟨h.mem he, hi⟩)
  · exact hframe _ (mem_pageSlots.2 ⟨h.mem he, hi, hj⟩)

end Framed

/-! ## Runs -/

/-- What holds along a run in which every frame has room. -/
structure Accounted (k : Kernel) : Prop where
  alive : k.procs.Alive
  framed : ∃ g, Framed k g

namespace Accounted

variable {k k' : Kernel}

theorem linked (h : Linked k) : Accounted k := ⟨booted_alive h.booted, linked_framed h⟩

theorem readArgs (h : Accounted k) {cur : EnvIx} (hcur : k.curenv = some cur) (hr : Mos.readArgs k cur = some k') :
    Accounted k' ∧ k'.curenv = some cur := by
  obtain ⟨g, hg⟩ := h.framed
  obtain ⟨g₁, hs, -⟩ := hg.readArgs hcur (h.alive.running cur hcur) hr
  obtain ⟨pm, rfl⟩ := readArgs_eq hr
  exact ⟨⟨h.alive, g₁, hs.framed⟩, hcur⟩

theorem ref_asked (h : Accounted k) {cur : EnvIx} (hcur : k.curenv = some cur) {c : Syscall} (hc : c.refused = false)
    {e : EnvIx} {va : Word} {pp : Nat} (ha : Asks k cur c e va pp) :
    k.pm.ppRef pp = 0 ∨ (k.pm.ppRef pp).toNat = mappings k pp := by
  obtain ⟨g, hg⟩ := h.framed
  have hlive := h.alive.running cur hcur
  cases c with
  | memAlloc envid va' perm =>
    have hmem : pp ∈ k.pm.pageFreeList := List.mem_of_mem_head? (Option.mem_def.2 ha.2.2)
    exact .inl (hg.sound.acct.of_free hmem).2.1
  | memMap srcid srcva dstid dstva perm =>
    obtain ⟨-, -, src, hsrc, hf⟩ := ha
    have hlegal : isIllegalVa srcva = false := (Bool.or_eq_false_iff.1 hc).1
    exact .inr (hg.ref_frameOf (envid2env_live hlive hsrc) (legal_lt hlegal) hf)
  | ipcTrySend envid value srcva perm =>
    obtain ⟨hne, -, -, -, hf⟩ := ha
    have hlegal : isIllegalVa srcva = false := by
      simp only [Syscall.refused, Bool.and_eq_false_iff, decide_eq_false_iff_not, not_not] at hc
      exact hc.resolve_left hne
    exact .inr (hg.ref_frameOf hlive (legal_lt hlegal) hf)
  | _ => exact ha.elim

theorem ref_lt (h : Accounted k) {cur : EnvIx} (hcur : k.curenv = some cur) {c : Syscall} (hc : c.refused = false)
    {e : EnvIx} {va : Word} {pp : Nat} (ha : Asks k cur c e va pp) (hm : mappings k pp < 65535) :
    k.pm.ppRef pp < 65535 := by
  rcases h.ref_asked hcur hc ha with hr | hr
  · rw [hr]
    decide
  · rw [BitVec.lt_def, hr]
    exact hm

/-- **Room in the counters is what the mappings need.** -/
theorem mapSafe (h : Accounted k) {c : Syscall} {v0 : Word} (hc : c.refused = false)
    (hflags : FlagsOnly (.syscall c v0)) (hroom : Room k (.syscall c v0)) : MapSafe k (.syscall c v0) := by
  intro cur k₁ hcur hr e va pp ha
  obtain ⟨h₁, hcur₁⟩ := h.readArgs hcur hr
  refine .inr ⟨by rw [Account.ppn_flags hflags, Nat.or_zero], (hroom hc cur k₁ hcur hr e va pp ha).imp id ?_⟩
  exact h₁.ref_lt hcur₁ hc ha

theorem refused_eq {cur : EnvIx} {c : Syscall} (hc : c.refused = true) :
    syscallTable k cur c = syscallTable k cur (.memUnmap 0 0) := by
  have hzero : syscallTable k cur (.memUnmap 0 0) = ret (-eInval) k := rfl
  rw [hzero]
  cases c with
  | memAlloc envid va perm => exact if_pos hc
  | memMap srcid srcva dstid dstva perm => exact if_pos hc
  | ipcTrySend envid value srcva perm =>
    have hc' : srcva ≠ 0 ∧ isIllegalVa srcva = true := by simpa [Syscall.refused] using hc
    exact if_pos hc'
  | _ => cases hc

theorem step_refused {c : Syscall} {v0 : Word} (hc : c.refused = true) :
    Mos.step k (.syscall c v0) = Mos.step k (.syscall (.memUnmap 0 0) v0) := by
  have hcall : ∀ cur, doSyscall k cur c v0 = doSyscall k cur (.memUnmap 0 0) v0 := by
    intro cur
    unfold doSyscall
    refine congrArg (Option.bind (Mos.readArgs k cur)) (funext fun k₁ => ?_)
    rw [refused_eq hc]
  show k.curenv.bind (fun cur => doSyscall k cur c v0) = k.curenv.bind (fun cur => doSyscall k cur (.memUnmap 0 0) v0)
  exact congrArg (Option.bind k.curenv) (funext hcall)

theorem step_safe (h : Accounted k) {a : Act} (hsafe : MapSafe k a) (hs : Mos.step k a = some k') : Accounted k' := by
  obtain ⟨g, hg⟩ := h.framed
  obtain ⟨g', hsh⟩ := hg.step h.alive hsafe hs
  exact ⟨alive_of_moves h.alive (step_moves hs), g', hsh.framed⟩

theorem step (h : Accounted k) {a : Act} (hflags : FlagsOnly a) (hroom : Room k a) (hs : Mos.step k a = some k') :
    Accounted k' := by
  cases a with
  | syscall c v0 =>
    cases hc : c.refused with
    | false => exact h.step_safe (h.mapSafe hc hflags hroom) hs
    | true =>
      rw [step_refused hc] at hs
      exact h.step_safe (a := .syscall (.memUnmap 0 0) v0) (fun _ _ _ _ _ _ _ ha => ha.elim) hs
  | _ => exact h.step_safe (by trivial) hs

/-- **The counter that a call increments has room.** -/
theorem callRef_lt (h : Accounted k) {cur : EnvIx} (hcur : k.curenv = some cur) {c : Syscall} {r : BitVec 16}
    (hroom : c.refused = false → ∀ e va pp, Asks k cur c e va pp → k.frameOf e va = some pp ∨ mappings k pp < 65535)
    (hr : callRef k cur c = some r) : r < 65535 := by
  obtain ⟨g, hg⟩ := h.framed
  have hlive := h.alive.running cur hcur
  -- a page that is in use is inserted
  have hused : ∀ (hc : c.refused = false) (src e : EnvIx) (srcva va : Word) (l : Option (Nat × PtePtr)),
      (k.envs src).envStatus ≠ .free → (k.envs e).envStatus ≠ .free → srcva < utop → va < utop →
      pageLookup k.pm (k.envs src).envPgdir srcva = some l →
        (∀ pp, k.frameOf src srcva = some pp → Asks k cur c e va pp) →
      (l.bind fun (pp, _) => insertRef k.pm (k.envs e).envPgdir (k.envs e).envAsid pp va) = some r → r < 65535 := by
    intro hc src e srcva va l hsrc he hsva hva hl hasks hr
    obtain ⟨⟨pp, ptr⟩, rfl, hr⟩ := Option.bind_eq_some_iff.1 hr
    have hf : k.frameOf src srcva = some pp := (hg.lookup hsrc hsva hl).symm
    have hu := hg.sound.acct.usable_of_frame (slotOf_mem (hg.mem hsrc) (pdx_lt_utop.2 hsva)) hf
    obtain ⟨hne, rfl⟩ := hg.sound.acct.insertRef_eq (hg.mem he) (pdx_lt_utop.2 hva) hu.notFree hr
    exact h.ref_lt hcur hc (hasks pp hf) ((hroom hc e va pp (hasks pp hf)).resolve_left hne)
  cases c with
  | memAlloc envid va perm =>
    simp only [callRef] at hr
    split at hr
    · cases hr
    · rename_i hva
      have hva' : va < utop := legal_lt (by simpa using hva)
      obtain ⟨e, he, hr⟩ := Option.bind_eq_some_iff.1 hr
      obtain ⟨⟨pp, pm⟩, ha, hr⟩ := Option.bind_eq_some_iff.1 hr
      obtain ⟨-, -, -, hm⟩ := hg.sound.alloc ha
      have hacct := hm.sound.acct
      have hlimbo := Finset.mem_insert_self pp g.limbo
      have hu := hacct.usable_of_limbo hlimbo
      have hd := hg.mem (envid2env_live hlive he)
      obtain ⟨-, rfl⟩ := hacct.insertRef_eq hd (pdx_lt_utop.2 hva') hu.notFree hr
      rw [(hacct.limbo pp hlimbo).2]
      decide
  | memMap srcid srcva dstid dstva perm =>
    simp only [callRef] at hr
    split at hr
    · cases hr
    · rename_i hva
      have hc : (Syscall.memMap srcid srcva dstid dstva perm).refused = false := by simpa [Syscall.refused] using hva
      obtain ⟨hsva, hdva⟩ := Bool.or_eq_false_iff.1 hc
      obtain ⟨src, hsrc, hr⟩ := Option.bind_eq_some_iff.1 hr
      obtain ⟨dst, hdst, hr⟩ := Option.bind_eq_some_iff.1 hr
      obtain ⟨l, hl, hr⟩ := Option.bind_eq_some_iff.1 hr
      exact hused hc src dst srcva dstva l (envid2env_live hlive hsrc) (envid2env_live hlive hdst) (legal_lt hsva)
        (legal_lt hdva) hl (fun pp hf => ⟨hdst, rfl, src, hsrc, hf⟩) hr
  | ipcTrySend envid value srcva perm =>
    simp only [callRef] at hr
    split at hr
    · cases hr
    · rename_i hva
      obtain ⟨hne, hlegal⟩ := not_or.1 hva
      have hlegal' : isIllegalVa srcva = false := by simpa using hlegal
      have hc : (Syscall.ipcTrySend envid value srcva perm).refused = false := by simp [Syscall.refused, hlegal']
      obtain ⟨e, he, hr⟩ := Option.bind_eq_some_iff.1 hr
      split at hr
      · cases hr
      · rename_i hrec
        obtain ⟨l, hl, hr⟩ := Option.bind_eq_some_iff.1 hr
        exact hused hc cur e srcva _ l hlive (envid2env_live hlive he) (legal_lt hlegal') (hg.dst e) hl
          (fun pp hf => ⟨hne, he, hrec, rfl, hf⟩) hr
  | _ => cases hr

end Accounted

/-- **The counters never wrap** along a run in which no frame is mapped at more than 65535 pages, and no frame on the
free list is mapped. -/
theorem counter_never_wraps (k : Kernel) (h : Run Linked step (fun k a => FlagsOnly a ∧ Room k a) k) :
    FreeUnmapped k ∧ ∀ a, FlagsOnly a → Room k a → ∀ r, stepRef k a = some r → r < 65535 := by
  have hacc : Accounted k :=
    Run.invariant Accounted (fun _ hl => Accounted.linked hl) (fun _ _ _ hk hok hs => hk.step hok.1 hok.2 hs) k h
  obtain ⟨g, hg⟩ := hacc.framed
  refine ⟨hg.freeUnmapped, fun a hflags hroom r hr => ?_⟩
  cases a with
  | syscall c v0 =>
    obtain ⟨cur, hcur, hr⟩ := Option.bind_eq_some_iff.1 hr
    obtain ⟨k₁, hk₁, hr⟩ := Option.bind_eq_some_iff.1 hr
    obtain ⟨hacc₁, hcur₁⟩ := hacc.readArgs hcur hk₁
    exact hacc₁.callRef_lt hcur₁ (fun hc => hroom hc cur k₁ hcur hk₁) hr
  | _ => cases hr

theorem Accounted.mappings_free {k : Kernel} (h : Accounted k) {f : Nat} (hf : f ∈ k.pm.pageFreeList) :
    mappings k f = 0 := by
  obtain ⟨g, hg⟩ := h.framed
  unfold mappings
  rw [hg.dirs_eq]
  exact count_eq_zero.2 (hg.sound.acct.not_free hf).2

/-- The first page of an environment. -/
theorem counter_never_wraps_first : ∃ k, FreeUnmapped k ∧ stepRef k (.syscall (.memAlloc 0 0x800000 pteD) 0) = some 0 ∧
    (0 : BitVec 16) < 65535 := by
  have hok : ∀ (k : Kernel) (a : Act), callsNothing a = true → FlagsOnly a ∧ Room k a := by
    intro k a h
    cases a with
    | syscall c v0 => cases h
    | _ => exact ⟨trivial, trivial⟩
  obtain ⟨k, hr, hk⟩ := @Run.exists_of_exec Kernel Act Linked step (fun k a => FlagsOnly a ∧ Room k a) _ hok
    [.tick, .exec stackFrame] (mipsInit smallBoard [emptyProgram]) Granted.linked_small
    (fun k => decide (stepRef k (.syscall (.memAlloc 0 0x800000 pteD) 0) = some 0)) (by decide +kernel)
  have hs := of_decide_eq_true hk
  have ha : Accounted k :=
    Run.invariant Accounted (fun _ hl => Accounted.linked hl) (fun _ _ _ hk hok hs => hk.step hok.1 hok.2 hs) k hr
  obtain ⟨hfree, hlt⟩ := counter_never_wraps k hr
  have hflags : FlagsOnly (.syscall (.memAlloc 0 0x800000 pteD) 0) := show pteD < 4096 by decide
  refine ⟨k, hfree, hs, hlt _ hflags (fun _ cur k₁ hcur hk₁ e va pp hasks => .inr ?_) 0 hs⟩
  have hmem : pp ∈ k₁.pm.pageFreeList := List.mem_of_mem_head? (Option.mem_def.2 hasks.2.2)
  rw [(ha.readArgs hcur hk₁).1.mappings_free hmem]
  decide

/-! ## Once too often

The first environment maps the page at `0x800000` at the pages that follow. -/

/-- What the counters and the free list are after a page was mapped where none was. -/
theorem insertFresh_counts {p p' : Pmap} {d pp : Nat} {asid va perm : Word} (hnf : pp ∉ p.pageFreeList)
    (h : pageInsertFresh p d asid pp va perm = some (0, p')) : p'.ppRef pp = p.ppRef pp + 1 ∧
      p.pageFreeList.length ≤ p'.pageFreeList.length + if p.table (d, pdx va) = none then 1 else 0 := by
  obtain ⟨⟨c, e, q⟩, hw, he⟩ := Option.map_eq_some_iff.1 h
  cases e with
  | none => exact absurd (Prod.mk.inj he).1 (by decide)
  | some e =>
    obtain ⟨-, rfl⟩ := Prod.mk.inj he
    show Function.update q.ppRef pp (q.ppRef pp + 1) pp = _ ∧ p.pageFreeList.length ≤ q.pageFreeList.length + _
    rw [Function.update_self]
    unfold pgdirWalk at hw
    split at hw
    · obtain ⟨t, -, hq⟩ := Option.map_eq_some_iff.1 hw
      obtain ⟨-, -, rfl⟩ : 0 = c ∧ _ = e ∧ tlbInvalidate p asid va = q := by simpa using hq
      exact ⟨rfl, Nat.le_add_right _ _⟩
    · rename_i hv
      have ht : p.table (d, pdx va) = none := table_eq_none.2 (Bool.eq_false_iff.2 hv)
      rw [if_pos rfl] at hw
      cases hf : p.pageFreeList with
      | nil =>
        have hf' : (tlbInvalidate p asid va).pageFreeList = [] := hf
        simp only [pageAlloc, hf'] at hw
        cases hw
      | cons t rest =>
        have hf' : (tlbInvalidate p asid va).pageFreeList = t :: rest := hf
        have hpt : pp ≠ t := fun hc => hnf (by rw [hf, hc]; exact List.mem_cons_self)
        simp only [pageAlloc, hf'] at hw
        obtain ⟨t', -, hq⟩ := Option.map_eq_some_iff.1 hw
        obtain ⟨-, -, rfl⟩ := Prod.mk.inj hq |>.imp_right Prod.mk.inj
        rw [if_pos ht]
        refine ⟨?_, Nat.le_refl _⟩
        show Function.update p.ppRef t 1 pp + 1 = _
        rw [Function.update_of_ne hpt]

theorem Acct.insert_unmapped {lim : Nat} {p : Pmap} {g : Ledger} {d pp : Nat} {asid va perm : Word} (h : Acct lim p g)
    (hd : d ∈ g.dirs) (hva : pdx va < lim) (hnone : p.frame (slotOf d va) = none) :
    pageInsert p d asid pp va perm = pageInsertFresh p d asid pp va perm := by
  unfold pageInsert
  cases ht : p.table (d, pdx va) with
  | none =>
    rw [walk_none ht]
    rfl
  | some t =>
    have hv : ¬valid (p.read (t, ptx va)) = true := by
      intro hv
      have hv' : valid (p.mem t (ptx va)) = true := hv
      rw [Pmap.frame, slotOf, pte_of_table ht, if_pos hv'] at hnone
      cases hnone
    rw [walk_of_table ht (h.tree.table_lt _ (mem_tableSlots.2 ⟨hd, hva⟩) t ht)]
    simp only [Option.bind_some, if_neg hv]

theorem Framed.touch_mapped {k : Kernel} {g : Ledger} (h : Framed k g) {c : EnvIx} {va : Word} (hc : k.curenv = some c)
    (hlive : (k.envs c).envStatus ≠ .free) (hva : va < utop) (hf : k.frameOf c va ≠ none) : k.touch c va = some k := by
  obtain ⟨l, hl, hlf⟩ := h.sound.acct.lookup (h.mem hlive) (pdx_lt_utop.2 hva)
  have hul : ¬ulim ≤ va := by
    intro hc
    have : utop < ulim := by decide
    rw [BitVec.le_def] at hc
    rw [BitVec.lt_def] at hva this
    omega
  cases l with
  | none => exact absurd hlf.symm hf
  | some l =>
    unfold Kernel.touch Mos.touch
    rw [h.cur c hc, if_neg hul, hl]
    rfl

/-- The pages the page is mapped at. -/
def crowdVa (i : Nat) : Word := BitVec.ofNat 32 (0x800000 + i * 4096)

/-- The call that maps the page once more. -/
def crowdCall (i : Nat) : Act := .syscall (.memMap 0 (crowdVa 0) 0 (crowdVa i) pteD) 0

theorem step_call {k : Kernel} {cur : EnvIx} {c : Syscall} {v0 : Word} (h : k.curenv = some cur) :
    Mos.step k (.syscall c v0) = doSyscall k cur c v0 := by
  show k.curenv.bind (fun cur => doSyscall k cur c v0) = _
  rw [h]
  rfl

/-- The page is mapped `n + 1` times, and there is memory for the tables that are missing. -/
structure Crowded (n : Nat) (k : Kernel) : Prop where
  accounted : Accounted k
  cur : k.curenv = some 0
  sp : k.ktf.regs 29 = ustacktop - 128
  stack : k.frameOf 0 (ustacktop - 112) ≠ none ∧ k.frameOf 0 (ustacktop - 108) ≠ none
  page : ∀ i < 65536, k.frameOf 0 (crowdVa i) = if i ≤ n then some 1273 else none
  ref : k.pm.ppRef 1273 = BitVec.ofNat 16 (n + 1)
  table : ∀ i ≤ n / 1024, k.pm.table ((k.envs 0).envPgdir, 2 + i) ≠ none
  room : 64 ≤ n / 1024 + 1 + k.pm.pageFreeList.length

theorem crowdVa_fields {i : Nat} (h : i < 65536) : pdx (crowdVa i) = 2 + i / 1024 ∧ ptx (crowdVa i) = i % 1024 := by
  have ha : (crowdVa i).toNat = 0x800000 + i * 4096 := by
    unfold crowdVa
    rw [BitVec.toNat_ofNat]
    omega
  rw [pdx_eq, ptx_eq, ha]
  omega

theorem crowdVa_legal {i : Nat} (h : i < 65536) : isIllegalVa (crowdVa i) = false ∧ crowdVa i < utop := by
  have ha : (crowdVa i).toNat = 0x800000 + i * 4096 := by
    unfold crowdVa
    rw [BitVec.toNat_ofNat]
    omega
  have htemp : utemp.toNat = 0x3FE000 := by decide
  have htop : utop.toNat = 0x7F400000 := by decide
  have hlt : crowdVa i < utop := by
    rw [BitVec.lt_def, ha, htop]
    omega
  refine ⟨?_, hlt⟩
  unfold isIllegalVa
  rw [Bool.or_eq_false_iff, decide_eq_false_iff_not, decide_eq_false_iff_not, BitVec.lt_def,
    ge_iff_le, BitVec.le_def, ha,
    htemp, htop]
  omega

namespace Crowded

variable {n : Nat} {k : Kernel}

theorem readArgs (h : Crowded n k) : Mos.readArgs k 0 = some { k with ktf := k.ktf.nextInstr } := by
  obtain ⟨g, hg⟩ := h.accounted.framed
  have hlive := h.accounted.alive.running 0 h.cur
  have hn := (hg.ktf k.ktf.nextInstr).framed
  have h₁ : ustacktop - 128 + 16 = ustacktop - 112 := by decide
  have h₂ : ustacktop - 128 + 20 = ustacktop - 108 := by decide
  unfold Mos.readArgs
  dsimp only
  rw [h.sp, h₁, h₂, hn.touch_mapped h.cur hlive (by decide) h.stack.1]
  exact hn.touch_mapped h.cur hlive (by decide) h.stack.2

theorem lookup (h : Crowded n k) : ∃ e, pageLookup k.pm (k.envs 0).envPgdir (crowdVa 0) = some (some (1273, e)) := by
  obtain ⟨g, hg⟩ := h.accounted.framed
  have hd := hg.mem (h.accounted.alive.running 0 h.cur)
  obtain ⟨l, hl, hf⟩ := hg.sound.acct.lookup hd (pdx_lt_utop.2 (crowdVa_legal (i := 0) (by decide)).2)
  have hpage := h.page 0 (by decide)
  rw [if_pos (Nat.zero_le n)] at hpage
  have hf' : l.map Prod.fst = some 1273 := hf.trans hpage
  obtain ⟨⟨pp, e⟩, rfl, hpp⟩ := Option.map_eq_some_iff.1 hf'
  obtain rfl : pp = 1273 := hpp
  exact ⟨e, hl⟩

theorem safe (h : Crowded n k) (hn : n < 65534) : MapSafe k (crowdCall (n + 1)) := by
  intro cur k₁ hcur hr e va pp ⟨hdst, hva, src, hsrc, hf⟩
  obtain rfl : cur = 0 := Option.some.inj (hcur.symm.trans h.cur)
  obtain rfl : _ = k₁ := Option.some.inj (h.readArgs.symm.trans hr)
  obtain rfl : 0 = src := Option.some.inj hsrc
  have hpage := h.page 0 (by decide)
  rw [if_pos (Nat.zero_le n)] at hpage
  obtain rfl : 1273 = pp := Option.some.inj (hpage.symm.trans hf)
  have hflags : ppn pteD = 0 := by decide
  refine .inr ⟨?_, .inr ?_⟩
  · show 1273 ||| ppn pteD = 1273
    rw [hflags]
    rfl
  · show k.pm.ppRef 1273 < 65535
    rw [h.ref, BitVec.lt_def, BitVec.toNat_ofNat]
    show (n + 1) % 65536 < 65535
    omega

/-- **The page is mapped once more.** -/
theorem step (h : Crowded n k) (hn : n < 65534) :
    ∃ k', Mos.step k (crowdCall (n + 1)) = some k' ∧ Crowded (n + 1) k' := by
  obtain ⟨g, hg⟩ := h.accounted.framed
  have hlive := h.accounted.alive.running 0 h.cur
  have hd := hg.mem hlive
  obtain ⟨hlegal, hva⟩ := crowdVa_legal (i := n + 1) (by omega)
  have hva' := pdx_lt_utop.2 hva
  have hpage := h.page 0 (by decide)
  rw [if_pos (Nat.zero_le n)] at hpage
  have hu : Acct.Usable utopEntries k.pm g 1273 :=
    hg.sound.acct.usable_of_frame (slotOf_mem hd (pdx_lt_utop.2 (crowdVa_legal (i := 0) (by decide)).2)) hpage
  have hnone : k.pm.frame (slotOf (k.envs 0).envPgdir (crowdVa (n + 1))) = none := by
    have := h.page (n + 1) (by omega)
    rwa [if_neg (by omega)] at this
  have href : k.pm.ppRef 1273 < 65535 := by
    rw [h.ref, BitVec.lt_def, BitVec.toNat_ofNat]
    show (n + 1) % 65536 < 65535
    omega
  have hperm : 1273 ||| ppn pteD = 1273 := by decide
  rcases hg.sound.acct.insertPage hd hva' (k.envs 0).envAsid hu (.inr href) hperm with ⟨ht, hf, -⟩ | ⟨p', hins, hi⟩
  · -- there is memory for the table
    have hroom := h.room
    rw [hf, List.length_nil] at hroom
    have hix : n / 1024 = 63 := by omega
    rw [(crowdVa_fields (i := n + 1) (by omega)).1] at ht
    exact absurd ht (h.table _ (by omega))
  · have hcounts := insertFresh_counts hu.notFree ((hg.sound.acct.insert_unmapped hd hva' hnone).symm.trans hins)
    obtain ⟨e, hl⟩ := h.lookup
    have hcall : syscallTable { k with ktf := k.ktf.nextInstr } 0 (.memMap 0 (crowdVa 0) 0 (crowdVa (n + 1)) pteD) =
        ret 0 ({ k with ktf := k.ktf.nextInstr }.setPm p') := by
      have hl0 : isIllegalVa (crowdVa 0) = false := (crowdVa_legal (i := 0) (by decide)).1
      simp only [syscallTable, sysMemMap, hl0, hlegal, Bool.or_self, Bool.false_eq_true, if_false,
        envid2env, if_true, hl,
        Option.bind_some, hins]
    have hstep : Mos.step k (crowdCall (n + 1)) =
        some (setV0 0 (.ret 0, { k with ktf := k.ktf.nextInstr }.setPm p')) := by
      rw [crowdCall, step_call h.cur, doSyscall, h.readArgs, Option.bind_some, hcall]
      rfl
    have hframe : ∀ va < utop, p'.frame (slotOf (k.envs 0).envPgdir va) =
        if slotOf (k.envs 0).envPgdir va = slotOf (k.envs 0).envPgdir (crowdVa (n + 1)) then some 1273
        else k.frameOf 0 va := by
      intro va hva₁
      have hppn : ppn (entryOf 1273 pteD) = 1273 := by decide
      rw [Pmap.frame, hi.pte _ (slotOf_mem hd (pdx_lt_utop.2 hva₁))]
      split
      · rw [Option.map_some, hppn]
      · rfl
    have hmapped : ∀ va < utop, k.frameOf 0 va ≠ none → p'.frame (slotOf (k.envs 0).envPgdir va) ≠ none := by
      intro va hva₁ hold
      rw [hframe va hva₁]
      split
      · simp
      · exact hold
    refine ⟨_, hstep, h.accounted.step_safe (h.safe hn) hstep, h.cur, ?_, ?_, ?_, ?_, ?_, ?_⟩
    · show (k.ktf.nextInstr.setReg 2 (BitVec.ofInt 32 0)).regs 29 = _
      rw [← h.sp]
      rfl
    · exact ⟨hmapped _ (by decide) h.stack.1, hmapped _ (by decide) h.stack.2⟩
    · intro i hi₁
      obtain ⟨hpi, hti⟩ := crowdVa_fields hi₁
      obtain ⟨hpn, htn⟩ := crowdVa_fields (i := n + 1) (by omega)
      refine (hframe _ (crowdVa_legal hi₁).2).trans ?_
      rw [h.page i hi₁]
      unfold slotOf
      rw [hpi, hti, hpn, htn]
      by_cases hin : i = n + 1
      · subst hin
        rw [if_pos rfl, if_pos (Nat.le_refl _)]
      · rw [if_neg (fun hc => by
          obtain ⟨h₁, h₂⟩ := Prod.mk.inj (Prod.mk.inj hc).2
          omega)]
        by_cases hle : i ≤ n
        · rw [if_pos hle, if_pos (by omega)]
        · rw [if_neg hle, if_neg (by omega)]
    · show p'.ppRef 1273 = _
      rw [hcounts.1, h.ref]
      exact (BitVec.ofNat_add (n + 1) 1).symm
    · intro i hi₁
      show p'.table ((k.envs 0).envPgdir, 2 + i) ≠ none
      have hpn := (crowdVa_fields (i := n + 1) (by omega)).1
      by_cases hin : i = (n + 1) / 1024
      · -- the table of the new page
        have hp := hi.pte _ (slotOf_mem hd hva')
        rw [if_pos rfl] at hp
        obtain ⟨t, ht, -⟩ := table_of_pte hp
        have ht' : p'.table ((k.envs 0).envPgdir, pdx (crowdVa (n + 1))) = some t := ht
        rw [hin, ← hpn, ht']
        simp
      · have hold := h.table i (by omega)
        unfold Pmap.table at hold ⊢
        dsimp only at hold ⊢
        rcases hi.dir _ hd (2 + i) with hm | ⟨-, t, hm⟩
        · rw [hm]
          exact hold
        · rw [hm, if_pos (show valid (Acct.tableEntry t) = true from valid_or_pteV _)]
          simp
    · show 64 ≤ (n + 1) / 1024 + 1 + p'.pageFreeList.length
      have hroom := h.room
      have hpn := (crowdVa_fields (i := n + 1) (by omega)).1
      have hle := hcounts.2
      rw [hpn] at hle
      by_cases hsame : (n + 1) / 1024 = n / 1024
      · rw [if_neg (by rw [hsame]; exact h.table _ (Nat.le_refl _))] at hle
        omega
      · split at hle <;> omega

end Crowded

theorem crowded_run {k₀ : Kernel} (hr : Run Linked step (fun _ a => FlagsOnly a) k₀) (h : Crowded 0 k₀) :
    ∀ n ≤ 65534, ∃ k, Run Linked step (fun _ a => FlagsOnly a) k ∧ Crowded n k
  | 0, _ => ⟨k₀, hr, h⟩
  | n + 1, hn => by
    obtain ⟨k, hrk, hk⟩ := crowded_run hr h n (Nat.le_of_succ_le hn)
    obtain ⟨k', hs, hk'⟩ := hk.step (by omega)
    have hflags : FlagsOnly (crowdCall (n + 1)) := show pteD < 4096 by decide
    exact ⟨k', .next k _ k' hrk hflags hs, hk'⟩

theorem Crowded.stepRef {n : Nat} {k : Kernel} (h : Crowded n k) (hn : n = 65534) :
    stepRef k (crowdCall (n + 1)) = some 65535 := by
  obtain ⟨g, hg⟩ := h.accounted.framed
  have hd := hg.mem (h.accounted.alive.running 0 h.cur)
  obtain ⟨hlegal, hva⟩ := crowdVa_legal (i := n + 1) (by omega)
  have hl0 : isIllegalVa (crowdVa 0) = false := (crowdVa_legal (i := 0) (by decide)).1
  have hva' := pdx_lt_utop.2 hva
  obtain ⟨e, hl⟩ := h.lookup
  obtain ⟨t, ht⟩ := Option.ne_none_iff_exists'.1 (h.table ((n + 1) / 1024) (by omega))
  rw [← (crowdVa_fields (i := n + 1) (by omega)).1] at ht
  have hlt := hg.sound.acct.tree.table_lt _ (mem_tableSlots.2 ⟨hd, hva'⟩) t ht
  have hv : ¬valid (k.pm.read (t, ptx (crowdVa (n + 1)))) = true := by
    intro hv
    have hv' : valid (k.pm.mem t (ptx (crowdVa (n + 1)))) = true := hv
    have hpage := h.page (n + 1) (by omega)
    rw [if_neg (by omega), Kernel.frameOf, Pmap.frame, slotOf, pte_of_table ht, if_pos hv'] at hpage
    cases hpage
  have hfresh : freshRef k.pm (k.envs 0).envPgdir (k.envs 0).envAsid 1273 (crowdVa (n + 1)) =
      some (k.pm.ppRef 1273) := by
    have hw := Acct.walk_of_table (p := tlbInvalidate k.pm (k.envs 0).envAsid (crowdVa (n + 1))) ht hlt true
    unfold freshRef
    rw [hw]
    rfl
  have hinsert : insertRef k.pm (k.envs 0).envPgdir (k.envs 0).envAsid 1273 (crowdVa (n + 1)) = some 65535 := by
    unfold insertRef
    rw [Acct.walk_of_table ht hlt false]
    simp only [Option.bind_some, if_neg hv]
    rw [hfresh, h.ref, hn]
    rfl
  unfold Mos.stepRef crowdCall
  simp only [h.cur, Option.bind_some, h.readArgs, callRef, hl0, hlegal, Bool.or_self, Bool.false_eq_true,
    if_false, envid2env,
    if_true, hl]
  exact hinsert

/-- What is checked of the state after the page was allocated. -/
def crowdedB (k : Kernel) : Bool :=
  decide (k.curenv = some 0 ∧ k.ktf.regs 29 = ustacktop - 128) &&
    ((k.frameOf 0 (ustacktop - 112)).isSome && (k.frameOf 0 (ustacktop - 108)).isSome) &&
    (List.range 1024).all (fun j => decide (k.frameAt 0 2 j = if j = 0 then some 1273 else none)) &&
    (List.range 63).all (fun i => decide (k.pm.table ((k.envs 0).envPgdir, 3 + i) = none)) &&
    decide (k.pm.ppRef 1273 = 1 ∧ k.pm.table ((k.envs 0).envPgdir, 2) ≠ none ∧ 63 ≤ k.pm.pageFreeList.length)

theorem crowded_of_crowdedB {k : Kernel} (ha : Accounted k) (h : crowdedB k = true) : Crowded 0 k := by
  simp only [crowdedB, Bool.and_eq_true, decide_eq_true_eq, List.all_eq_true, List.mem_range] at h
  obtain ⟨⟨⟨⟨⟨hcur, hsp⟩, hst₁, hst₂⟩, hpage⟩, hnone⟩, href, htab, hfree⟩ := h
  refine ⟨ha, hcur, hsp, ⟨Option.isSome_iff_ne_none.1 hst₁, Option.isSome_iff_ne_none.1 hst₂⟩,
    fun i hi => ?_, href, ?_, ?_⟩
  · obtain ⟨hp, ht⟩ := crowdVa_fields hi
    unfold Kernel.frameOf slotOf
    rw [hp, ht]
    by_cases hlt : i < 1024
    · have := hpage i hlt
      unfold Kernel.frameAt at this
      rw [show 2 + i / 1024 = 2 by omega, Nat.mod_eq_of_lt hlt, this]
      by_cases h0 : i = 0
      · rw [if_pos h0, if_pos (by omega)]
      · rw [if_neg h0, if_neg (by omega)]
    · have ht := hnone (i / 1024 - 1) (by omega)
      rw [show 2 + i / 1024 = 3 + (i / 1024 - 1) by omega, Pmap.frame, Acct.pte_none_of_table ht, if_neg (by omega)]
      rfl
  · intro i hi
    obtain rfl : i = 0 := by omega
    exact htab
  · omega

theorem crowded_start : ∃ k₀, Run Linked step (fun _ a => FlagsOnly a) k₀ ∧ Crowded 0 k₀ := by
  have hok : ∀ k a, (flagsOnlyB a && returnSafeB k a) = true →
      FlagsOnly a ∧ MapSafe k a := by
    intro k a h
    rw [Bool.and_eq_true] at h
    refine ⟨?_, (returnSafe_of_returnSafeB k a h.2).1⟩
    cases a with
    | syscall c v0 =>
      show c.perm < 4096
      exact of_decide_eq_true h.1
    | _ => trivial
  obtain ⟨k, hr, hk⟩ := @Run.exists_of_exec Kernel Act Linked step (fun k a => FlagsOnly a ∧ MapSafe k a) _ hok
    [.tick, .exec stackFrame, .syscall (.memAlloc 0 0x800000 pteD) 0] (mipsInit smallBoard [emptyProgram])
    Granted.linked_small crowdedB (by decide +kernel)
  have ha : Accounted k :=
    Run.invariant Accounted (fun _ hl => Accounted.linked hl) (fun _ _ _ hk hok hs => hk.step_safe hok.2 hs) k hr
  exact ⟨k, hr.mono (fun _ _ h => h.1), crowded_of_crowdedB ha hk⟩

/-- **A counter wraps**: nothing stops an environment from mapping a page at 65536 pages. -/
theorem counter_never_wraps_fails : ¬∀ k, Run Linked step (fun _ a => FlagsOnly a) k →
    FreeUnmapped k ∧ ∀ a, FlagsOnly a → ∀ r, stepRef k a = some r → r < 65535 := by
  intro hall
  obtain ⟨k₀, hr₀, h₀⟩ := crowded_start
  obtain ⟨k, hr, hk⟩ := crowded_run hr₀ h₀ 65534 (Nat.le_refl _)
  have hlt := (hall k hr).2 (crowdCall (65534 + 1)) (show pteD < 4096 by decide) 65535 (hk.stepRef rfl)
  exact absurd hlt (by decide)

end Mos
