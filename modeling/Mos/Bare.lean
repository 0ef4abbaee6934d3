import Mos.Tops
/-!
# Bare — directories without entries of their own from `UTOP` on

`env_free` goes over the entries of a directory below `UTOP`.  In a run that never fills another entry through the
window on the page tables, there is no other to go over: from `UTOP` on a directory has what `env_setup_vm` gave it.
-/
namespace Mos

/-- The entries of a directory that `env_setup_vm` leaves empty. -/
def Kernel.ownEntries (k : Kernel) : Finset Nat :=
  (Finset.range pageWords).filter fun i =>
    i ≠ pdx uvpt ∧ (i < utopEntries ∨ pdx uvpt < i ∨ valid (k.pm.mem k.basePgdir i) = false)

theorem mem_ownEntries {k : Kernel} {i : Nat} : i ∈ k.ownEntries ↔
    i < pageWords ∧ i ≠ pdx uvpt ∧ (i < utopEntries ∨ pdx uvpt < i ∨ valid (k.pm.mem k.basePgdir i) = false) := by
  unfold Kernel.ownEntries
  rw [Finset.mem_filter, Finset.mem_range]

/-- **No environment has an entry of its own from `UTOP` on.** -/
def Bare (k : Kernel) : Prop :=
  ∀ e, (k.envs e).envStatus ≠ .free → ∀ i ∈ k.ownEntries, utopEntries ≤ i →
    valid (k.pm.mem (k.envs e).envPgdir i) = false

/-- The step's accesses fill no entry from `UTOP` on: neither a miss, nor the kernel where it reads the arguments of a
system call from the stack. -/
def TopSafe (k : Kernel) : Act → Prop
  | .miss va _ => ¬FillsTop k.pm k.curPgdir va
  | .syscall _ _ => ¬FillsTop k.pm k.curPgdir (k.ktf.regs 29 + 16) ∧ ¬FillsTop k.pm k.curPgdir (k.ktf.regs 29 + 20)
  | _ => True

instance (p : Pmap) (d : Nat) (va : Word) : Decidable (FillsTop p d va) := inferInstanceAs (Decidable (_ ∧ _ ∧ _))

instance (k : Kernel) : DecidablePred (TopSafe k)
  | .miss va _ => inferInstanceAs (Decidable (¬FillsTop k.pm k.curPgdir va))
  | .syscall _ _ => inferInstanceAs (Decidable (_ ∧ _))
  | .tick => .isTrue trivial
  | .exec _ => .isTrue trivial
  | .store _ _ => .isTrue trivial
  | .mod _ => .isTrue trivial
  | .noSys => .isTrue trivial

namespace Bare

variable {k k₁ k' : Kernel} {g : Ledger}

/-- **Entries from `UTOP` on stay, and no environment is new.** -/
theorem mono (h : Bare k) (hbase : ∀ i, utopEntries ≤ i → k'.pm.mem k'.basePgdir i = k.pm.mem k.basePgdir i)
    (hdir : ∀ e, (k'.envs e).envStatus ≠ .free → (k.envs e).envStatus ≠ .free ∧
      ∀ i, utopEntries ≤ i → k'.pm.mem (k'.envs e).envPgdir i = k.pm.mem (k.envs e).envPgdir i) : Bare k' := by
  intro e he i hi hle
  obtain ⟨he₀, hmem⟩ := hdir e he
  rw [hmem i hle]
  refine h e he₀ i ?_ hle
  rw [mem_ownEntries] at hi ⊢
  rwa [hbase i hle] at hi

theorem same (h : Bare k) (hs : SameSpaces k k') : Bare k' := by
  refine h.mono (fun i _ => by rw [hs.pm, hs.base]) fun e he => ?_
  have he₀ := (hs.status e).1 he
  exact ⟨he₀, fun i _ => by rw [hs.pm, hs.pgdir e he₀]⟩

theorem maps (h : Bare k) (hf : Framed k g) {pm : Pmap} (ht : SameTops (insert k.basePgdir g.dirs) k.pm pm) :
    Bare (k.setPm pm) :=
  h.mono (fun i hi => ht _ (Finset.mem_insert_self _ _) i hi) fun _ he =>
    ⟨he, fun i hi => ht _ (Finset.mem_insert_of_mem (hf.mem he)) i hi⟩

/-! ## Accesses -/

theorem touch (h : Bare k) (hf : Framed k g) {c : EnvIx} {va : Word} (hc : k.curenv = some c)
    (hlive : (k.envs c).envStatus ≠ .free) (hno : ¬FillsTop k.pm k.curPgdir va) (ht : k.touch c va = some k') :
    Bare k' := by
  obtain ⟨pm, hpm, rfl⟩ := Option.map_eq_some_iff.1 ht
  rw [hf.cur c hc] at hpm hno
  exact h.maps hf (hf.sound.touch_tops (hf.mem hlive) hno hpm)

theorem touchRange {c : EnvIx} {va : Word} {len : Nat} (hva : ∀ i < len, va + BitVec.ofNat 32 i < utop) (h : Bare k)
    (hf : Framed k g) (hc : k.curenv = some c) (hlive : (k.envs c).envStatus ≠ .free)
    (ht : k.touchRange c va len = some k') : Bare k' := by
  unfold Kernel.touchRange at ht
  have hmem : ∀ i ∈ List.range len, va + BitVec.ofNat 32 i < utop := fun i hi => hva i (List.mem_range.1 hi)
  revert hmem
  generalize List.range len = is at ht
  intro hmem
  induction is generalizing k g with
  | nil =>
    cases ht
    exact h
  | cons i is ih =>
    rw [List.foldlM_cons] at ht
    obtain ⟨k₁, h₁, h₂⟩ := Option.bind_eq_some_iff.1 ht
    obtain ⟨g₁, hs, -⟩ := hf.touch hc hlive h₁
    have hb := h.touch hf hc hlive (not_fillsTop_of_lt (hmem i List.mem_cons_self)) h₁
    obtain ⟨pm, rfl⟩ := touch_eq h₁
    exact ih hb hs.framed hc hlive h₂ fun j hj => hmem j (List.mem_cons_of_mem _ hj)

theorem store (h : Bare k) (hf : Framed k g) {c : EnvIx} {pm : Pmap} {va w : Word} (hc : k.curenv = some c)
    (hlive : (k.envs c).envStatus ≠ .free) (hs : Mos.store k.pm k.curPgdir va w = some pm) : Bare (k.setPm pm) := by
  rw [hf.cur c hc] at hs
  exact h.maps hf (hf.sound.store_tops (hf.mem hlive) hs)

theorem storeWords {c : EnvIx} : ∀ {ws : List Word} {va : Word} {k k' : Kernel} {g : Ledger},
    va.toNat + 4 * ws.length ≤ utop.toNat → Bare k → Framed k g → k.curenv = some c → (k.envs c).envStatus ≠ .free →
    k.storeWords c va ws = some k' → Bare k'
  | [], _, k, k', g, _, h, _, _, _, hs => by
    cases hs
    exact h
  | w :: ws, va, k, k', g, hva, h, hf, hc, hlive, hs => by
    unfold Kernel.storeWords at hs
    obtain ⟨k₁, h₁, h₂⟩ := Option.bind_eq_some_iff.1 hs
    have htop : utop.toNat = 0x7f400000 := rfl
    rw [List.length_cons] at hva
    have hlt : va < utop := by
      rw [BitVec.lt_def]
      omega
    have hnext : (va + 4).toNat = va.toNat + 4 := by
      rw [BitVec.toNat_add]
      show (va.toNat + 4) % 2 ^ 32 = _
      omega
    obtain ⟨g₁, hs₁, -⟩ := hf.touch hc hlive h₁
    have hb₁ := h.touch hf hc hlive (not_fillsTop_of_lt hlt) h₁
    obtain ⟨pm₁, rfl⟩ := touch_eq h₁
    obtain ⟨pm₂, hst, h₃⟩ := Option.bind_eq_some_iff.1 h₂
    have hs₂ := hs₁.framed.store hc hlive hst
    have hb₂ := hb₁.store hs₁.framed hc hlive hst
    exact storeWords (by rw [hnext]; omega) hb₂ hs₂.framed hc hlive h₃

theorem readArgs (h : Bare k) (hf : Framed k g) {c : EnvIx} (hc : k.curenv = some c)
    (hlive : (k.envs c).envStatus ≠ .free)
    (hno : ¬FillsTop k.pm k.curPgdir (k.ktf.regs 29 + 16) ∧ ¬FillsTop k.pm k.curPgdir (k.ktf.regs 29 + 20))
    (hr : Mos.readArgs k c = some k') : Bare k' := by
  obtain ⟨k₁, h₁, h₂⟩ := Option.bind_eq_some_iff.1 hr
  have hn := hf.ktf k.ktf.nextInstr
  have hb : Bare { k with ktf := k.ktf.nextInstr } := h.same (.of_eq rfl rfl rfl)
  obtain ⟨g₁, hs₁, -⟩ := hn.framed.touch (by exact hc) (by exact hlive) h₁
  have hb₁ := hb.touch hn.framed (by exact hc) (by exact hlive) (by exact hno.1) h₁
  obtain ⟨pm₁, hpm₁, rfl⟩ := Option.map_eq_some_iff.1 h₁
  refine hb₁.touch hs₁.framed (by exact hc) (by exact hlive) (fun hfill => hno.2 ?_) h₂
  rw [show ({ k with ktf := k.ktf.nextInstr } : Kernel).curPgdir = (k.envs c).envPgdir from hf.cur c hc] at hpm₁
  obtain ⟨hva, hle, hv⟩ := hfill
  refine ⟨hva, hle, ?_⟩
  have hno₁ := hno.1
  rw [hf.cur c hc] at hno₁
  have hmem := hf.sound.touch_tops (hf.mem hlive) hno₁ hpm₁ _ (Finset.mem_insert_of_mem (hf.mem hlive)) _ hle
  have hcur : k.curPgdir = (k.envs c).envPgdir := hf.cur c hc
  rw [hcur, ← hmem, ← hcur]
  exact hv

/-! ## Environments come and go -/

/-- **A new directory is bare.** -/
theorem allocated (h : Bare k) (hf : Framed k g) {e : EnvIx} {pp : Nat} {pm₁ : Pmap} (ha : Allocated k k₁ e pp pm₁)
    (hpm : k'.pm = k₁.pm) (hbase : k'.basePgdir = k₁.basePgdir) (hpg : (k'.envs e).envPgdir = pp)
    (hother : ∀ x, x ≠ e → k'.envs x = k.envs x) : Bare k' := by
  obtain ⟨hnd, hheld, -, -, -, hne, hpp⟩ := hf.sound.setup ha.alloc
  rw [← ha.pm, ← hpm] at hne hpp
  rw [ha.base] at hbase
  have hbp : k.basePgdir ≠ pp := fun hc => hf.sound.template.1 (hc ▸ hheld)
  intro x hx i hi hle
  rw [mem_ownEntries, hbase, hne _ hbp] at hi
  by_cases hxe : x = e
  · rw [hxe, hpg, hpp, if_neg hi.2.1]
    split
    · rename_i hmid
      exact hi.2.2.elim (fun hlt => by omega) (fun h => h.elim (fun hlt => by omega) id)
    · exact valid_zero
  · rw [hother x hxe] at hx ⊢
    have hxp : (k.envs x).envPgdir ≠ pp := fun hc => hnd (hc ▸ hf.mem hx)
    rw [hne _ hxp]
    exact h x hx i (mem_ownEntries.2 hi) hle

theorem free (h : Bare k) (hf : Framed k g) {e : EnvIx} (hlive : (k.envs e).envStatus ≠ .free)
    (he : envFree k e = some k') : Bare k' := by
  unfold envFree at he
  obtain ⟨pm, hpm, hrest⟩ := Option.bind_eq_some_iff.1 he
  obtain ⟨q, -, rfl⟩ := Option.map_eq_some_iff.1 hrest
  have hmem := hf.sound.freeSpace_mem (hf.mem hlive) hpm
  refine h.mono (fun i hi => hmem _ (Finset.mem_insert_self _ _) i (.inr hi)) fun x hx => ?_
  have hxe : x ≠ e := by
    rintro rfl
    refine hx ?_
    show (((k.setPm pm).setEnv x (fun v => { v with envStatus := .free })).envs x).envStatus = .free
    rw [Kernel.setEnv_self]
  have hx' : ((k.setPm pm).setEnv e (fun v => { v with envStatus := .free })).envs x = k.envs x :=
    Kernel.setEnv_ne _ _ hxe
  have hlive' : (k.envs x).envStatus ≠ .free := by
    have : (((k.setPm pm).setEnv e (fun v => { v with envStatus := .free })).envs x).envStatus ≠ .free := hx
    rwa [hx'] at this
  refine ⟨hlive', fun i hi => ?_⟩
  show pm.mem (((k.setPm pm).setEnv e (fun v => { v with envStatus := .free })).envs x).envPgdir i = _
  rw [hx']
  exact hmem _ (Finset.mem_insert_of_mem (hf.mem hlive')) i (.inr hi)

theorem destroy (h : Bare k) (hf : Framed k g) {e : EnvIx} (hlive : (k.envs e).envStatus ≠ .free)
    (hd : envDestroy k e = some k') : Bare k' := by
  unfold envDestroy at hd
  obtain ⟨k₁, he, hrest⟩ := Option.bind_eq_some_iff.1 hd
  have hb := h.free hf hlive he
  split at hrest
  · have hsame : SameSpaces k₁ { k₁ with curenv := none } := .of_eq rfl rfl rfl
    exact hb.same (hsame.trans (schedule_spaces hrest).1)
  · cases hrest
    exact hb

/-! ## The calls -/

theorem exofork (h : Bare k) (hf : Framed k g) {cur : EnvIx} {r : Sysret × Kernel} (hc : sysExofork k cur = some r) :
    Bare r.2 := by
  unfold sysExofork at hc
  split at hc
  · rename_i i k₁ ha
    rw [ret_eq hc]
    rcases envAlloc_inv ha with ⟨-, -, rfl⟩ | ⟨e, rest, pp, pm₁, -, hall, -⟩
    · exact h
    · exact h.allocated hf hall rfl rfl hall.pgdir hall.other
  · rename_i e k₁ ha
    rw [ret_eq hc]
    rcases envAlloc_inv ha with ⟨i, hr, -⟩ | ⟨e', rest, pp, pm₁, -, hall, hr⟩
    · cases hr
    · obtain rfl : e = e' := by simpa using hr
      refine h.allocated hf hall rfl rfl ?_ fun x hx => ?_
      · show (Kernel.envs _ e).envPgdir = pp
        rw [Kernel.setEnv_self]
        exact hall.pgdir
      · dsimp only
        rw [Kernel.setEnv_ne _ _ hx]
        exact hall.other x hx

theorem ipcTrySend (h : Bare k) (hf : Framed k g) {cur : EnvIx} {envid value srcva perm : Word} {r : Sysret × Kernel}
    (hlive : (k.envs cur).envStatus ≠ .free) (hc : sysIpcTrySend k cur envid value srcva perm = some r) : Bare r.2 := by
  have hwoken : ∀ (e : EnvIx) (q : Tailq EnvIx), envid2env k cur envid false = some e →
      SameSpaces k (woken k cur e value perm q) := by
    intro e q he
    have hset : SameSpaces k (k.setEnv e fun v => v.deliver value (k.envs cur).envId perm) :=
      .setEnv k e ⟨fun _ => envid2env_live hlive he, fun _ => nofun⟩ rfl
    exact hset.trans (.of_eq rfl rfl rfl)
  cases send_inv hc with
  | refused => exact h
  | value e q he => exact h.same (hwoken e q he)
  | lost e q he => exact h.same (hwoken e q he)
  | page e q pp pte i pm he _ _ _ _ _ hi =>
    have hb := h.maps hf (hf.sound.insert_tops (hf.mem (envid2env_live hlive he)) (hf.dst e) hi)
    have hw := hwoken e q he
    exact hb.same ⟨rfl, rfl, hw.status, hw.pgdir⟩

theorem legalRange_lt {va len : Word} (h : isIllegalVaRange va len = false) :
    ∀ i < len.toNat, va + BitVec.ofNat 32 i < utop := by
  intro i hi
  have htop : utop.toNat = 0x7f400000 := rfl
  unfold isIllegalVaRange at h
  split at h
  · rename_i h0
    rw [h0] at hi
    exact absurd hi (Nat.not_lt_zero i)
  · simp only [Bool.or_eq_false_iff, decide_eq_false_iff_not, BitVec.lt_def, gt_iff_lt, BitVec.toNat_add] at h
    rw [BitVec.lt_def, BitVec.toNat_add, BitVec.toNat_ofNat]
    have := va.isLt
    have := len.isLt
    omega

theorem call (h : Bare k) (hf : Framed k g) (hal : k.procs.Alive) {cur : EnvIx} (hcur : k.curenv = some cur)
    {c : Syscall} {r : Sysret × Kernel} (hc : syscallTable k cur c = some r) : Bare r.2 := by
  have hlive : (k.envs cur).envStatus ≠ .free := hal.running cur hcur
  have hret : ∀ {i : Int}, ret i k = some r → Bare r.2 := by
    intro i hr
    rw [ret_eq hr]
    exact h
  have hshare : ∀ jobs, Shares nobody k { k with jobs := jobs } g := fun _ => hf.other rfl rfl rfl rfl rfl
  have hjobs : ∀ jobs, Bare { k with jobs := jobs } ∧ Framed { k with jobs := jobs } g := fun jobs =>
    ⟨h.same (.of_eq rfl rfl rfl), (hshare jobs).framed⟩
  cases c with
  | putchar => cases hc; exact h
  | printCons s num =>
    simp only [syscallTable, sysPrintCons] at hc
    split at hc
    · exact hret hc
    · rename_i hbad
      obtain ⟨k₁, h₁, hr⟩ := Option.bind_eq_some_iff.1 hc
      rw [ret_eq hr]
      refine h.touchRange (fun i hi => ?_) hf hcur hlive h₁
      have htop : utop.toNat = 0x7f400000 := rfl
      rw [not_or, not_or] at hbad
      simp only [gt_iff_lt, ge_iff_le, BitVec.lt_def, BitVec.le_def, BitVec.toNat_add] at hbad
      rw [BitVec.lt_def, BitVec.toNat_add, BitVec.toNat_ofNat]
      have := s.isLt
      have := num.isLt
      omega
  | getenvid => exact hret hc
  | yield =>
    obtain ⟨k₁, h₁, rfl⟩ := Option.map_eq_some_iff.1 hc
    exact h.same (schedule_spaces h₁).1
  | envDestroy envid =>
    simp only [syscallTable, sysEnvDestroy] at hc
    split at hc
    · exact hret hc
    · rename_i e he
      obtain ⟨k₁, h₁, rfl⟩ := Option.map_eq_some_iff.1 hc
      exact h.destroy hf (envid2env_live hlive he) h₁
  | setTlbModEntry envid func =>
    simp only [syscallTable, sysSetTlbModEntry] at hc
    split at hc
    · exact hret hc
    · rename_i e he
      rw [ret_eq hc]
      exact h.same (.setEnv k e (f := fun v => { v with envUserTlbModEntry := func }) Iff.rfl rfl)
  | memAlloc envid va perm =>
    simp only [syscallTable, sysMemAlloc] at hc
    split at hc
    · exact hret hc
    · rename_i hva
      split at hc
      · exact hret hc
      · rename_i e he
        split at hc
        · exact hret hc
        · rename_i pp pm₁ ha
          obtain ⟨⟨i, pm⟩, hi, hr⟩ := Option.bind_eq_some_iff.1 hc
          rw [ret_eq hr]
          obtain ⟨-, -, -, hm⟩ := hf.sound.alloc ha
          have hmem := hf.mem (envid2env_live hlive he)
          have halloc : SameTops (insert k.basePgdir g.dirs) k.pm pm₁ := .of_mem (hf.sound.alloc_mem ha)
          exact h.maps hf (halloc.trans (hm.sound.insert_tops hmem (legal_lt (by simpa using hva)) hi))
  | memMap srcid srcva dstid dstva perm =>
    simp only [syscallTable, sysMemMap] at hc
    split at hc
    · exact hret hc
    · rename_i hva
      rw [Bool.or_eq_true, not_or] at hva
      split at hc
      · exact hret hc
      · split at hc
        · exact hret hc
        · rename_i dst hdst
          obtain ⟨l, -, hc⟩ := Option.bind_eq_some_iff.1 hc
          split at hc
          · exact hret hc
          · obtain ⟨⟨i, pm⟩, hi, hr⟩ := Option.bind_eq_some_iff.1 hc
            rw [ret_eq hr]
            exact h.maps hf (hf.sound.insert_tops (hf.mem (envid2env_live hlive hdst))
              (legal_lt (by simpa using hva.2)) hi)
  | memUnmap envid va =>
    simp only [syscallTable, sysMemUnmap] at hc
    split at hc
    · exact hret hc
    · rename_i hva
      split at hc
      · exact hret hc
      · rename_i e he
        obtain ⟨pm, hpm, hr⟩ := Option.bind_eq_some_iff.1 hc
        rw [ret_eq hr]
        exact h.maps hf (.of_mem
          (hf.sound.remove_mem (hf.mem (envid2env_live hlive he)) (legal_lt (by simpa using hva)) hpm))
  | exofork => exact h.exofork hf hc
  | setEnvStatus envid status =>
    simp only [syscallTable, sysSetEnvStatus] at hc
    split at hc
    · exact hret hc
    · rename_i st hst
      split at hc
      · exact hret hc
      · rename_i e he
        obtain ⟨q, -, hr⟩ := Option.bind_eq_some_iff.1 hc
        rw [ret_eq hr]
        have hq : SameSpaces k (k.setSched q) := .of_eq rfl rfl rfl
        exact h.same (hq.trans (.setEnv (k.setSched q) e (f := fun v => { v with envStatus := st })
          ⟨fun _ => envid2env_live hlive he, fun _ => statusOfWord_ne_free hst⟩ rfl))
  | setTrapframe envid va tf =>
    simp only [syscallTable, sysSetTrapframe] at hc
    split at hc
    · exact hret hc
    · rename_i hva
      split at hc
      · exact hret hc
      · rename_i e he
        obtain ⟨k₁, h₁, hr⟩ := Option.bind_eq_some_iff.1 hc
        have hb := h.touchRange (legalRange_lt (by simpa using hva)) hf hcur hlive h₁
        split at hr
        · rw [ret_eq hr]
          exact hb.same (.of_eq rfl rfl rfl)
        · rw [ret_eq hr]
          exact hb.same (.setEnv k₁ e (f := fun v => { v with envTf := tf }) Iff.rfl rfl)
  | panic => cases hc
  | ipcTrySend envid value srcva perm => exact h.ipcTrySend hf hlive hc
  | ipcRecv dstva =>
    simp only [syscallTable, sysIpcRecv] at hc
    split at hc
    · exact hret hc
    · obtain ⟨q, -, hc⟩ := Option.bind_eq_some_iff.1 hc
      obtain ⟨k₁, h₁, rfl⟩ := Option.map_eq_some_iff.1 hc
      have hset : SameSpaces k (k.setEnv cur fun v => v.startRecv dstva) := .setEnv k cur
        ⟨fun _ => hlive, fun _ => by simp [Env.startRecv]⟩ rfl
      refine h.same (SameSpaces.trans ?_ (schedule_spaces h₁).1)
      exact hset.trans (.of_eq rfl rfl rfl)
  | cgetc ch => exact hret hc
  | writeDev va pa len =>
    simp only [syscallTable, sysWriteDev] at hc
    split at hc
    · exact hret hc
    · rename_i hbad
      obtain ⟨k₁, h₁, hr⟩ := Option.bind_eq_some_iff.1 hc
      rw [ret_eq hr]
      rw [badDevArgs, Bool.or_eq_true, Bool.or_eq_true, not_or, not_or] at hbad
      exact h.touchRange (legalRange_lt (by simpa using hbad.1.2)) hf hcur hlive h₁
  | readDev va pa len w =>
    simp only [syscallTable, sysReadDev] at hc
    split at hc
    · exact hret hc
    · rename_i hbad
      obtain ⟨k₁, h₁, hr⟩ := Option.bind_eq_some_iff.1 hc
      obtain ⟨pm, hpm, hr⟩ := Option.bind_eq_some_iff.1 hr
      rw [ret_eq hr]
      rw [badDevArgs, Bool.or_eq_true, Bool.or_eq_true, not_or, not_or] at hbad
      have hlen : 0 < len.toNat := by
        have hl := hbad.1.1
        simp only [Bool.not_eq_true', Bool.or_eq_false_iff, decide_eq_false_iff_not, not_and, not_not] at hl
        by_contra h0
        have : len = 0 := BitVec.eq_of_toNat_eq (by simpa using h0)
        rw [this] at hl
        revert hl
        decide
      have hva : va < utop := by
        have hlegal : isIllegalVaRange va len = false := by simpa using hbad.1.2
        have hlt := legalRange_lt hlegal 0 hlen
        simpa using hlt
      obtain ⟨g₁, hs₁, -⟩ := hf.touch hcur hlive h₁
      have hb := h.touch hf hcur hlive (not_fillsTop_of_lt hva) h₁
      obtain ⟨pm₁, rfl⟩ := touch_eq h₁
      exact hb.store hs₁.framed hcur hlive hpm
  | getEnvParentId envid =>
    simp only [syscallTable, sysGetEnvParentId] at hc
    split at hc
    · exact hret hc
    · exact hret hc
  | addJob envid cmd =>
    simp only [syscallTable, sysAddJob] at hc
    split at hc
    · cases hc
      exact h.same (.of_eq rfl rfl rfl)
    · cases hc
  | printJobs => cases hc; exact h
  | tryDoneJobStatus envid =>
    obtain ⟨e, he, hd⟩ := Option.bind_eq_some_iff.1 hc
    obtain ⟨k₁, h₁, rfl⟩ := Option.map_eq_some_iff.1 hd
    exact (hjobs _).1.destroy (hjobs _).2 (envid2env_live (by exact hlive) he) h₁
  | killJob jobId =>
    simp only [syscallTable, sysKillJob] at hc
    split at hc
    · cases hc
      exact h
    · obtain ⟨i, -, hc⟩ := Option.bind_eq_some_iff.1 hc
      split at hc
      · cases hc
        exact h
      · obtain ⟨e, he, hd⟩ := Option.bind_eq_some_iff.1 hc
        obtain ⟨k₁, h₁, rfl⟩ := Option.map_eq_some_iff.1 hd
        exact (hjobs _).1.destroy (hjobs _).2 (envid2env_live (by exact hlive) he) h₁
  | getEnvidByJob jobId =>
    simp only [syscallTable, sysGetEnvidByJob] at hc
    split at hc
    · exact hret hc
    · obtain ⟨i, -, hc⟩ := Option.bind_eq_some_iff.1 hc
      split at hc
      · exact hret hc
      · exact hret hc

theorem frame_below (sp : Word) (tf : Trapframe) :
    ((if sp < ustacktop ∨ sp ≥ uxstacktop then uxstacktop else sp) - BitVec.ofNat 32 sizeofTrapframe).toNat +
      4 * tf.words.length ≤ utop.toNat := by
  have hlen : tf.words.length = 38 := by simp [Trapframe.words]
  have htop : utop.toNat = 0x7f400000 := rfl
  have hux : uxstacktop.toNat = 0x7f400000 := by decide
  have hust : ustacktop.toNat = 0x7f3fe000 := by decide
  have hsize : (BitVec.ofNat 32 sizeofTrapframe).toNat = 152 := rfl
  rw [hlen, BitVec.toNat_sub, hsize, htop]
  split
  · rw [hux]
  · rename_i hsp
    rw [not_or, BitVec.lt_def, ge_iff_le, BitVec.le_def, hust, hux] at hsp
    omega

/-- **A step that fills no entry from `UTOP` on keeps every directory bare.** -/
theorem step (h : Bare k) (hf : Framed k g) (hal : k.procs.Alive) {a : Act} (hsafe : TopSafe k a)
    (hs : Mos.step k a = some k') : Bare k' := by
  cases a with
  | tick => exact h.same (schedule_spaces hs).1
  | exec tf =>
    obtain ⟨cur, -, hu⟩ := Option.bind_eq_some_iff.1 hs
    cases hu
    exact h.same (.of_eq rfl rfl rfl)
  | miss va victim =>
    obtain ⟨cur, hcur, hu⟩ := Option.bind_eq_some_iff.1 hs
    simp only [userStep] at hu
    split at hu
    · cases hu
    · obtain ⟨pm, hpm, rfl⟩ := Option.map_eq_some_iff.1 hu
      have hno : ¬FillsTop k.pm k.curPgdir va := hsafe
      rw [hf.cur cur hcur] at hpm hno
      exact h.maps hf (hf.sound.refill_tops (hf.mem (hal.running cur hcur)) hno hpm)
  | store va w =>
    obtain ⟨cur, hcur, hu⟩ := Option.bind_eq_some_iff.1 hs
    obtain ⟨pm, hpm, rfl⟩ := Option.map_eq_some_iff.1 hu
    exact h.store hf hcur (hal.running cur hcur) hpm
  | mod va =>
    obtain ⟨cur, hcur, hu⟩ := Option.bind_eq_some_iff.1 hs
    simp only [userStep, doTlbMod] at hu
    obtain ⟨k₁, hw, hrest⟩ := Option.bind_eq_some_iff.1 hu
    split at hrest
    · cases hrest
    · cases hrest
      have hn := hf.ktf { k.ktf with cp0Badvaddr := va }
      have hb : Bare { k with ktf := { k.ktf with cp0Badvaddr := va } } := h.same (.of_eq rfl rfl rfl)
      have hb₁ := hb.storeWords (frame_below _ _) hn.framed (by exact hcur) (by exact hal.running cur hcur) hw
      exact hb₁.same (.of_eq rfl rfl rfl)
  | syscall c v0 =>
    obtain ⟨cur, hcur, hu⟩ := Option.bind_eq_some_iff.1 hs
    obtain ⟨k₁, hr, hc⟩ := Option.bind_eq_some_iff.1 hu
    obtain ⟨r, hr', rfl⟩ := Option.map_eq_some_iff.1 hc
    have hlive := hal.running cur hcur
    obtain ⟨g₁, hs₁, -⟩ := hf.readArgs hcur hlive hr
    have hb₁ := h.readArgs hf hcur hlive hsafe hr
    obtain ⟨pm, rfl⟩ := readArgs_eq hr
    have hb₂ := hb₁.call hs₁.framed (by exact hal) (by exact hcur) hr'
    obtain ⟨s, k₂⟩ := r
    cases s <;> exact hb₂.same (.of_eq rfl rfl rfl)
  | noSys =>
    obtain ⟨cur, -, hu⟩ := Option.bind_eq_some_iff.1 hs
    cases hu
    exact h.same (.of_eq rfl rfl rfl)

/-! ## Boot -/

theorem loadIcode (h : Bare k) (hf : Framed k g) {e : EnvIx} {binary : Binary} (hlow : binary.Low)
    (hlive : (k.envs e).envStatus ≠ .free) (hl : Mos.loadIcode k e binary = some k') : Bare k' := by
  obtain ⟨pm, entry, ⟨g', -, -, ht⟩, rfl⟩ := loadIcode_ind (P := fun p =>
    ∃ g', Sound k.basePgdir p g' ∧ g'.dirs = g.dirs ∧ SameTops (insert k.basePgdir g.dirs) k.pm p) (by
      rintro ehdr hehdr ph hph htype bin m hmem p r p' ⟨g₁, hs₁, hdirs, ht₁⟩ hone
      have hd : (k.envs e).envPgdir ∈ g₁.dirs := hdirs ▸ hf.mem hlive
      have hva := hlow ehdr hehdr ph hph htype bin m hmem
      obtain ⟨g₂, hm⟩ := hs₁.loadIcodeMapper hd hva (segPages_perm hmem) hone
      have ht := hs₁.loadIcodeMapper_tops hd hva hone
      rw [hdirs] at ht
      exact ⟨g₂, hm.sound, hm.dirs.trans hdirs, ht₁.trans ht⟩) ⟨g, hf.sound, rfl, .refl _⟩ hl
  have hb := h.maps hf ht
  exact hb.same (.setEnv (k.setPm pm) e
    (f := fun v => { v with envTf := { v.envTf with cp0Epc := entry } }) Iff.rfl rfl)

theorem envCreate (h : Bare k) (hf : Framed k g) (hal : k.procs.Alive) (hcur : k.curenv = none) {binary : Binary}
    {priority : Word} (hlow : binary.Low) (hc : Mos.envCreate k binary priority = some k') : Bare k' := by
  unfold Mos.envCreate at hc
  split at hc
  · rename_i i k₁ ha
    cases hc
    rcases envAlloc_inv ha with ⟨-, -, rfl⟩ | ⟨e, rest, pp, pm₁, -, hall, -⟩
    · exact h
    · exact h.allocated hf hall rfl rfl hall.pgdir hall.other
  · rename_i e k₁ ha
    obtain ⟨k₂, hl, rfl⟩ := Option.map_eq_some_iff.1 hc
    rcases envAlloc_inv ha with ⟨i, hr, -⟩ | ⟨e', rest, pp, pm₁, hfl, hall, hr⟩
    · cases hr
    · obtain rfl : e = e' := by simpa using hr
      have hfree : (k.envs e).envStatus = .free := hal.free e (by rw [show k.procs.free = e :: rest from hfl]; simp)
      have hrun : k.curenv ≠ some e := by
        rw [hcur]
        exact nofun
      obtain ⟨g₁, hs⟩ := hf.allocated_live hall hfree hrun (f := fun v =>
        { v with envPri := priority, envStatus := .runnable }) rfl (by simp) rfl rfl
      have hb : Bare (k₁.setEnv e fun v => { v with envPri := priority, envStatus := .runnable }) := by
        refine h.allocated hf hall rfl rfl ?_ fun x hx => ?_
        · rw [Kernel.setEnv_self]
          exact hall.pgdir
        · rw [Kernel.setEnv_ne _ _ hx]
          exact hall.other x hx
      have hb₂ := hb.loadIcode hs.framed hlow (by rw [Kernel.setEnv_self]; simp) hl
      exact hb₂.same (.of_eq rfl rfl rfl)

/-- **The kernel boots with bare directories.** -/
theorem linked {k : Kernel} (h : Linked k) : Bare k := by
  obtain ⟨b, programs, hb, hlow, hk⟩ := h
  refine (linked_ind (Q := fun _ => True) (fun k hfree e he => absurd (hfree e) he) ?_ hb
    (fun p hp => ⟨hlow p hp, trivial⟩) hk).2
  intro k g binary priority k' hf hal hcur hl _ hbare hc
  exact hbare.envCreate hf hal hcur hl hc

end Bare

end Mos
