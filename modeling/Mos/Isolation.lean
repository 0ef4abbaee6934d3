import Mos.Boot
/-!
# Isolation — no environment maps a frame it was not given

`page_insert` puts the permission that a call passes on top of the frame number.  A call that asks for a page installs
the entry of that page exactly when the permission has no frame bit the page lacks.  As long as the calls that map a
page pass such permissions, and no reference counter overflows, every page of an environment was allocated to it or
shared with it.
-/
namespace Mos

/-! ## The installed entry -/

theorem Acct.not_selfEntry {lim d : Nat} {p : Pmap} {g : Ledger} {va : Word} (h : Acct lim p g) (hd : d ∈ g.dirs)
    (hva : pdx va < lim) : ¬SelfEntry p d va := by
  intro hc
  cases hc with
  | table _ ht => exact h.tree.table_dir _ (mem_tableSlots.2 ⟨hd, hva⟩) d ht hd
  | fresh t _ _ hf ht =>
    obtain ⟨hlt, hr, -⟩ := h.of_free (List.mem_of_mem_head? hf)
    rw [ppn_page2pa (Nat.lt_of_lt_of_le hlt h.npage_le)] at ht
    exact h.dir_ref hd (ht ▸ hr)

/-- **What a call that returns 0 and asked for a page has done**: it has inserted that page. -/
theorem Framed.inserted {k k' : Kernel} {g : Ledger} {cur e : EnvIx} {c : Syscall} {va : Word} {pp : Nat}
    (h : Framed k g) (hlive : (k.envs cur).envStatus ≠ .free) (hc : syscallTable k cur c = some (.ret 0, k'))
    (ha : Asks k cur c e va pp) :
    ∃ p g₁ asid, Acct utopEntries p g₁ ∧ (k.envs e).envPgdir ∈ g₁.dirs ∧ va < utop ∧ pp < p.npage ∧
      (k'.envs e).envPgdir = (k.envs e).envPgdir ∧
      pageInsert p (k.envs e).envPgdir asid pp va c.perm = some (0, k'.pm) := by
  cases c with
  | memAlloc envid va' perm =>
    obtain ⟨he, rfl, hhead⟩ := ha
    simp only [syscallTable, sysMemAlloc, he] at hc
    split at hc
    · exact absurd (ret_eq hc) (by simp [eInval])
    · rename_i hva
      split at hc
      · exact absurd (ret_eq hc) (by simp [eNoMem])
      · rename_i pp' pm₁ hpa
        obtain ⟨rest, hf, -⟩ := pageAlloc_eq hpa
        obtain rfl : pp' = pp := by
          rw [hf] at hhead
          exact Option.some.inj hhead
        obtain ⟨-, -, -, hm⟩ := h.sound.alloc hpa
        obtain ⟨⟨i, pm⟩, hi, hr⟩ := Option.bind_eq_some_iff.1 hc
        obtain ⟨rfl, rfl⟩ : i = 0 ∧ k.setPm pm = k' := by simpa [ret] using hr
        exact ⟨pm₁, _, _, hm.sound.acct, h.mem (envid2env_live hlive he), legal_lt (by simpa using hva),
          (hm.sound.acct.limbo pp' (Finset.mem_insert_self pp' g.limbo)).1, rfl, hi⟩
  | memMap srcid srcva dstid dstva perm =>
    obtain ⟨he, rfl, src, hsrc, hf⟩ := ha
    simp only [syscallTable, sysMemMap, he, hsrc] at hc
    split at hc
    · exact absurd (ret_eq hc) (by simp [eInval])
    · rename_i hva
      rw [Bool.not_eq_true, Bool.or_eq_false_iff] at hva
      have hslive := envid2env_live hlive hsrc
      obtain ⟨l, hl, hrest⟩ := Option.bind_eq_some_iff.1 hc
      have hlf := h.lookup hslive (legal_lt hva.1) hl
      rw [hf] at hlf
      obtain ⟨⟨pp', pte⟩, rfl, rfl⟩ := Option.map_eq_some_iff.1 hlf
      obtain ⟨⟨i, pm⟩, hi, hr⟩ := Option.bind_eq_some_iff.1 hrest
      obtain ⟨rfl, rfl⟩ : i = 0 ∧ k.setPm pm = k' := by simpa [ret] using hr
      exact ⟨k.pm, g, _, h.sound.acct, h.mem (envid2env_live hlive he), legal_lt hva.2,
        h.sound.acct.tree.frame_lt _ (slotOf_mem (h.mem hslive) (pdx_lt_utop.2 (legal_lt hva.1))) _ hf, rfl, hi⟩
  | ipcTrySend envid value srcva perm =>
    obtain ⟨h0, he, hr, rfl, hf⟩ := ha
    cases send_inv hc with
    | refused i hi _ => exact absurd hi (by decide)
    | value _ _ _ _ _ h0' => exact absurd h0' h0
    | page e' q pp' pte i pm he' _ _ _ hva hl hi =>
      obtain rfl : e = e' := by simpa using he.symm.trans he'
      have hlf := h.lookup hlive (legal_lt hva) hl
      rw [hf] at hlf
      obtain rfl : pp' = pp := by simpa using hlf
      refine ⟨k.pm, g, _, h.sound.acct, h.mem (envid2env_live hlive he), h.dst e, ?_, ?_, hi⟩
      · exact h.sound.acct.tree.frame_lt _ (slotOf_mem (h.mem hlive) (pdx_lt_utop.2 (legal_lt hva))) _ hf
      · exact woken_field k cur e e value perm q (fun _ => rfl)
  | _ => exact ha.elim

/-! ## What a step gives -/

/-- A frame of somebody's memory: it is not free, and no directory or table of a live environment. -/
def Kernel.UserFrame (k : Kernel) (f : Nat) : Prop :=
  f ∉ k.pm.pageFreeList ∧ ∀ e, (k.envs e).envStatus ≠ .free →
    (k.envs e).envPgdir ≠ f ∧ ∀ i < utopEntries, k.pm.table ((k.envs e).envPgdir, i) ≠ some f

/-- The frames that a step of the machine means to give to an environment. -/
def gives (k : Kernel) (a : Act) (e : EnvIx) (f : Nat) : Prop :=
  ∃ cur, k.curenv = some cur ∧ match a with
    | .miss _ _ => Framed.grown k cur e f
    | .mod _ => Framed.grown k cur e f
    | .syscall c _ => ∃ k₁, readArgs k cur = some k₁ ∧
        (Framed.grown k cur e f ∧ k₁.UserFrame f ∨ Given k₁ cur c e f)
    | _ => False

/-- The calls of a step are safe. -/
def MapSafe (k : Kernel) : Act → Prop
  | .syscall c _ => ∀ cur k₁, k.curenv = some cur → readArgs k cur = some k₁ → CallSafe k₁ cur c
  | _ => True

/-- **What is mapped is memory.** -/
theorem Framed.userFrame {k : Kernel} {g : Ledger} (h : Framed k g) {e : EnvIx} {i j f : Nat}
    (he : (k.envs e).envStatus ≠ .free) (hi : i < utopEntries) (hj : j < pageWords) (hf : k.frameAt e i j = some f) :
    k.UserFrame f := by
  have hslot : ((k.envs e).envPgdir, i, j) ∈ pageSlots utopEntries g.dirs := mem_pageSlots.2 ⟨h.mem he, hi, hj⟩
  have hout := h.sound.acct.tree.outside_of_frame hslot hf
  refine ⟨fun hc => (h.sound.acct.not_free hc).2 _ hslot hf, fun e' he' => ⟨?_, fun i' hi' => ?_⟩⟩
  · exact fun hc => hout.dir (hc ▸ h.mem he')
  · exact hout.table _ (mem_tableSlots.2 ⟨h.mem he', hi'⟩)

theorem Shares.used {new : EnvIx → Nat → Prop} {k k' : Kernel} {g : Ledger} (h : Shares new k k' g) :
    Shares (fun e f => new e f ∧ k'.UserFrame f) k k' g :=
  ⟨h.framed, fun e he i hi j hj f hf =>
    (h.pages e he i hi j hj f hf).imp_right (fun hn => ⟨hn, h.framed.userFrame he hi hj hf⟩)⟩

namespace Framed

variable {k k' : Kernel} {g : Ledger} {cur : EnvIx}

theorem ktf (h : Framed k g) (tf : Trapframe) : Shares nobody k { k with ktf := tf } g := h.other rfl rfl rfl rfl rfl

theorem readArgs (h : Framed k g) (hc : k.curenv = some cur) (hlive : (k.envs cur).envStatus ≠ .free)
    (hr : Mos.readArgs k cur = some k') :
    ∃ g', Shares (grown k cur) k k' g' ∧ ∀ f ∈ k'.pm.pageFreeList, f ∈ k.pm.pageFreeList := by
  obtain ⟨k₁, h₁, h₂⟩ := Option.bind_eq_some_iff.1 hr
  have hn := h.ktf k.ktf.nextInstr
  obtain ⟨g₁, hs₁, hsub₁⟩ := hn.framed.touch (by exact hc) (by exact hlive) h₁
  obtain ⟨pm₁, rfl⟩ := touch_eq h₁
  obtain ⟨g₂, hs₂, hsub₂⟩ := hs₁.framed.touch (by exact hc) (by exact hlive) h₂
  refine ⟨g₂, ((hn.mono (fun _ _ hn => hn.elim)).then_ hs₁).then_ (hs₂.mono (grown_mono hsub₁)), ?_⟩
  exact fun f hf => hsub₁ f (hsub₂ f hf)

/-- **Every step gives what it means to give**, when its call is safe. -/
theorem step (h : Framed k g) (hal : k.procs.Alive) {a : Act} (hsafe : MapSafe k a) (hs : Mos.step k a = some k') :
    ∃ g', Shares (gives k a) k k' g' := by
  cases a with
  | tick => exact ⟨g, (h.schedule (.of_eq rfl rfl rfl) h.dst hs).mono (fun _ _ hn => hn.elim)⟩
  | exec tf =>
    obtain ⟨cur, -, hu⟩ := Option.bind_eq_some_iff.1 hs
    cases hu
    exact ⟨g, (h.ktf _).mono (fun _ _ hn => hn.elim)⟩
  | miss va victim =>
    obtain ⟨cur, hcur, hu⟩ := Option.bind_eq_some_iff.1 hs
    simp only [userStep] at hu
    split at hu
    · cases hu
    · obtain ⟨pm, hpm, rfl⟩ := Option.map_eq_some_iff.1 hu
      have hlive := hal.running cur hcur
      rw [h.cur cur hcur] at hpm
      obtain ⟨g', hm, -⟩ := h.sound.refill (h.mem hlive) hpm
      exact ⟨g', (h.maps hlive hm).mono (fun e f hn => ⟨cur, hcur, hn⟩)⟩
  | store va w =>
    obtain ⟨cur, hcur, hu⟩ := Option.bind_eq_some_iff.1 hs
    obtain ⟨pm, hpm, rfl⟩ := Option.map_eq_some_iff.1 hu
    exact ⟨g, (h.store hcur (hal.running cur hcur) hpm).mono (fun _ _ hn => hn.elim)⟩
  | mod va =>
    obtain ⟨cur, hcur, hu⟩ := Option.bind_eq_some_iff.1 hs
    simp only [userStep, doTlbMod] at hu
    obtain ⟨k₁, hw, hrest⟩ := Option.bind_eq_some_iff.1 hu
    split at hrest
    · cases hrest
    · cases hrest
      have hn := h.ktf { k.ktf with cp0Badvaddr := va }
      obtain ⟨g', hs₁, -⟩ := hn.framed.storeWords (by exact hcur) (by exact hal.running cur hcur) hw
      have hs₂ : Shares (gives k (.mod va)) _ k₁ g' := hs₁.mono (fun e f hf => ⟨cur, hcur, hf⟩)
      exact ⟨g', ((hn.mono (fun _ _ hn => hn.elim)).then_ hs₂).then_ ((hs₁.framed.ktf _).mono (fun _ _ hn => hn.elim))⟩
  | syscall c v0 =>
    obtain ⟨cur, hcur, hu⟩ := Option.bind_eq_some_iff.1 hs
    obtain ⟨k₁, hr, hc⟩ := Option.bind_eq_some_iff.1 hu
    obtain ⟨r, hr', rfl⟩ := Option.map_eq_some_iff.1 hc
    obtain ⟨g₁, hs₁, -⟩ := h.readArgs hcur (hal.running cur hcur) hr
    obtain ⟨pm, rfl⟩ := readArgs_eq hr
    obtain ⟨g₂, hs₂⟩ := hs₁.framed.call (by exact hal) (by exact hcur) (hsafe cur _ hcur hr) hr'
    have hs₃ : Shares nobody r.2 (setV0 v0 r) g₂ := by
      obtain ⟨s, k₂⟩ := r
      cases s <;> exact hs₂.framed.other rfl rfl rfl rfl rfl
    refine ⟨g₂, ((hs₁.used.mono (fun e f hf => ?_)).then_ (hs₂.mono (fun e f hf => ?_))).then_
      (hs₃.mono (fun _ _ hn => hn.elim))⟩
    · exact ⟨cur, hcur, _, hr, .inl hf⟩
    · exact ⟨cur, hcur, _, hr, .inr hf⟩
  | noSys =>
    obtain ⟨cur, -, hu⟩ := Option.bind_eq_some_iff.1 hs
    cases hu
    exact ⟨g, (h.ktf _).mono (fun _ _ hn => hn.elim)⟩

end Framed

/-! ## The ghost record -/

/-- The kernel, and the frames that were allocated to an environment or shared with it. -/
structure Granted where
  kernel : Kernel
  grants : EnvIx → Nat → Prop

namespace Granted

/-- A step of the machine; a frame that is given back or becomes a table is nobody's any more. -/
def step (s : Granted) (a : Act) : Option Granted :=
  (Mos.step s.kernel a).map (fun k' => ⟨k', fun e f =>
    (k'.envs e).envStatus ≠ .free ∧ k'.UserFrame f ∧ (s.grants e f ∨ gives s.kernel a e f)⟩)

/-- After `mips_init` an environment has the frames that its program was loaded to. -/
def Booted (s : Granted) : Prop :=
  Linked s.kernel ∧ s.grants = fun e f =>
    (s.kernel.envs e).envStatus ≠ .free ∧ ∃ i < utopEntries, ∃ j < pageWords, s.kernel.frameAt e i j = some f

/-- **Isolation**: whatever a live environment maps it was given. -/
def Isolated (s : Granted) : Prop :=
  ∀ e, (s.kernel.envs e).envStatus ≠ .free → ∀ i < utopEntries, ∀ j < pageWords, ∀ f,
    s.kernel.frameAt e i j = some f → s.grants e f

/-- A call that asked for `pp` at `va` of `e` returns 0 in `s`, and leaves `k'`. -/
def Mapped (s : Granted) (c : Syscall) (e : EnvIx) (va : Word) (pp : Nat) (k' : Kernel) : Prop :=
  ∃ cur k₁, s.kernel.curenv = some cur ∧ readArgs s.kernel cur = some k₁ ∧ Asks k₁ cur c e va pp ∧
    syscallTable k₁ cur c = some (.ret 0, k')

structure Inv (s : Granted) : Prop where
  alive : s.kernel.procs.Alive
  framed : ∃ g, Framed s.kernel g
  isolated : s.Isolated

theorem inv_booted (s : Granted) (h : s.Booted) : s.Inv := by
  refine ⟨booted_alive h.1.booted, linked_framed h.1, fun e he i hi j hj f hf => ?_⟩
  rw [h.2]
  exact ⟨he, i, hi, j, hj, hf⟩

theorem inv_step (s : Granted) (a : Act) (s' : Granted) (h : s.Inv) (hsafe : MapSafe s.kernel a)
    (hs : s.step a = some s') :
    s'.Inv := by
  obtain ⟨k', hk', rfl⟩ := Option.map_eq_some_iff.1 hs
  obtain ⟨g, hg⟩ := h.framed
  obtain ⟨g', hsh⟩ := hg.step h.alive hsafe hk'
  refine ⟨alive_of_moves h.alive (step_moves hk'), ⟨g', hsh.framed⟩, fun e he i hi j hj f hf => ?_⟩
  refine ⟨he, hsh.framed.userFrame he hi hj hf, ?_⟩
  rcases hsh.pages e he i hi j hj f hf with ⟨he₀, hf₀⟩ | hn
  · exact .inl (h.isolated e he₀ i hi j hj f hf₀)
  · exact .inr hn

/-- **A call installs the page it asked for exactly when its permission adds no bit to the frame number.** -/
theorem installed_iff {s : Granted} (h : s.Inv) {c : Syscall} {e : EnvIx} {va : Word} {pp : Nat} {k' : Kernel}
    (hm : s.Mapped c e va pp k') : Installed k'.pm (k'.envs e).envPgdir va pp ↔ pp ||| ppn c.perm = pp := by
  obtain ⟨cur, k₁, hcur, hr, ha, hc⟩ := hm
  obtain ⟨g, hg⟩ := h.framed
  obtain ⟨g₁, hs₁, -⟩ := hg.readArgs hcur (h.alive.running cur hcur) hr
  obtain ⟨pm, rfl⟩ := readArgs_eq hr
  obtain ⟨p, g₂, asid, hacct, hd, hva, hpp, hpg, hi⟩ := hs₁.framed.inserted (by exact h.alive.running cur hcur) hc ha
  rw [hpg]
  exact insert_lookup hi (hacct.not_selfEntry hd (pdx_lt_utop.2 hva)) hpp (Nat.lt_of_lt_of_le hpp hacct.npage_le)

/-- **Frames are isolated** in every state of every run whose calls are safe, and in every such state any call that maps
a page installs its entry exactly when the permission adds no bit to the frame number. -/
theorem frames_isolated (s : Granted) (h : Run Booted step (fun s a => MapSafe s.kernel a) s) :
    s.Isolated ∧ ∀ c e va pp k', s.Mapped c e va pp k' →
    (Installed k'.pm (k'.envs e).envPgdir va pp ↔ pp ||| ppn c.perm = pp) := by
  have hinv := Run.invariant Inv inv_booted inv_step s h
  exact ⟨hinv.isolated, fun c e va pp k' hm => installed_iff hinv hm⟩

/-! ## The small machine -/

theorem linked_small : ∀ k, mipsInit smallBoard [emptyProgram] = some k → Linked k := by
  intro k hk
  have henvs : smallBoard.EnvsInKernel := by
    unfold Board.EnvsInKernel
    decide
  refine ⟨smallBoard, [emptyProgram], henvs, fun p hp ehdr hehdr ph hph => ?_, hk⟩
  rw [List.mem_singleton.1 hp] at hehdr hph
  have hnone : ((elfFrom emptyProgram.binary).map Elf32Ehdr.ePhnum) = some 0 := by decide
  rw [hehdr, Option.map_some, Option.some.injEq] at hnone
  rw [Binary.phdrs, hnone] at hph
  cases hph

/-- The small machine after boot. -/
def small : Option Granted :=
  (mipsInit smallBoard [emptyProgram]).map (fun k => { kernel := k, grants := fun e f =>
    (k.envs e).envStatus ≠ .free ∧ ∃ i < utopEntries, ∃ j < pageWords, k.frameAt e i j = some f })

theorem booted_small (s : Granted) (h : small = some s) : s.Booted := by
  obtain ⟨k, hk, rfl⟩ := Option.map_eq_some_iff.1 h
  exact ⟨linked_small k hk, rfl⟩

/-- A check that implies `MapSafe`. -/
def mapSafeB (s : Granted) : Act → Bool
  | .syscall (.memAlloc _ _ perm) _ =>
    ppn perm = 0 && s.kernel.curenv.all (fun cur => (readArgs s.kernel cur).all (fun k₁ =>
      k₁.pm.pageFreeList.head?.all (fun pp => k₁.pm.ppRef pp < 65535)))
  | .syscall (.memMap srcid srcva _ _ perm) _ =>
    ppn perm = 0 && s.kernel.curenv.all (fun cur => (readArgs s.kernel cur).all (fun k₁ =>
      (envid2env k₁ cur srcid true).all (fun src => (k₁.frameOf src srcva).all (fun pp => k₁.pm.ppRef pp < 65535))))
  | .syscall (.ipcTrySend _ _ _ _) _ => false
  | _ => true

theorem mapSafe_of_mapSafeB (s : Granted) (a : Act) (h : s.mapSafeB a = true) : MapSafe s.kernel a := by
  cases a with
  | syscall c v0 =>
    intro cur k₁ hcur hr e va pp ha
    cases c with
    | memAlloc envid va' perm =>
      obtain ⟨-, -, hf⟩ := ha
      simp only [mapSafeB, hcur, hr, hf, Option.all_some, Bool.and_eq_true, decide_eq_true_eq] at h
      refine .inr ⟨?_, .inr h.2⟩
      show pp ||| ppn perm = pp
      rw [h.1, Nat.or_zero]
    | memMap srcid srcva dstid dstva perm =>
      obtain ⟨-, -, src, hsrc, hf⟩ := ha
      simp only [mapSafeB, hcur, hr, hsrc, hf, Option.all_some, Bool.and_eq_true, decide_eq_true_eq] at h
      refine .inr ⟨?_, .inr h.2⟩
      show pp ||| ppn perm = pp
      rw [h.1, Nat.or_zero]
    | ipcTrySend envid value srcva perm => cases h
    | _ => exact ha.elim
  | _ => trivial

/-- A page is allocated, and shared with a child. -/
theorem frames_isolated_child :
    ∃ s : Granted, (∃ f, s.kernel.frameAt 0 2 0 = some f ∧ s.kernel.frameAt 1 2 0 = some f) ∧
    s.Isolated := by
  obtain ⟨s, hr, hs⟩ := @Run.exists_of_exec Granted Act Booted step (fun s a => MapSafe s.kernel a) mapSafeB
    mapSafe_of_mapSafeB
    [.tick, .exec stackFrame, .syscall (.memAlloc 0 0x800000 pteD) 0, .syscall .exofork 0,
      .syscall (.memMap 0 0x800000 4097 0x800000 0) 0]
    small booted_small
    (fun s => decide ((s.kernel.frameAt 0 2 0).isSome ∧ s.kernel.frameAt 1 2 0 = s.kernel.frameAt 0 2 0))
    (by decide +kernel)
  obtain ⟨hsome, heq⟩ := of_decide_eq_true hs
  obtain ⟨f, hf⟩ := Option.isSome_iff_exists.1 hsome
  exact ⟨s, ⟨f, hf, heq.trans hf⟩, (frames_isolated s hr).1⟩

/-- **The permission chooses the frame**: `sys_mem_alloc` with frame bits maps the template directory of the kernel. -/
theorem frames_isolated_fails : ¬∀ s, Reach Booted step s →
    s.Isolated ∧ ∀ c e va pp k', s.Mapped c e va pp k' → Installed k'.pm (k'.envs e).envPgdir va pp := by
  obtain ⟨s, hr, hs⟩ := @Run.exists_of_exec Granted Act Booted step (fun _ _ => True) (fun _ _ => true)
    (fun _ _ _ => trivial) [.tick, .exec stackFrame] small booted_small
    (fun s => decide (s.kernel.curenv = some 0) && (readArgs s.kernel 0).any (fun k₁ =>
      k₁.pm.pageFreeList.head?.any (fun pp => decide (pp ≠ k₁.basePgdir) &&
        (syscallTable k₁ 0 (.memAlloc 0 0x800000 (pteD ||| 0xFF000))).any (fun (r : Sysret × Kernel) =>
          decide (r.1 = .ret 0) && (pageLookup r.2.pm (r.2.envs 0).envPgdir 0x800000).any
            (fun (l : Option (Nat × PtePtr)) => decide (l.map Prod.fst = some k₁.basePgdir)))))) (by decide +kernel)
  simp only [Bool.and_eq_true, decide_eq_true_eq] at hs
  obtain ⟨hcur, hs⟩ := hs
  obtain ⟨k₁, hargs, hs⟩ := (Option.any_eq_true _ _).1 hs
  obtain ⟨pp, hpp, hs⟩ := (Option.any_eq_true _ _).1 hs
  simp only [Bool.and_eq_true, decide_eq_true_eq] at hs
  obtain ⟨hne, hs⟩ := hs
  obtain ⟨⟨r, k'⟩, hcall, hs⟩ := (Option.any_eq_true _ _).1 hs
  simp only [Bool.and_eq_true, decide_eq_true_eq] at hs
  obtain ⟨rfl, hs⟩ := hs
  obtain ⟨l, hl, hbase⟩ := (Option.any_eq_true _ _).1 hs
  intro hall
  obtain ⟨pte, hpte⟩ := (hall s hr).2 (.memAlloc 0 0x800000 (pteD ||| 0xFF000)) 0 0x800000 pp k'
    ⟨0, k₁, hcur, hargs, ⟨rfl, rfl, hpp⟩, hcall⟩
  rw [hpte, Option.some.injEq] at hl
  rw [← hl] at hbase
  exact hne (by simpa using hbase)

end Granted

end Mos
