import Mos.Alive
import Mos.FailedSend
import Mos.Space
/-!
# Framed — every step keeps the address spaces apart

`Framed` is `Sound` for the kernel: the directories are those of the live environments, one each.  `Shares new k k'`
says that a step keeps it, and that every page an environment has afterwards it had before, or `new` gives it to it.
`Given` is what the code of a system call means to give, `CallSafe` the condition under which it gives no more.
-/
namespace Mos

/-- The frame at entry `j` of table `i` of `e`. -/
def Kernel.frameAt (k : Kernel) (e : EnvIx) (i j : Nat) : Option Nat := k.pm.frame ((k.envs e).envPgdir, i, j)

/-- The frame `va` is mapped to in `e`. -/
def Kernel.frameOf (k : Kernel) (e : EnvIx) (va : Word) : Option Nat := k.pm.frame (slotOf (k.envs e).envPgdir va)

/-- **The address spaces of the live environments are sound.** -/
structure Framed (k : Kernel) (g : Ledger) : Prop where
  sound : Sound k.basePgdir k.pm g
  dirs : ∀ d, d ∈ g.dirs ↔ ∃ e, (k.envs e).envStatus ≠ .free ∧ (k.envs e).envPgdir = d
  inj : ∀ e e', (k.envs e).envStatus ≠ .free → (k.envs e').envStatus ≠ .free →
    (k.envs e).envPgdir = (k.envs e').envPgdir → e = e'
  cur : ∀ c, k.curenv = some c → k.curPgdir = (k.envs c).envPgdir
  dst : ∀ e, (k.envs e).envIpcDstva < utop

/-- **What a step shares.** -/
structure Shares (new : EnvIx → Nat → Prop) (k k' : Kernel) (g : Ledger) : Prop where
  framed : Framed k' g
  pages : ∀ e, (k'.envs e).envStatus ≠ .free → ∀ i < utopEntries, ∀ j < pageWords, ∀ f, k'.frameAt e i j = some f →
    (k.envs e).envStatus ≠ .free ∧ k.frameAt e i j = some f ∨ new e f

/-- Nobody is given anything. -/
def nobody : EnvIx → Nat → Prop := fun _ _ => False

namespace Shares

variable {new new' : EnvIx → Nat → Prop} {k k₁ k' : Kernel} {g g₁ g' : Ledger}

theorem refl (h : Framed k g) : Shares new k k g := ⟨h, fun _ he _ _ _ _ _ hf => .inl ⟨he, hf⟩⟩

theorem mono (h : Shares new k k' g) (hn : ∀ e f, new e f → new' e f) : Shares new' k k' g :=
  ⟨h.framed, fun e he i hi j hj f hf => (h.pages e he i hi j hj f hf).imp_right (hn e f)⟩

theorem trans (h : Shares new k k₁ g₁) (h' : Shares new' k₁ k' g') :
    Shares (fun e f => new e f ∨ new' e f) k k' g' := by
  refine ⟨h'.framed, fun e he i hi j hj f hf => ?_⟩
  rcases h'.pages e he i hi j hj f hf with ⟨he₁, hf₁⟩ | hn
  · exact (h.pages e he₁ i hi j hj f hf₁).imp_right .inl
  · exact .inr (.inr hn)

theorem then_ (h : Shares new k k₁ g₁) (h' : Shares new k₁ k' g') : Shares new k k' g' :=
  (h.trans h').mono (fun _ _ hn => hn.elim id id)

end Shares

/-- The states have the same address spaces. -/
structure SameSpaces (k k' : Kernel) : Prop where
  pm : k'.pm = k.pm
  base : k'.basePgdir = k.basePgdir
  status : ∀ e, (k'.envs e).envStatus ≠ .free ↔ (k.envs e).envStatus ≠ .free
  pgdir : ∀ e, (k.envs e).envStatus ≠ .free → (k'.envs e).envPgdir = (k.envs e).envPgdir

namespace SameSpaces

variable {k k₁ k' : Kernel}

theorem of_eq (hp : k'.pm = k.pm) (hb : k'.basePgdir = k.basePgdir) (he : k'.envs = k.envs) : SameSpaces k k' :=
  ⟨hp, hb, fun e => by rw [he], fun e _ => by rw [he]⟩

theorem trans (h : SameSpaces k k₁) (h' : SameSpaces k₁ k') : SameSpaces k k' :=
  ⟨h'.pm.trans h.pm, h'.base.trans h.base, fun e => (h'.status e).trans (h.status e),
    fun e he => (h'.pgdir e ((h.status e).2 he)).trans (h.pgdir e he)⟩

theorem setEnv (k : Kernel) (e : EnvIx) {f : Env → Env}
    (hs : (f (k.envs e)).envStatus ≠ .free ↔ (k.envs e).envStatus ≠ .free)
    (hp : (f (k.envs e)).envPgdir = (k.envs e).envPgdir) : SameSpaces k (k.setEnv e f) := by
  refine ⟨rfl, rfl, fun x => ?_, fun x _ => Kernel.setEnv_field k e x hp⟩
  rw [Kernel.setEnv_envs]
  split
  · rename_i hx
    rw [hs, hx]
  · rfl

end SameSpaces

namespace Framed

variable {k k' : Kernel} {g g' : Ledger}

/-- **The fields that matter are the same.** -/
theorem same (h : Framed k g) (hs : SameSpaces k k')
    (hcur : ∀ c, k'.curenv = some c → k'.curPgdir = (k'.envs c).envPgdir) (hdst : ∀ e, (k'.envs e).envIpcDstva < utop) :
    Shares nobody k k' g := by
  refine ⟨⟨?_, ?_, ?_, hcur, hdst⟩, ?_⟩
  · rw [hs.pm, hs.base]
    exact h.sound
  · intro d
    rw [h.dirs d]
    refine exists_congr (fun e => ?_)
    rw [hs.status e]
    exact and_congr_right (fun he => by rw [hs.pgdir e he])
  · intro e e' he he' hp
    have he₀ := (hs.status e).1 he
    have he₀' := (hs.status e').1 he'
    rw [hs.pgdir e he₀, hs.pgdir e' he₀'] at hp
    exact h.inj e e' he₀ he₀' hp
  · intro e he i _ j _ f hf
    have he₀ := (hs.status e).1 he
    unfold Kernel.frameAt at hf ⊢
    rw [hs.pm, hs.pgdir e he₀] at hf
    exact .inl ⟨he₀, hf⟩

theorem mem (h : Framed k g) {e : EnvIx} (he : (k.envs e).envStatus ≠ .free) : (k.envs e).envPgdir ∈ g.dirs :=
  (h.dirs _).2 ⟨e, he, rfl⟩

/-- **An operation on the pages of `e`.** -/
theorem maps (h : Framed k g) {pm : Pmap} {e : EnvIx} {new : Nat → Prop} (he : (k.envs e).envStatus ≠ .free)
    (hm : Maps k.basePgdir (fun d f => d = (k.envs e).envPgdir ∧ new f) k.pm pm g g') :
    Shares (fun e' f => e' = e ∧ new f) k (k.setPm pm) g' := by
  refine ⟨⟨hm.sound, ?_, h.inj, h.cur, h.dst⟩, ?_⟩
  · rw [hm.dirs]
    exact h.dirs
  · intro e' he' i hi j hj f hf
    have hslot : ((k.envs e').envPgdir, i, j) ∈ pageSlots utopEntries g.dirs := mem_pageSlots.2 ⟨h.mem he', hi, hj⟩
    rcases hm.pages _ hslot f hf with hf | ⟨hd, hn⟩
    · exact .inl ⟨he', hf⟩
    · exact .inr ⟨h.inj e' e he' he hd, hn⟩

theorem maps_nothing (h : Framed k g) {pm : Pmap} (hm : Maps k.basePgdir nothing k.pm pm g g') :
    Shares nobody k (k.setPm pm) g' := by
  refine ⟨⟨hm.sound, ?_, h.inj, h.cur, h.dst⟩, ?_⟩
  · rw [hm.dirs]
    exact h.dirs
  · intro e' he' i hi j hj f hf
    have hslot : ((k.envs e').envPgdir, i, j) ∈ pageSlots utopEntries g.dirs := mem_pageSlots.2 ⟨h.mem he', hi, hj⟩
    exact .inl ⟨he', (hm.pages _ hslot f hf).elim id (fun hc => hc.elim)⟩

/-! ## Accesses -/

/-- The pages that an access of `e` may map. -/
def grown (k : Kernel) (e : EnvIx) : EnvIx → Nat → Prop := fun e' f => e' = e ∧ f ∈ k.pm.pageFreeList

theorem grown_mono {k k' : Kernel} {e : EnvIx} (h : ∀ f ∈ k'.pm.pageFreeList, f ∈ k.pm.pageFreeList) (e' : EnvIx)
    (f : Nat) (hn : grown k' e e' f) : grown k e e' f := ⟨hn.1, h f hn.2⟩

theorem touch (h : Framed k g) {c : EnvIx} {va : Word} (hc : k.curenv = some c) (hlive : (k.envs c).envStatus ≠ .free)
    (ht : k.touch c va = some k') :
    ∃ g', Shares (grown k c) k k' g' ∧ ∀ f ∈ k'.pm.pageFreeList, f ∈ k.pm.pageFreeList := by
  obtain ⟨pm, hpm, rfl⟩ := Option.map_eq_some_iff.1 ht
  rw [h.cur c hc] at hpm
  obtain ⟨g', hm, hsub⟩ := h.sound.touch (h.mem hlive) hpm
  exact ⟨g', h.maps hlive hm, hsub⟩

theorem touchRange {c : EnvIx} {va : Word} {len : Nat} :
    ∀ {k k' : Kernel} {g : Ledger}, Framed k g → k.curenv = some c →
    (k.envs c).envStatus ≠ .free → k.touchRange c va len = some k' →
    ∃ g', Shares (grown k c) k k' g' ∧ ∀ f ∈ k'.pm.pageFreeList, f ∈ k.pm.pageFreeList := by
  unfold Kernel.touchRange
  generalize List.range len = is
  induction is with
  | nil =>
    intro k k' g h _ _ ht
    cases ht
    exact ⟨g, .refl h, fun _ hf => hf⟩
  | cons i is ih =>
    intro k k' g h hc hlive ht
    rw [List.foldlM_cons] at ht
    obtain ⟨k₁, h₁, h₂⟩ := Option.bind_eq_some_iff.1 ht
    obtain ⟨g₁, hs, hsub⟩ := h.touch hc hlive h₁
    obtain ⟨pm, rfl⟩ := touch_eq h₁
    obtain ⟨g', hs', hsub'⟩ := ih hs.framed hc hlive h₂
    exact ⟨g', hs.then_ (hs'.mono (grown_mono hsub)), fun f hf => hsub f (hsub' f hf)⟩

theorem store (h : Framed k g) {c : EnvIx} {pm : Pmap} {va w : Word} (hc : k.curenv = some c)
    (hlive : (k.envs c).envStatus ≠ .free) (hs : Mos.store k.pm k.curPgdir va w = some pm) :
    Shares nobody k (k.setPm pm) g := by
  rw [h.cur c hc] at hs
  exact h.maps_nothing (h.sound.store (h.mem hlive) hs)

theorem store_free {p p' : Pmap} {d : Nat} {va w : Word} (hs : Mos.store p d va w = some p') :
    p'.pageFreeList = p.pageFreeList := by
  unfold Mos.store at hs
  split at hs
  · cases hs
  · obtain ⟨l, -, hrest⟩ := Option.bind_eq_some_iff.1 hs
    cases l with
    | none => cases hrest
    | some l =>
      dsimp only at hrest
      split at hrest
      · cases hrest
        rfl
      · cases hrest

theorem storeWords {c : EnvIx} : ∀ {ws : List Word} {va : Word} {k k' : Kernel} {g : Ledger}, Framed k g →
    k.curenv = some c → (k.envs c).envStatus ≠ .free → k.storeWords c va ws = some k' →
    ∃ g', Shares (grown k c) k k' g' ∧ ∀ f ∈ k'.pm.pageFreeList, f ∈ k.pm.pageFreeList
  | [], _, k, k', g, h, _, _, hs => by
    cases hs
    exact ⟨g, .refl h, fun _ hf => hf⟩
  | w :: ws, va, k, k', g, h, hc, hlive, hs => by
    unfold Kernel.storeWords at hs
    obtain ⟨k₁, h₁, h₂⟩ := Option.bind_eq_some_iff.1 hs
    obtain ⟨g₁, hs₁, hsub₁⟩ := h.touch hc hlive h₁
    obtain ⟨pm₁, rfl⟩ := touch_eq h₁
    obtain ⟨pm₂, hst, h₃⟩ := Option.bind_eq_some_iff.1 h₂
    have hs₂ := hs₁.framed.store hc hlive hst
    have hfree : pm₂.pageFreeList = pm₁.pageFreeList := store_free hst
    have hsub₂ : ∀ f ∈ pm₂.pageFreeList, f ∈ k.pm.pageFreeList := fun f hf => hsub₁ f (hfree ▸ hf)
    obtain ⟨g', hs₃, hsub₃⟩ := storeWords hs₂.framed hc hlive h₃
    refine ⟨g', (hs₁.then_ (hs₂.mono (fun _ _ hn => hn.elim))).then_ (hs₃.mono (grown_mono hsub₂)), ?_⟩
    exact fun f hf => hsub₂ f (hsub₃ f hf)

/-! ## Scheduling -/

end Framed

theorem envRun_spaces {k k' : Kernel} {e : EnvIx} (h : envRun k e = some k') : SameSpaces k k' ∧
    (∀ c, k'.curenv = some c → k'.curPgdir = (k'.envs c).envPgdir) ∧
    ∀ x, (k'.envs x).envIpcDstva = (k.envs x).envIpcDstva := by
  unfold envRun at h
  split at h
  · cases h
    have hsave : SameSpaces k (saveTf k) ∧ ∀ x, ((saveTf k).envs x).envIpcDstva = (k.envs x).envIpcDstva := by
      unfold saveTf
      split
      · rename_i c _
        exact ⟨.setEnv k c Iff.rfl rfl, fun x => k.setEnv_field c x rfl⟩
      · exact ⟨.of_eq rfl rfl rfl, fun _ => rfl⟩
    have hrun : SameSpaces (saveTf k) ((saveTf k).setEnv e (fun v => { v with envRuns := v.envRuns + 1 })) :=
      .setEnv _ e Iff.rfl rfl
    have hs := hsave.1.trans hrun
    refine ⟨⟨hs.pm, hs.base, hs.status, hs.pgdir⟩, ?_, fun x => ?_⟩
    · intro c hc
      cases hc
      rfl
    · have hfield : (((saveTf k).setEnv e (fun v => { v with envRuns := v.envRuns + 1 })).envs x).envIpcDstva =
          ((saveTf k).envs x).envIpcDstva := Kernel.setEnv_field _ e x rfl
      exact hfield.trans (hsave.2 x)
  · cases h

theorem schedule_spaces {k k' : Kernel} {yield : Bool} (h : schedule k yield = some k') : SameSpaces k k' ∧
    (∀ c, k'.curenv = some c → k'.curPgdir = (k'.envs c).envPgdir) ∧
    ∀ x, (k'.envs x).envIpcDstva = (k.envs x).envIpcDstva := by
  have hrun : ∀ k₁ e, k₁.pm = k.pm → k₁.basePgdir = k.basePgdir → k₁.envs = k.envs → envRun k₁ e = some k' →
      SameSpaces k k' ∧ (∀ c, k'.curenv = some c → k'.curPgdir = (k'.envs c).envPgdir) ∧
      ∀ x, (k'.envs x).envIpcDstva = (k.envs x).envIpcDstva := by
    intro k₁ e hp hb he hr
    obtain ⟨hs, hc, hd⟩ := envRun_spaces hr
    exact ⟨(SameSpaces.of_eq hp hb he).trans hs, hc, fun x => (hd x).trans (by rw [he])⟩
  unfold schedule at h
  split at h
  · obtain ⟨q, -, hrest⟩ := Option.bind_eq_some_iff.1 h
    cases hf : q.first with
    | none => rw [hf] at hrest; cases hrest
    | some e =>
      rw [hf] at hrest
      exact hrun { k with sched := q, count := (k.envs e).envPri.toInt - 1 } e rfl rfl rfl hrest
  · split at h
    · cases h
    · rename_i e _
      exact hrun { k with count := k.count - 1 } e rfl rfl rfl h

namespace Framed

variable {k k' : Kernel} {g g' : Ledger}

theorem schedule (h : Framed k g) {k₁ : Kernel} {yield : Bool} (hs : SameSpaces k k₁)
    (hdst : ∀ e, (k₁.envs e).envIpcDstva < utop) (hk : Mos.schedule k₁ yield = some k') : Shares nobody k k' g := by
  obtain ⟨hs', hcur, hd⟩ := schedule_spaces hk
  exact h.same (hs.trans hs') hcur (fun e => hd e ▸ hdst e)

end Framed

/-! ## Environments come and go -/

/-- What `env_alloc` leaves once the directory is set up: it is the slot's, whether the slot is taken or not. -/
structure Allocated (k k' : Kernel) (e : EnvIx) (pp : Nat) (pm₁ : Pmap) : Prop where
  alloc : pageAlloc k.pm = some (pp, pm₁)
  pm : k'.pm = setupPgdir (pm₁.setRef pp (pm₁.ppRef pp + 1)) k.basePgdir pp
  base : k'.basePgdir = k.basePgdir
  curenv : k'.curenv = k.curenv
  curPgdir : k'.curPgdir = k.curPgdir
  pgdir : (k'.envs e).envPgdir = pp
  status : (k'.envs e).envStatus = (k.envs e).envStatus
  dst : (k'.envs e).envIpcDstva = (k.envs e).envIpcDstva
  other : ∀ x, x ≠ e → k'.envs x = k.envs x

theorem envAlloc_inv {k k' : Kernel} {parentId : Word} {r : Except Int EnvIx} (h : envAlloc k parentId = (r, k')) :
    (∃ i, r = .error i ∧ k' = k) ∨ ∃ e rest pp pm₁, k.envFreeList = e :: rest ∧ Allocated k k' e pp pm₁ ∧
      ((∃ i, r = .error i) ∨ r = .ok e) := by
  unfold envAlloc at h
  split at h
  · cases h
    exact .inl ⟨_, rfl, rfl⟩
  · rename_i e rest hf
    split at h
    · cases h
      exact .inl ⟨_, rfl, rfl⟩
    · rename_i k₁ hs
      obtain ⟨⟨pp, pm₁⟩, hpa, rfl⟩ := Option.map_eq_some_iff.1 hs
      refine .inr ⟨e, rest, pp, pm₁, hf, ?_⟩
      dsimp only at h
      split at h
      · cases h
        refine ⟨⟨hpa, rfl, rfl, rfl, rfl, ?_, ?_, ?_, ?_⟩, .inl ⟨_, rfl⟩⟩
        · simp only [Kernel.setEnv_self]
        · simp only [Kernel.setEnv_self]
          rfl
        · simp only [Kernel.setEnv_self]
          rfl
        · intro x hx
          simp only [Kernel.setEnv_ne _ _ hx, Kernel.setPm_envs]
      · cases h
        refine ⟨⟨hpa, rfl, rfl, rfl, rfl, ?_, ?_, ?_, ?_⟩, .inr rfl⟩
        · simp only [Kernel.setEnv_self]
        · simp only [Kernel.setEnv_self]
          rfl
        · simp only [Kernel.setEnv_self]
          rfl
        · intro x hx
          simp only [Kernel.setEnv_ne _ _ hx, Kernel.setPm_envs]

namespace Framed

variable {k k₁ k' : Kernel} {g g' : Ledger} {e : EnvIx} {pp : Nat} {pm₁ : Pmap}

/-- **The slot is not taken**: its directory stays the kernel's. -/
theorem allocated_free (h : Framed k g) (ha : Allocated k k' e pp pm₁) (hfree : (k.envs e).envStatus = .free)
    (hrun : k.curenv ≠ some e) : ∃ g', Shares nobody k k' g' := by
  obtain ⟨g', hm⟩ := h.sound.leakSpace ha.alloc
  have hsh := h.maps_nothing hm
  rw [← ha.pm] at hsh
  have henv : ∀ x, (k'.envs x).envStatus = (k.envs x).envStatus ∧ (k'.envs x).envIpcDstva = (k.envs x).envIpcDstva := by
    intro x
    by_cases hx : x = e
    · rw [hx]
      exact ⟨ha.status, ha.dst⟩
    · rw [ha.other x hx]
      exact ⟨rfl, rfl⟩
  have hother : ∀ x, (k.envs x).envStatus ≠ .free → k'.envs x = k.envs x :=
    fun x hx => ha.other x (fun hc => hx (hc ▸ hfree))
  refine ⟨g', hsh.then_ (hsh.framed.same ⟨rfl, ha.base, fun x => ?_, fun x hx => ?_⟩ ?_ ?_)⟩
  · rw [(henv x).1]
    rfl
  · rw [hother x hx]
    rfl
  · intro c hc
    rw [ha.curenv] at hc
    rw [ha.curPgdir, h.cur c hc, ha.other c (fun hce => hrun (hce ▸ hc))]
  · intro x
    rw [(henv x).2]
    exact h.dst x

/-- **The slot is taken**: the new environment has a space of its own without pages. -/
theorem allocated_live (h : Framed k g) (ha : Allocated k k₁ e pp pm₁) (hfree : (k.envs e).envStatus = .free)
    (hrun : k.curenv ≠ some e) {k₂ : Kernel} {f : Env → Env} (hk : k₂ = k₁.setEnv e f)
    (hst : (f (k₁.envs e)).envStatus ≠ .free) (hpg : (f (k₁.envs e)).envPgdir = (k₁.envs e).envPgdir)
    (hdst : (f (k₁.envs e)).envIpcDstva = (k₁.envs e).envIpcDstva) : ∃ g', Shares nobody k k₂ g' := by
  obtain ⟨hnd, hsound, hpages⟩ := h.sound.newSpace ha.alloc
  rw [← ha.pm] at hsound hpages
  have hself : (k₂.envs e).envStatus ≠ .free ∧ (k₂.envs e).envPgdir = pp ∧ (k₂.envs e).envIpcDstva =
      (k.envs e).envIpcDstva := by
    rw [hk, Kernel.setEnv_self]
    exact ⟨hst, hpg.trans ha.pgdir, hdst.trans ha.dst⟩
  have hother : ∀ x, x ≠ e → k₂.envs x = k.envs x := by
    intro x hx
    rw [hk, Kernel.setEnv_ne _ _ hx]
    exact ha.other x hx
  have hmem : ∀ x, x ≠ e → (k.envs x).envStatus ≠ .free → (k.envs x).envPgdir ≠ pp :=
    fun x _ hx hc => hnd (hc ▸ h.mem hx)
  have hne : ∀ x, (k.envs x).envStatus ≠ .free → x ≠ e := fun x hx hc => hx (hc ▸ hfree)
  refine ⟨⟨insert pp g.dirs, Function.update g.held pp 1, (insert pp g.limbo).erase pp⟩, ⟨?_, ?_, ?_, ?_, ?_⟩, ?_⟩
  · rw [hk]
    show Sound k₁.basePgdir k₁.pm _
    rw [ha.base]
    exact hsound
  · intro d
    rw [Finset.mem_insert, h.dirs d]
    constructor
    · rintro (rfl | ⟨x, hx, hxd⟩)
      · exact ⟨e, hself.1, hself.2.1⟩
      · exact ⟨x, by rw [hother x (hne x hx)]; exact hx, by rw [hother x (hne x hx)]; exact hxd⟩
    · rintro ⟨x, hx, hxd⟩
      by_cases hxe : x = e
      · rw [hxe, hself.2.1] at hxd
        exact .inl hxd.symm
      · rw [hother x hxe] at hx hxd
        exact .inr ⟨x, hx, hxd⟩
  · intro x y hx hy hp
    by_cases hxe : x = e
    · by_cases hye : y = e
      · rw [hxe, hye]
      · rw [hother y hye] at hy hp
        rw [hxe, hself.2.1] at hp
        exact absurd hp.symm (hmem y hye hy)
    · rw [hother x hxe] at hx hp
      by_cases hye : y = e
      · rw [hye, hself.2.1] at hp
        exact absurd hp (hmem x hxe hx)
      · rw [hother y hye] at hy hp
        exact h.inj x y hx hy hp
  · intro c hc
    have hc' : k.curenv = some c := by
      rw [hk] at hc
      exact ha.curenv.symm.trans hc
    have hcp : k₂.curPgdir = k.curPgdir := by
      rw [hk]
      exact ha.curPgdir
    rw [hcp, h.cur c hc', hother c (fun hce => hrun (hce ▸ hc'))]
  · intro x
    by_cases hxe : x = e
    · rw [hxe, hself.2.2]
      exact h.dst e
    · rw [hother x hxe]
      exact h.dst x
  · intro x hx i hi j hj f hf
    have hpm : k₂.pm = k₁.pm := by rw [hk]; rfl
    unfold Kernel.frameAt at hf ⊢
    rw [hpm] at hf
    by_cases hxe : x = e
    · rw [hxe, hself.2.1] at hf
      exact absurd rfl (hpages _ (mem_pageSlots.2 ⟨Finset.mem_insert_self _ _, hi, hj⟩) f hf).1
    · rw [hother x hxe] at hx hf
      exact .inl ⟨hx, (hpages _ (mem_pageSlots.2 ⟨Finset.mem_insert_of_mem (h.mem hx), hi, hj⟩) f hf).2⟩

/-- **`env_free`**: the space of `e` goes, the others stay as they are. -/
theorem free (h : Framed k g) (hlive : (k.envs e).envStatus ≠ .free) (hf : envFree k e = some k') :
    ∃ g', Shares nobody k k' g' := by
  unfold envFree at hf
  obtain ⟨pm, hpm, hrest⟩ := Option.bind_eq_some_iff.1 hf
  obtain ⟨q, -, rfl⟩ := Option.map_eq_some_iff.1 hrest
  obtain ⟨g', hsound, hdirs, hpages⟩ := h.sound.freeSpace (h.mem hlive) hpm
  have hself : (((k.setPm pm).setEnv e (fun v => { v with envStatus := .free })).envs e).envStatus = .free := by
    rw [Kernel.setEnv_self]
  have hother : ∀ x, x ≠ e → ((k.setPm pm).setEnv e (fun v => { v with envStatus := .free })).envs x = k.envs x :=
    fun x hx => Kernel.setEnv_ne _ _ hx
  generalize hk' : Kernel.setSched _ q = k'
  have henvs : k'.envs = ((k.setPm pm).setEnv e (fun v => { v with envStatus := .free })).envs := by
    rw [← hk']
    rfl
  rw [← henvs] at hself hother
  have hpm' : k'.pm = pm := by rw [← hk']; rfl
  have hlive' : ∀ x, (k'.envs x).envStatus ≠ .free → x ≠ e ∧ (k.envs x).envStatus ≠ .free := by
    intro x hx
    have hxe : x ≠ e := fun hc => hx (hc ▸ hself)
    rw [hother x hxe] at hx
    exact ⟨hxe, hx⟩
  have hpg : ∀ x, (k'.envs x).envPgdir = (k.envs x).envPgdir ∧ (k'.envs x).envIpcDstva = (k.envs x).envIpcDstva := by
    intro x
    rw [henvs]
    exact ⟨(k.setPm pm).setEnv_field e x rfl, (k.setPm pm).setEnv_field e x rfl⟩
  refine ⟨g', ⟨?_, ?_, ?_, ?_, ?_⟩, ?_⟩
  · rw [← hk']
    exact hsound
  · intro d
    rw [hdirs, Finset.mem_erase, h.dirs d]
    constructor
    · rintro ⟨hne, x, hx, hxd⟩
      have hxe : x ≠ e := fun hc => hne (by rw [← hxd, hc])
      exact ⟨x, by rw [hother x hxe]; exact hx, (hpg x).1.trans hxd⟩
    · rintro ⟨x, hx, hxd⟩
      obtain ⟨hxe, hx⟩ := hlive' x hx
      rw [(hpg x).1] at hxd
      exact ⟨fun hc => hxe (h.inj x e hx hlive (hxd.trans hc)), x, hx, hxd⟩
  · intro x y hx hy hp
    rw [(hpg x).1, (hpg y).1] at hp
    exact h.inj x y (hlive' x hx).2 (hlive' y hy).2 hp
  · intro c hc
    rw [(hpg c).1]
    rw [← hk'] at hc ⊢
    exact h.cur c hc
  · intro x
    rw [(hpg x).2]
    exact h.dst x
  · intro x hx i hi j hj f hf
    obtain ⟨hxe, hx⟩ := hlive' x hx
    unfold Kernel.frameAt at hf ⊢
    rw [hpm', (hpg x).1] at hf
    have hne : (k.envs x).envPgdir ≠ (k.envs e).envPgdir := fun hc => hxe (h.inj x e hx hlive hc)
    have hslot : ((k.envs x).envPgdir, i, j) ∈ pageSlots utopEntries (g.dirs.erase (k.envs e).envPgdir) :=
      mem_pageSlots.2 ⟨Finset.mem_erase.2 ⟨hne, h.mem hx⟩, hi, hj⟩
    exact .inl ⟨hx, hpages _ hslot f hf⟩

/-- **`env_destroy`** -/
theorem destroy (h : Framed k g) (hlive : (k.envs e).envStatus ≠ .free) (hd : envDestroy k e = some k') :
    ∃ g', Shares nobody k k' g' := by
  unfold envDestroy at hd
  obtain ⟨k₁, hf, hrest⟩ := Option.bind_eq_some_iff.1 hd
  obtain ⟨g', hs⟩ := h.free hlive hf
  split at hrest
  · have hsame : SameSpaces k₁ { k₁ with curenv := none } := .of_eq rfl rfl rfl
    exact ⟨g', hs.then_ (hs.framed.schedule hsame hs.framed.dst hrest)⟩
  · cases hrest
    exact ⟨g', hs⟩

end Framed

/-! ## The calls -/

/-- The call of `cur` asks for the page `f` at `va` of `e`. -/
def Asks (k : Kernel) (cur : EnvIx) : Syscall → EnvIx → Word → Nat → Prop
  | .memAlloc envid va _ => fun e va' f =>
      envid2env k cur envid true = some e ∧ va' = va ∧ k.pm.pageFreeList.head? = some f
  | .memMap srcid srcva dstid dstva _ => fun e va' f => envid2env k cur dstid true = some e ∧ va' = dstva ∧
      ∃ src, envid2env k cur srcid true = some src ∧ k.frameOf src srcva = some f
  | .ipcTrySend envid _ srcva _ => fun e va' f => srcva ≠ 0 ∧ envid2env k cur envid false = some e ∧
      (k.envs e).envIpcRecving ≠ 0 ∧ va' = (k.envs e).envIpcDstva ∧ k.frameOf cur srcva = some f
  | _ => fun _ _ _ => False

/-- The kernel reads or writes the memory of the caller. -/
def Syscall.accesses : Syscall → Prop
  | .printCons _ _ => True
  | .setTrapframe _ _ _ => True
  | .writeDev _ _ _ => True
  | .readDev _ _ _ _ => True
  | _ => False

/-- What a call of `cur` means to give: the page it asks for, and the pages that its accesses to the caller map. -/
def Given (k : Kernel) (cur : EnvIx) (c : Syscall) (e : EnvIx) (f : Nat) : Prop :=
  (∃ va, Asks k cur c e va f) ∨ c.accesses ∧ Framed.grown k cur e f

/-- `page_insert` of `pp` at `va` of `e` with `perm` writes the entry of `pp`, and counts the reference. -/
def FrameSafe (k : Kernel) (e : EnvIx) (va perm : Word) (pp : Nat) : Prop :=
  pp ||| ppn perm = pp ∧ (k.frameOf e va = some pp ∨ k.pm.ppRef pp < 65535)

/-- The free list when the call gets to `page_insert`. -/
def Syscall.pool (k : Kernel) : Syscall → List Nat
  | .memAlloc _ _ _ => k.pm.pageFreeList.tail
  | _ => k.pm.pageFreeList

/-- There is no table for `va`, and no frame to make one. -/
def NoRoom (k : Kernel) (c : Syscall) (e : EnvIx) (va : Word) : Prop :=
  k.pm.table ((k.envs e).envPgdir, pdx va) = none ∧ c.pool k = []

/-- **What the call maps it maps by its own frame**: `perm` adds no bit to the frame number, and the counter of the
frame does not overflow. -/
def CallSafe (k : Kernel) (cur : EnvIx) (c : Syscall) : Prop :=
  ∀ e va pp, Asks k cur c e va pp → NoRoom k c e va ∨ FrameSafe k e va c.perm pp

theorem legal_lt {va : Word} (h : isIllegalVa va = false) : va < utop := by
  unfold isIllegalVa at h
  rw [Bool.or_eq_false_iff] at h
  have hge := of_decide_eq_false h.2
  rw [ge_iff_le, BitVec.le_def] at hge
  rw [BitVec.lt_def]
  omega

namespace Framed

variable {k k' : Kernel} {g g' : Ledger}

theorem lookup (h : Framed k g) {e : EnvIx} {va : Word} {l : Option (Nat × PtePtr)} (he : (k.envs e).envStatus ≠ .free)
    (hva : va < utop) (hl : pageLookup k.pm (k.envs e).envPgdir va = some l) : l.map Prod.fst = k.frameOf e va := by
  obtain ⟨l', hl', hf⟩ := h.sound.acct.lookup (h.mem he) (pdx_lt_utop.2 hva)
  obtain rfl : l' = l := by simpa using hl'.symm.trans hl
  exact hf

/-- **A mapped page is mapped again**, with an entry of its own frame. -/
theorem insertMapped (h : Framed k g) {src dst : EnvIx} {srcva va perm asid : Word} {pp : Nat} {r : Int} {pm : Pmap}
    (hsrc : (k.envs src).envStatus ≠ .free) (hdst : (k.envs dst).envStatus ≠ .free) (hsva : srcva < utop)
    (hva : va < utop) (hf : k.frameOf src srcva = some pp)
    (hsafe : k.pm.table ((k.envs dst).envPgdir, pdx va) = none ∧ k.pm.pageFreeList = [] ∨ FrameSafe k dst va perm pp)
    (hi : pageInsert k.pm (k.envs dst).envPgdir asid pp va perm = some (r, pm)) :
    ∃ g', Shares (fun e f => e = dst ∧ f = pp) k (k.setPm pm) g' := by
  rcases hsafe with ⟨ht, hfree⟩ | hsafe
  · rw [insert_noRoom ht hfree] at hi
    cases hi
    exact ⟨g, (h.maps_nothing (h.sound.tlb _)).mono (fun _ _ hn => hn.elim)⟩
  have hslot := slotOf_mem (h.mem hsrc) (pdx_lt_utop.2 hsva)
  have hu := h.sound.acct.usable_of_frame hslot hf
  have hheld := h.sound.frame _ hslot pp hf
  rcases h.sound.insertPage (h.mem hdst) hva hu hheld hsafe.2 hsafe.1 hi with ⟨-, -, -, hm⟩ | ⟨-, -, hm⟩
  · exact ⟨g, (h.maps_nothing hm).mono (fun _ _ hn => hn.elim)⟩
  · exact ⟨_, h.maps hdst hm⟩

theorem setEnv (h : Framed k g) (e : EnvIx) {f : Env → Env}
    (hs : (f (k.envs e)).envStatus ≠ .free ↔ (k.envs e).envStatus ≠ .free)
    (hp : (f (k.envs e)).envPgdir = (k.envs e).envPgdir) (hd : (f (k.envs e)).envIpcDstva < utop) :
    Shares nobody k (k.setEnv e f) g := by
  refine h.same (.setEnv k e hs hp) (fun c hc => ?_) (fun x => ?_)
  · rw [k.setEnv_field e c hp]
    exact h.cur c hc
  · rw [Kernel.setEnv_envs]
    split
    · exact hd
    · exact h.dst x

theorem other (h : Framed k g) (hp : k'.pm = k.pm) (hb : k'.basePgdir = k.basePgdir) (he : k'.envs = k.envs)
    (hc : k'.curenv = k.curenv) (hd : k'.curPgdir = k.curPgdir) : Shares nobody k k' g := by
  refine h.same (.of_eq hp hb he) (fun c hcc => ?_) (fun x => ?_)
  · rw [hd, he]
    exact h.cur c (hc ▸ hcc)
  · rw [he]
    exact h.dst x

section Calls

variable {cur : EnvIx} {r : Sysret × Kernel}

theorem memAlloc (h : Framed k g) {envid va perm : Word} (hlive : (k.envs cur).envStatus ≠ .free)
    (hsafe : CallSafe k cur (.memAlloc envid va perm)) (hc : sysMemAlloc k cur envid va perm = some r) :
    ∃ g', Shares (Given k cur (.memAlloc envid va perm)) k r.2 g' := by
  unfold sysMemAlloc at hc
  split at hc
  · rw [ret_eq hc]
    exact ⟨g, .refl h⟩
  · rename_i hva
    split at hc
    · rw [ret_eq hc]
      exact ⟨g, .refl h⟩
    · rename_i e he
      split at hc
      · rw [ret_eq hc]
        exact ⟨g, .refl h⟩
      · rename_i pp pm₁ ha
        obtain ⟨⟨i, pm⟩, hi, hr⟩ := Option.bind_eq_some_iff.1 hc
        rw [ret_eq hr]
        have helive := envid2env_live hlive he
        obtain ⟨rest, hf, hpm₁⟩ := pageAlloc_eq ha
        have hhead : k.pm.pageFreeList.head? = some pp := by rw [hf]; rfl
        obtain ⟨-, -, htab, hm⟩ := h.sound.alloc ha
        have hacct := hm.sound.acct
        have hlimbo := Finset.mem_insert_self pp g.limbo
        have hr0 : pm₁.ppRef pp = 0 := (hacct.limbo pp hlimbo).2
        have hheld : g.held pp = 0 := (hacct.unref (hacct.limbo pp hlimbo).1 hr0).2.2
        have hva' : va < utop := legal_lt (by simpa using hva)
        rcases hsafe e va pp ⟨he, rfl, hhead⟩ with ⟨ht, hpool⟩ | hsafe
        · have hslot : ((k.envs e).envPgdir, pdx va) ∈ tableSlots utopEntries g.dirs :=
            mem_tableSlots.2 ⟨h.mem helive, pdx_lt_utop.2 hva'⟩
          have hfree₁ : pm₁.pageFreeList = [] := by
            rw [hpm₁]
            show rest = []
            rw [Syscall.pool, hf] at hpool
            exact hpool
          rw [insert_noRoom ((htab _ hslot).trans ht) hfree₁] at hi
          cases hi
          exact ⟨_, (h.maps_nothing ((hm.trans (hm.sound.tlb _)).mono (fun _ _ hn => hn.elim id id))).mono
            (fun _ _ hn => hn.elim)⟩
        · rcases hm.sound.insertPage (h.mem helive) hva' (hacct.usable_of_limbo hlimbo) hheld
            (.inr (by rw [hr0]; decide)) hsafe.1 hi with ⟨-, -, -, hm'⟩ | ⟨-, -, hm'⟩
          · exact ⟨_, (h.maps_nothing ((hm.trans hm').mono (fun _ _ hn => hn.elim id id))).mono (fun _ _ hn => hn.elim)⟩
          · refine ⟨_, (h.maps helive ((hm.trans hm').mono (fun _ _ hn => hn.elim (fun hc => hc.elim) id))).mono ?_⟩
            rintro e' f ⟨rfl, rfl⟩
            exact .inl ⟨va, he, rfl, hhead⟩

theorem memMap (h : Framed k g) {srcid srcva dstid dstva perm : Word} (hlive : (k.envs cur).envStatus ≠ .free)
    (hsafe : CallSafe k cur (.memMap srcid srcva dstid dstva perm))
    (hc : sysMemMap k cur srcid srcva dstid dstva perm = some r) :
    ∃ g', Shares (Given k cur (.memMap srcid srcva dstid dstva perm)) k r.2 g' := by
  unfold sysMemMap at hc
  split at hc
  · rw [ret_eq hc]
    exact ⟨g, .refl h⟩
  · rename_i hva
    rw [Bool.not_eq_true, Bool.or_eq_false_iff] at hva
    split at hc
    · rw [ret_eq hc]
      exact ⟨g, .refl h⟩
    · rename_i src hsrc
      split at hc
      · rw [ret_eq hc]
        exact ⟨g, .refl h⟩
      · rename_i dst hdst
        obtain ⟨l, hl, hrest⟩ := Option.bind_eq_some_iff.1 hc
        cases l with
        | none =>
          rw [ret_eq hrest]
          exact ⟨g, .refl h⟩
        | some l =>
          obtain ⟨pp, pte⟩ := l
          obtain ⟨⟨i, pm⟩, hi, hr⟩ := Option.bind_eq_some_iff.1 hrest
          rw [ret_eq hr]
          have hslive := envid2env_live hlive hsrc
          have hf : k.frameOf src srcva = some pp := (h.lookup hslive (legal_lt hva.1) hl).symm
          obtain ⟨g', hs⟩ := h.insertMapped hslive (envid2env_live hlive hdst) (legal_lt hva.1) (legal_lt hva.2) hf
            (hsafe dst dstva pp ⟨hdst, rfl, src, hsrc, hf⟩) hi
          refine ⟨g', hs.mono ?_⟩
          rintro e' f ⟨rfl, rfl⟩
          exact .inl ⟨dstva, hdst, rfl, src, hsrc, hf⟩

theorem ipcTrySend (h : Framed k g) {envid value srcva perm : Word} (hlive : (k.envs cur).envStatus ≠ .free)
    (hsafe : CallSafe k cur (.ipcTrySend envid value srcva perm))
    (hc : sysIpcTrySend k cur envid value srcva perm = some r) :
    ∃ g', Shares (Given k cur (.ipcTrySend envid value srcva perm)) k r.2 g' := by
  have hwoken : ∀ e q, envid2env k cur envid false = some e → Shares nobody k (woken k cur e value perm q) g := by
    intro e q he
    have helive := envid2env_live hlive he
    have hset := h.setEnv e (f := fun v => v.deliver value (k.envs cur).envId perm)
      ⟨fun _ => helive, fun _ => by simp [Env.deliver]⟩ rfl (h.dst e)
    exact hset.then_ (hset.framed.other rfl rfl rfl rfl rfl)
  cases send_inv hc with
  | refused => exact ⟨g, .refl h⟩
  | value e q he => exact ⟨g, (hwoken e q he).mono (fun _ _ hn => hn.elim)⟩
  | lost e q he => exact ⟨g, (hwoken e q he).mono (fun _ _ hn => hn.elim)⟩
  | page e q pp pte i pm he hr hq h0 hva hl hi =>
    have helive := envid2env_live hlive he
    have hf : k.frameOf cur srcva = some pp := (h.lookup hlive (legal_lt hva) hl).symm
    obtain ⟨g', hm⟩ := h.insertMapped hlive helive (legal_lt hva) (h.dst e) hf (hsafe e _ pp ⟨h0, he, hr, rfl, hf⟩) hi
    have hs : Shares (Given k cur (.ipcTrySend envid value srcva perm)) k (k.setPm pm) g' := by
      refine hm.mono ?_
      rintro e' f ⟨rfl, rfl⟩
      exact .inl ⟨_, h0, he, hr, rfl, hf⟩
    -- the update of the receiver and the one of its pages commute
    have hset := hs.framed.setEnv e (f := fun v => v.deliver value (k.envs cur).envId perm)
      ⟨fun _ => helive, fun _ => by simp [Env.deliver]⟩ rfl (h.dst e)
    have hcomm : Shares nobody _ ((woken k cur e value perm q).setPm pm) g' := hset.framed.other rfl rfl rfl rfl rfl
    exact ⟨g', hs.then_ ((hset.then_ hcomm).mono (fun _ _ hn => hn.elim))⟩

/-- **Every call gives what it means to give**, under `CallSafe`. -/
theorem call (h : Framed k g) (hal : k.procs.Alive) (hcur : k.curenv = some cur) {c : Syscall}
    (hsafe : CallSafe k cur c) (hc : syscallTable k cur c = some r) : ∃ g', Shares (Given k cur c) k r.2 g' := by
  have hlive : (k.envs cur).envStatus ≠ .free := hal.running cur hcur
  have hnone : ∀ {k'}, (∃ g', Shares nobody k k' g') → ∃ g', Shares (Given k cur c) k k' g' :=
    fun ⟨g', hs⟩ => ⟨g', hs.mono (fun _ _ hn => hn.elim)⟩
  have haccess : ∀ {k' g'}, c.accesses → Shares (grown k cur) k k' g' → ∃ g', Shares (Given k cur c) k k' g' :=
    fun ha hs => ⟨_, hs.mono (fun _ _ hn => .inr ⟨ha, hn⟩)⟩
  have hret : ∀ {i : Int}, ret i k = some r → ∃ g', Shares (Given k cur c) k r.2 g' := by
    intro i hr
    rw [ret_eq hr]
    exact ⟨g, .refl h⟩
  cases c with
  | putchar => cases hc; exact ⟨g, .refl h⟩
  | printCons s num =>
    simp only [syscallTable, sysPrintCons] at hc
    split at hc
    · exact hret hc
    · obtain ⟨k₁, h₁, hr⟩ := Option.bind_eq_some_iff.1 hc
      obtain ⟨g', hs, -⟩ := h.touchRange hcur hlive h₁
      rw [ret_eq hr]
      exact haccess trivial hs
  | getenvid => exact hret hc
  | yield =>
    obtain ⟨k₁, h₁, rfl⟩ := Option.map_eq_some_iff.1 hc
    exact hnone ⟨g, h.schedule (.of_eq rfl rfl rfl) h.dst h₁⟩
  | envDestroy envid =>
    simp only [syscallTable, sysEnvDestroy] at hc
    split at hc
    · exact hret hc
    · rename_i e he
      obtain ⟨k₁, h₁, rfl⟩ := Option.map_eq_some_iff.1 hc
      exact hnone (h.destroy (envid2env_live hlive he) h₁)
  | setTlbModEntry envid func =>
    simp only [syscallTable, sysSetTlbModEntry] at hc
    split at hc
    · exact hret hc
    · rename_i e he
      rw [ret_eq hc]
      exact hnone ⟨g, h.setEnv e (f := fun v => { v with envUserTlbModEntry := func }) Iff.rfl rfl (h.dst e)⟩
  | memAlloc envid va perm => exact h.memAlloc hlive hsafe hc
  | memMap srcid srcva dstid dstva perm => exact h.memMap hlive hsafe hc
  | memUnmap envid va =>
    simp only [syscallTable, sysMemUnmap] at hc
    split at hc
    · exact hret hc
    · rename_i hva
      split at hc
      · exact hret hc
      · rename_i e he
        obtain ⟨pm, hpm, hr⟩ := Option.bind_eq_some_iff.1 hc
        rw [ret_eq hr]
        have hm := h.sound.remove (h.mem (envid2env_live hlive he)) (legal_lt (by simpa using hva)) hpm
        exact hnone ⟨g, h.maps_nothing hm.1⟩
  | exofork =>
    simp only [syscallTable, sysExofork] at hc
    split at hc
    · rename_i i k₁ ha
      rw [ret_eq hc]
      rcases envAlloc_inv ha with ⟨-, -, rfl⟩ | ⟨e, rest, pp, pm₁, hf, hall, -⟩
      · exact ⟨g, .refl h⟩
      · have hfree : (k.envs e).envStatus = .free := hal.free e (by rw [show k.procs.free = e :: rest from hf]; simp)
        exact hnone (h.allocated_free hall hfree (fun hc => hal.running e hc hfree))
    · rename_i e k₁ ha
      rw [ret_eq hc]
      rcases envAlloc_inv ha with ⟨i, hr, -⟩ | ⟨e', rest, pp, pm₁, hf, hall, hr⟩
      · cases hr
      · obtain rfl : e = e' := by simpa using hr
        have hfree : (k.envs e).envStatus = .free := hal.free e (by rw [show k.procs.free = e :: rest from hf]; simp)
        exact hnone (h.allocated_live hall hfree (fun hc => hal.running e hc hfree) (f := fun v =>
          { v with envTf := k₁.ktf.setReg 2 0, envStatus := .notRunnable, envPri := (k₁.envs cur).envPri }) rfl
          (by simp) rfl rfl)
  | setEnvStatus envid status =>
    simp only [syscallTable, sysSetEnvStatus] at hc
    split at hc
    · exact hret hc
    · rename_i st hst
      split at hc
      · exact hret hc
      · rename_i e he
        obtain ⟨q, -, hr⟩ := Option.bind_eq_some_iff.1 hc
        rw [ret_eq hr]
        have hset := h.setEnv e (f := fun v => { v with envStatus := st })
          ⟨fun _ => envid2env_live hlive he, fun _ => statusOfWord_ne_free hst⟩ rfl (h.dst e)
        have hcomm : Shares nobody _ ((k.setSched q).setEnv e (fun v => { v with envStatus := st })) g :=
          hset.framed.other rfl rfl rfl rfl rfl
        exact hnone ⟨g, hset.then_ hcomm⟩
  | setTrapframe envid va tf =>
    simp only [syscallTable, sysSetTrapframe] at hc
    split at hc
    · exact hret hc
    · split at hc
      · exact hret hc
      · rename_i e he
        obtain ⟨k₁, h₁, hr⟩ := Option.bind_eq_some_iff.1 hc
        obtain ⟨g', hs, -⟩ := h.touchRange hcur hlive h₁
        split at hr
        · rw [ret_eq hr]
          have hcomm : Shares nobody k₁ { k₁ with ktf := tf } g' := hs.framed.other rfl rfl rfl rfl rfl
          exact haccess trivial (hs.then_ (hcomm.mono (fun _ _ hn => hn.elim)))
        · rw [ret_eq hr]
          have hset := hs.framed.setEnv e (f := fun v => { v with envTf := tf }) Iff.rfl rfl (hs.framed.dst e)
          exact haccess trivial (hs.then_ (hset.mono (fun _ _ hn => hn.elim)))
  | panic => cases hc
  | ipcTrySend envid value srcva perm => exact h.ipcTrySend hlive hsafe hc
  | ipcRecv dstva =>
    simp only [syscallTable, sysIpcRecv] at hc
    split at hc
    · exact hret hc
    · rename_i hva
      obtain ⟨q, -, hrest⟩ := Option.bind_eq_some_iff.1 hc
      obtain ⟨k₁, h₁, rfl⟩ := Option.map_eq_some_iff.1 hrest
      have hdst : dstva < utop := by
        by_cases h0 : dstva = 0
        · rw [h0]
          decide
        · refine legal_lt (Bool.eq_false_iff.2 (fun hi => hva ⟨h0, hi⟩))
      have hset := h.setEnv cur (f := fun v => v.startRecv dstva) ⟨fun _ => hlive, fun _ => by simp [Env.startRecv]⟩ rfl
        hdst
      refine hnone ⟨g, hset.then_ (hset.framed.schedule ?_ ?_ h₁)⟩
      · exact .of_eq rfl rfl rfl
      · exact hset.framed.dst
  | cgetc ch => exact hret hc
  | writeDev va pa len =>
    simp only [syscallTable, sysWriteDev] at hc
    split at hc
    · exact hret hc
    · obtain ⟨k₁, h₁, hr⟩ := Option.bind_eq_some_iff.1 hc
      obtain ⟨g', hs, -⟩ := h.touchRange hcur hlive h₁
      rw [ret_eq hr]
      exact haccess trivial hs
  | readDev va pa len w =>
    simp only [syscallTable, sysReadDev] at hc
    split at hc
    · exact hret hc
    · obtain ⟨k₁, h₁, hrest⟩ := Option.bind_eq_some_iff.1 hc
      obtain ⟨pm, hpm, hr⟩ := Option.bind_eq_some_iff.1 hrest
      obtain ⟨g', hs, -⟩ := h.touch hcur hlive h₁
      obtain ⟨pm₁, rfl⟩ := touch_eq h₁
      rw [ret_eq hr]
      have hst := hs.framed.store hcur hlive hpm
      exact haccess trivial (hs.then_ (hst.mono (fun _ _ hn => hn.elim)))
  | getEnvParentId envid =>
    simp only [syscallTable, sysGetEnvParentId] at hc
    split at hc <;> exact hret hc
  | addJob envid cmd =>
    simp only [syscallTable, sysAddJob] at hc
    split at hc
    · cases hc
      exact hnone ⟨g, h.other rfl rfl rfl rfl rfl⟩
    · cases hc
  | printJobs => cases hc; exact ⟨g, .refl h⟩
  | tryDoneJobStatus envid =>
    obtain ⟨e, he, hd⟩ := Option.bind_eq_some_iff.1 hc
    obtain ⟨k₁, h₁, rfl⟩ := Option.map_eq_some_iff.1 hd
    refine hnone ?_
    have hjobs : ∀ jobs, Shares nobody k { k with jobs := jobs } g := fun _ => h.other rfl rfl rfl rfl rfl
    obtain ⟨g', hs⟩ := (hjobs _).framed.destroy (envid2env_live (by exact hlive) he) h₁
    exact ⟨g', (hjobs _).then_ hs⟩
  | killJob jobId =>
    simp only [syscallTable, sysKillJob] at hc
    split at hc
    · cases hc
      exact ⟨g, .refl h⟩
    · obtain ⟨i, -, hrest⟩ := Option.bind_eq_some_iff.1 hc
      split at hrest
      · cases hrest
        exact ⟨g, .refl h⟩
      · obtain ⟨e, he, hd⟩ := Option.bind_eq_some_iff.1 hrest
        obtain ⟨k₁, h₁, rfl⟩ := Option.map_eq_some_iff.1 hd
        refine hnone ?_
        have hjobs : ∀ jobs, Shares nobody k { k with jobs := jobs } g := fun _ => h.other rfl rfl rfl rfl rfl
        obtain ⟨g', hs⟩ := (hjobs _).framed.destroy (envid2env_live (by exact hlive) he) h₁
        exact ⟨g', (hjobs _).then_ hs⟩
  | getEnvidByJob jobId =>
    simp only [syscallTable, sysGetEnvidByJob] at hc
    split at hc
    · exact hret hc
    · obtain ⟨i, -, hi⟩ := Option.bind_eq_some_iff.1 hc
      split at hi <;> exact hret hi

end Calls

end Framed

end Mos
