import Mos.Framed
/-!
# Ids — what an environment id names

An id is the next value of a counter, shifted over the index of the slot.  The runs are those of `env_alloc` and
`env_free`; in between the kernel may do anything that leaves the ids, the counter and the free list alone and wakes no
environment that was not allocated.
-/
namespace Mos

/-- The kernel, the ids that `env_alloc` returned (the last one first), of every slot the id of the environment that
lives in it, and how many ids `mkenvid` made. -/
structure Roster where
  kernel : Kernel
  given : List Word
  holder : EnvIx → Option Word
  made : Nat

inductive RosterOp where
  | envAlloc (parentId : Word)
  | envFree (e : EnvIx)
  /-- Other code of the kernel leaves the state `k'`. -/
  | other (k' : Kernel)

namespace Roster

/-- `env_alloc` returned, with the state `k'`. -/
def allocated (r : Roster) (k' : Kernel) : Except Int EnvIx → Roster
  | .error _ => { r with kernel := k', made := r.made + (k'.mkenvidI - r.kernel.mkenvidI).toNat }
  | .ok e =>
    { kernel := k'
      given := (k'.envs e).envId :: r.given
      holder := Function.update r.holder e (some (k'.envs e).envId)
      made := r.made + (k'.mkenvidI - r.kernel.mkenvidI).toNat }

def step (r : Roster) : RosterOp → Option Roster
  | .envAlloc parentId => some (r.allocated (Mos.envAlloc r.kernel parentId).2 (Mos.envAlloc r.kernel parentId).1)
  | .envFree e =>
    (Mos.envFree r.kernel e).map (fun k' => { r with kernel := k', holder := Function.update r.holder e none })
  | .other k' => some { r with kernel := k' }

/-- Only environments that live are freed, and what else the kernel does concerns no id. -/
def Allowed (r : Roster) : RosterOp → Prop
  | .envAlloc _ => True
  | .envFree e => r.holder e ≠ none
  | .other k' => k'.mkenvidI = r.kernel.mkenvidI ∧ k'.envFreeList = r.kernel.envFreeList ∧ ∀ e,
      (k'.envs e).envId = (r.kernel.envs e).envId ∧
        (r.holder e = none → (k'.envs e).envStatus = (r.kernel.envs e).envStatus)

/-- A call of `env_alloc` fails, or `mkenvid` makes an id below the `2 ^ 20`th. -/
def Room (r : Roster) : RosterOp → Prop
  | .envAlloc _ => r.kernel.envFreeList = [] ∨ r.kernel.pm.pageFreeList = [] ∨ asidAlloc r.kernel.asidBitmap = none ∨
      r.made + 1 < 2 ^ 20
  | _ => True

/-- The kernel after `env_init`. -/
def Fresh (r : Roster) : Prop :=
  (∃ b pagesPa pm, envInit b pagesPa pm = some r.kernel) ∧ r.given = [] ∧ (∀ e, r.holder e = none) ∧ r.made = 0

/-- **Ids are never confused**: the ids returned so far are positive and all different, and each resolves to no slot but
the one where the environment it was given to lives. -/
structure Unconfused (r : Roster) : Prop where
  nonzero : ∀ id ∈ r.given, id ≠ 0
  positive : ∀ id ∈ r.given, 0 < id.toInt
  distinct : r.given.Nodup
  resolves : ∀ id ∈ r.given, ∀ cur checkperm e, envid2env r.kernel cur id checkperm = some e → r.holder e = some id

end Roster

/-! ## The value of an id -/

theorem toNat_mkenvid {i : Nat} (hi : i + 1 < 2 ^ 21) (e : EnvIx) :
    (mkenvid (BitVec.ofNat 32 i) e).toNat = (i + 1) * 2048 + e.val := by
  have he : e.val < 1024 := e.isLt
  have hone : (1 : Word).toNat = 1 := rfl
  have hcount : (BitVec.ofNat 32 i + 1).toNat = i + 1 := by
    rw [BitVec.toNat_add, BitVec.toNat_ofNat, hone]
    omega
  unfold mkenvid log2nenv
  rw [BitVec.toNat_or, BitVec.toNat_shiftLeft, hcount, BitVec.toNat_ofNat, Nat.mod_eq_of_lt (by omega : e.val < 2 ^ 32),
    Nat.shiftLeft_eq, Nat.mod_eq_of_lt (by omega), ← Nat.shiftLeft_eq,
    ← Nat.shiftLeft_add_eq_or_of_lt (by omega : e.val < 2 ^ (1 + 10)), Nat.shiftLeft_eq]

/-! ## One step -/

/-- `mkenvid` made the id of the slot `e`. -/
structure Numbered (k k' : Kernel) (e : EnvIx) : Prop where
  count : k'.mkenvidI = k.mkenvidI + 1
  id : (k'.envs e).envId = mkenvid k.mkenvidI e
  status : ∀ x, (k'.envs x).envStatus = (k.envs x).envStatus
  other : ∀ x, x ≠ e → (k'.envs x).envId = (k.envs x).envId

/-- What `env_alloc` does to the ids: nothing, or it numbers the first slot of the free list, which it takes unless the
address-space ids are used up. -/
theorem envAlloc_ids {k k' : Kernel} {parentId : Word} {r : Except Int EnvIx} (h : envAlloc k parentId = (r, k')) :
    (∃ i, r = .error i) ∧ k' = k ∨ ∃ e rest, k.envFreeList = e :: rest ∧ Numbered k k' e ∧
      ((∃ i, r = .error i) ∧ k'.envFreeList = k.envFreeList ∨
        r = .ok e ∧ k'.envFreeList = rest ∧ k.pm.pageFreeList ≠ [] ∧ asidAlloc k.asidBitmap ≠ none) := by
  unfold envAlloc at h
  split at h
  · cases h
    exact .inl ⟨⟨_, rfl⟩, rfl⟩
  · rename_i e rest hf
    split at h
    · cases h
      exact .inl ⟨⟨_, rfl⟩, rfl⟩
    · rename_i k₁ hs
      obtain ⟨⟨pp, pm₁⟩, hpa, rfl⟩ := Option.map_eq_some_iff.1 hs
      obtain ⟨ps, hps, -⟩ := pageAlloc_eq hpa
      refine .inr ⟨e, rest, hf, ?_⟩
      dsimp only at h
      split at h
      · cases h
        refine ⟨⟨rfl, ?_, fun x => ?_, fun x hx => ?_⟩, .inl ⟨⟨_, rfl⟩, rfl⟩⟩
        · simp only [Kernel.setEnv_self]
          rfl
        · by_cases hx : x = e
          · rw [hx]
            simp only [Kernel.setEnv_self]
            rfl
          · simp only [Kernel.setEnv_ne _ _ hx, Kernel.setPm_envs]
        · simp only [Kernel.setEnv_ne _ _ hx, Kernel.setPm_envs]
      · rename_i asid bitmap ha
        cases h
        refine ⟨⟨rfl, ?_, fun x => ?_, fun x hx => ?_⟩, .inr ⟨rfl, rfl, by rw [hps]; simp, ?_⟩⟩
        · simp only [Kernel.setEnv_self]
          rfl
        · by_cases hx : x = e
          · rw [hx]
            simp only [Kernel.setEnv_self]
            rfl
          · simp only [Kernel.setEnv_ne _ _ hx, Kernel.setPm_envs]
        · simp only [Kernel.setEnv_ne _ _ hx, Kernel.setPm_envs]
        · intro hnone
          have ha' : asidAlloc k.asidBitmap = some (asid, bitmap) := ha
          rw [hnone] at ha'
          cases ha'

theorem envFree_ids {k k' : Kernel} {e : EnvIx} (h : envFree k e = some k') :
    k'.mkenvidI = k.mkenvidI ∧ k'.envFreeList = e :: k.envFreeList ∧ (∀ x, (k'.envs x).envId = (k.envs x).envId) ∧
      (k'.envs e).envStatus = .free ∧ ∀ x, x ≠ e → (k'.envs x).envStatus = (k.envs x).envStatus := by
  obtain ⟨pm, -, hq⟩ := Option.bind_eq_some_iff.1 h
  obtain ⟨q, -, rfl⟩ := Option.map_eq_some_iff.1 hq
  refine ⟨rfl, rfl, fun x => ?_, ?_, fun x hx => ?_⟩
  · by_cases hx : x = e
    · rw [hx]
      simp only [Kernel.setSched_envs, Kernel.setEnv_self]
      rfl
    · simp only [Kernel.setSched_envs, Kernel.setEnv_ne _ _ hx, Kernel.setPm_envs]
  · simp only [Kernel.setSched_envs, Kernel.setEnv_self]
  · simp only [Kernel.setSched_envs, Kernel.setEnv_ne _ _ hx, Kernel.setPm_envs]

/-! ## The invariant -/

namespace Roster

/-- The ids are those of the counter's values so far, the slots that are not held are free, and the free list has only
such slots. -/
structure Inv (r : Roster) : Prop where
  counter : r.kernel.mkenvidI = BitVec.ofNat 32 r.made
  ids : ∀ id ∈ r.given, ∃ n, 0 < n ∧ n ≤ r.made ∧ n < 2 ^ 20 ∧ ∃ e : EnvIx, id.toNat = n * 2048 + e.val
  distinct : r.given.Nodup
  held : ∀ e id, r.holder e = some id → (r.kernel.envs e).envId = id
  vacant : ∀ e, r.holder e = none → (r.kernel.envs e).envStatus = .free
  listed : ∀ e ∈ r.kernel.envFreeList, r.holder e = none
  nodup : r.kernel.envFreeList.Nodup

theorem inv_fresh (r : Roster) (h : r.Fresh) : r.Inv := by
  obtain ⟨⟨b, pagesPa, pm, hk⟩, hg, hh, hm⟩ := h
  obtain ⟨⟨pp, pm₁⟩, -, hk⟩ := Option.bind_eq_some_iff.1 hk
  obtain ⟨pm₃, -, hk⟩ := Option.bind_eq_some_iff.1 hk
  obtain ⟨pm₄, -, hk⟩ := Option.map_eq_some_iff.1 hk
  refine ⟨?_, ?_, ?_, ?_, ?_, fun e _ => hh e, ?_⟩
  · rw [hm, ← hk]
    rfl
  · rw [hg]
    intro id hid
    cases hid
  · rw [hg]
    exact List.nodup_nil
  · intro e id hid
    rw [hh e] at hid
    cases hid
  · intro e _
    rw [← hk]
    rfl
  · have hlist : r.kernel.envFreeList = List.finRange nenv := by rw [← hk]
    rw [hlist]
    exact List.nodup_finRange nenv

theorem Inv.made_numbered {r : Roster} (h : r.Inv) {k' : Kernel} {e : EnvIx} (hn : Numbered r.kernel k' e) :
    r.made + (k'.mkenvidI - r.kernel.mkenvidI).toNat = r.made + 1 ∧ k'.mkenvidI = BitVec.ofNat 32 (r.made + 1) := by
  rw [hn.count, h.counter]
  refine ⟨?_, ?_⟩
  · rw [BitVec.add_comm, BitVec.add_sub_cancel]
    rfl
  · rw [BitVec.ofNat_add]
    rfl

theorem Inv.mkenvid_new {r : Roster} (h : r.Inv) (hroom : r.made + 1 < 2 ^ 20) (e : EnvIx) :
    mkenvid r.kernel.mkenvidI e ∉ r.given := by
  intro hmem
  obtain ⟨n, -, hn, -, x, hx⟩ := h.ids _ hmem
  rw [h.counter, toNat_mkenvid (by omega)] at hx
  have he : e.val < 1024 := e.isLt
  have hx' : x.val < 1024 := x.isLt
  omega

theorem Inv.allocated {r : Roster} (h : r.Inv) {parentId : Word} {res : Except Int EnvIx} {k' : Kernel}
    (hroom : r.Room (.envAlloc parentId)) (ha : Mos.envAlloc r.kernel parentId = (res, k')) :
    (r.allocated k' res).Inv := by
  rcases envAlloc_ids ha with ⟨⟨i, rfl⟩, rfl⟩ | ⟨e, rest, hf, hn, hr⟩
  · have hsame : r.allocated r.kernel (.error i) = r := by
      unfold Roster.allocated
      rw [BitVec.sub_self]
      rfl
    exact hsame.symm ▸ h
  · obtain ⟨hmade, hcount⟩ := h.made_numbered hn
    have hfree : r.holder e = none := h.listed e (by rw [hf]; simp)
    have hheld : ∀ x id, x ≠ e → r.holder x = some id → (k'.envs x).envId = id := fun x id hne hx =>
      (hn.other x hne).trans (h.held x id hx)
    have hold : ∀ id ∈ r.given, ∃ n, 0 < n ∧ n ≤ r.made + 1 ∧ n < 2 ^ 20 ∧ ∃ e : EnvIx, id.toNat =
        n * 2048 + e.val := by
      intro id hid
      obtain ⟨n, h0, hle, hlt, hx⟩ := h.ids id hid
      exact ⟨n, h0, Nat.le_succ_of_le hle, hlt, hx⟩
    rcases hr with ⟨⟨i, rfl⟩, hl⟩ | ⟨rfl, hl, hpm, hasid⟩
    · have heq : r.allocated k' (.error i) = { r with kernel := k', made := r.made + 1 } := by
        unfold Roster.allocated
        rw [hmade]
      rw [heq]
      refine ⟨hcount, hold, h.distinct, fun x id hx => ?_, fun x hx => (hn.status x).trans (h.vacant x hx),
        fun x hx => h.listed x (hl ▸ hx), hl.symm ▸ h.nodup⟩
      refine hheld x id ?_ hx
      rintro rfl
      rw [show r.holder x = some id from hx] at hfree
      cases hfree
    · have heq : r.allocated k' (.ok e) = ⟨k', (k'.envs e).envId :: r.given,
          Function.update r.holder e (some (k'.envs e).envId), r.made + 1⟩ := by
        unfold Roster.allocated
        rw [hmade]
      rw [heq]
      -- the call returns: the counter has room
      have hlt : r.made + 1 < 2 ^ 20 := by
        rcases hroom with h0 | h0 | h0 | h0
        · rw [hf] at h0
          cases h0
        · exact absurd h0 hpm
        · exact absurd h0 hasid
        · exact h0
      have hnodup : (e :: rest).Nodup := hf ▸ h.nodup
      constructor
      case counter => exact hcount
      case ids =>
        intro id hid
        rcases List.mem_cons.1 hid with rfl | hid
        · refine ⟨r.made + 1, Nat.succ_pos _, Nat.le_refl _, hlt, e, ?_⟩
          rw [hn.id, h.counter, toNat_mkenvid (by omega)]
        · exact hold id hid
      case distinct =>
        refine List.nodup_cons.2 ⟨?_, h.distinct⟩
        rw [hn.id]
        exact h.mkenvid_new hlt e
      case held =>
        intro x id hx
        by_cases hxe : x = e
        · subst hxe
          exact Option.some.inj ((Function.update_self x _ r.holder).symm.trans hx)
        · exact hheld x id hxe ((Function.update_of_ne hxe _ r.holder).symm.trans hx)
      case vacant =>
        intro x hx
        have hxe : x ≠ e := by
          rintro rfl
          cases (Function.update_self x (some _) r.holder).symm.trans hx
        exact (hn.status x).trans (h.vacant x ((Function.update_of_ne hxe _ r.holder).symm.trans hx))
      case listed =>
        intro x hx
        have hx' : x ∈ rest := hl ▸ hx
        have hxe : x ≠ e := fun he => (List.nodup_cons.1 hnodup).1 (he ▸ hx')
        exact (Function.update_of_ne hxe _ r.holder).trans (h.listed x (by rw [hf]; exact List.mem_cons_of_mem _ hx'))
      case nodup => exact hl.symm ▸ (List.nodup_cons.1 hnodup).2

theorem Inv.freed {r : Roster} (h : r.Inv) {e : EnvIx} {k' : Kernel} (he : r.holder e ≠ none)
    (hf : Mos.envFree r.kernel e = some k') :
    Inv { r with kernel := k', holder := Function.update r.holder e none } := by
  obtain ⟨hcount, hl, hid, hst, hother⟩ := envFree_ids hf
  refine ⟨hcount.trans h.counter, h.ids, h.distinct, fun x id hx => ?_, fun x hx => ?_, fun x hx => ?_, ?_⟩
  · have hxe : x ≠ e := by
      rintro rfl
      simp at hx
    rw [hid x]
    exact h.held x id (by simpa [Function.update_of_ne hxe] using hx)
  · by_cases hxe : x = e
    · rw [hxe]
      exact hst
    · rw [hother x hxe]
      exact h.vacant x (by simpa [Function.update_of_ne hxe] using hx)
  · by_cases hxe : x = e
    · rw [hxe]
      exact Function.update_self e none r.holder
    · show Function.update r.holder e none x = none
      rw [Function.update_of_ne hxe]
      rw [hl] at hx
      exact h.listed x ((List.mem_cons.1 hx).resolve_left hxe)
  · rw [hl]
    exact List.nodup_cons.2 ⟨fun hmem => he (h.listed e hmem), h.nodup⟩

theorem Inv.other {r : Roster} (h : r.Inv) {k' : Kernel} (ha : r.Allowed (.other k')) :
    Inv { r with kernel := k' } := by
  obtain ⟨hcount, hl, hk⟩ := ha
  refine ⟨hcount.trans h.counter, h.ids, h.distinct, fun x id hx => (hk x).1.trans (h.held x id hx),
    fun x hx => ((hk x).2 hx).trans (h.vacant x hx), fun x hx => h.listed x (hl ▸ hx), hl.symm ▸ h.nodup⟩

theorem Inv.step {r r' : Roster} (h : r.Inv) {op : RosterOp} (ha : r.Allowed op) (hroom : r.Room op)
    (hs : r.step op = some r') : r'.Inv := by
  cases op with
  | envAlloc parentId =>
    cases hs
    exact h.allocated hroom (Prod.eta _).symm
  | envFree e =>
    unfold Roster.step at hs
    obtain ⟨k', hf, rfl⟩ := Option.map_eq_some_iff.1 hs
    exact h.freed ha hf
  | other k' =>
    cases hs
    exact h.other ha

theorem Inv.resolves {r : Roster} (h : r.Inv) {id : Word} (hid : id ≠ 0) {cur e : EnvIx} {checkperm : Bool}
    (he : envid2env r.kernel cur id checkperm = some e) : r.holder e = some id := by
  unfold envid2env at he
  rw [if_neg hid] at he
  dsimp only at he
  split at he
  · cases he
  · rename_i hlive
    split at he
    · cases he
    · cases he
      obtain ⟨hst, hne⟩ := not_or.1 hlive
      cases hh : r.holder (envx id) with
      | none => exact absurd (h.vacant _ hh) hst
      | some id' =>
        rw [← h.held _ id' hh]
        exact congrArg some (not_not.1 hne)

theorem Inv.unconfused {r : Roster} (h : r.Inv) : r.Unconfused := by
  have hnum : ∀ id ∈ r.given, 0 < id.toNat ∧ id.toNat < 2 ^ 31 := by
    intro id hid
    obtain ⟨n, h0, -, hlt, e, he⟩ := h.ids id hid
    have hlt' : e.val < 1024 := e.isLt
    omega
  have hnz : ∀ id ∈ r.given, id ≠ 0 := by
    rintro id hid rfl
    exact absurd (hnum 0 hid).1 (by decide)
  refine ⟨hnz, fun id hid => ?_, h.distinct, fun id hid cur checkperm e he => h.resolves (hnz id hid) he⟩
  rw [BitVec.toInt_eq_toNat_of_lt (by have := (hnum id hid).2; omega)]
  have := (hnum id hid).1
  omega

/-- **Ids are never confused** along the runs in which `env_alloc` makes less than `2 ^ 20` of them. -/
theorem ids_unconfused (r : Roster) (h : Run Fresh step (fun r op => r.Allowed op ∧ r.Room op) r) : r.Unconfused :=
  (Run.invariant Inv inv_fresh (fun _ _ _ hi hok hs => hi.step hok.1 hok.2 hs) r h).unconfused

end Roster

/-! ## One environment after another

The first slot is allocated, entered as `env_create` does, and freed, over and over. -/

/-- What `env_create` does with a new environment that has no segments. -/
def entered (k : Kernel) (e : EnvIx) : Kernel :=
  (k.setEnv e (fun v => { v with envStatus := .runnable })).setSched (k.sched.insertHead e)

/-- Nothing is in the queue, the first slot is free, and `n` ids were made. -/
structure Idle (n : Nat) (k : Kernel) : Prop where
  counter : k.mkenvidI = BitVec.ofNat 32 n
  slots : ∃ rest, k.envFreeList = 0 :: rest
  frame : ∃ pp ps, k.pm.pageFreeList = pp :: ps ∧ pp < k.pm.npage ∧ k.pm.ppRef pp = 0
  npage : k.pm.npage ≤ 2 ^ 20
  asids : k.asidBitmap 0 = 0
  queue : k.sched.Links []

theorem asidAlloc_first {bitmap : Nat → Word} (h : bitmap 0 = 0) :
    asidAlloc bitmap = some (0, Function.update bitmap 0 1) := by
  have hfind : (List.range nasid).find? (fun i => !asidUsed bitmap i) = some 0 := by
    rw [List.find?_range_eq_some]
    refine ⟨?_, by decide, fun j hj => absurd hj (Nat.not_lt_zero j)⟩
    unfold asidUsed
    rw [show 0 >>> 5 = 0 from rfl, h]
    rfl
  unfold asidAlloc
  rw [hfind]
  show some (0, Function.update bitmap 0 (bitmap 0 ||| 1)) = _
  rw [h]
  rfl

theorem envFreePages_empty {p : Pmap} {pp : Nat} {asid : Word} (hlt : pp < p.npage) (hnp : p.npage ≤ 2 ^ 20)
    (hempty : ∀ i < pdx utop, p.mem pp i = 0) (href : p.ppRef pp = 1) :
    envFreePages pp asid p = some (tlbInvalidate { p.setRef pp 0 with pageFreeList := pp :: p.pageFreeList } asid
      (uvpt + BitVec.ofNat 32 (pdx uvpt) <<< pgshift)) := by
  have htables : ∀ l : List Nat, (∀ i ∈ l, i < pdx utop) → l.foldlM (envFreeTable pp asid) p = some p := by
    intro l
    induction l with
    | nil => intro _; rfl
    | cons i l ih =>
      intro hl
      have hi : envFreeTable pp asid p i = some p := by
        unfold envFreeTable
        rw [hempty i (hl i (by simp))]
        rfl
      rw [List.foldlM_cons, hi]
      exact ih (fun j hj => hl j (List.mem_cons_of_mem _ hj))
  have hpage : pa2page p (page2pa pp) = some pp := by
    unfold pa2page
    rw [ppn_page2pa (by omega), if_pos hlt]
  have hdec : pageDecref p pp = some { p.setRef pp 0 with pageFreeList := pp :: p.pageFreeList } := by
    unfold pageDecref
    rw [href, if_neg (by decide)]
    have hzero : (p.setRef pp (1 - 1)).ppRef pp = 0 := Function.update_self pp _ p.ppRef
    dsimp only
    rw [if_pos hzero]
    unfold pageFree
    rw [if_pos hzero]
    rfl
  unfold envFreePages
  rw [htables _ (fun i hi => List.mem_range.1 hi), Option.bind_some, hpage, Option.bind_some, hdec]
  rfl

/-- The first environment holds an empty directory and the first address-space id. -/
structure Taken (n : Nat) (k : Kernel) : Prop where
  counter : k.mkenvidI = BitVec.ofNat 32 n
  asid : (k.envs 0).envAsid = 0
  asids : k.asidBitmap 0 = 1
  below : (k.envs 0).envPgdir < k.pm.npage
  npage : k.pm.npage ≤ 2 ^ 20
  empty : ∀ i < pdx utop, k.pm.mem (k.envs 0).envPgdir i = 0
  ref : k.pm.ppRef (k.envs 0).envPgdir = 1

/-- The state after a successful `env_alloc`. -/
def allocatedKernel (k : Kernel) (parentId : Word) (e : EnvIx) (rest : List EnvIx) (pp : Nat) (pm₁ : Pmap) (asid : Nat)
    (bitmap : Nat → Word) : Kernel :=
  { k with
    pm := setupPgdir (pm₁.setRef pp (pm₁.ppRef pp + 1)) k.basePgdir pp
    mkenvidI := k.mkenvidI + 1
    asidBitmap := bitmap
    envFreeList := rest
    envs := Function.update k.envs e { k.envs e with
      envPgdir := pp
      envUserTlbModEntry := 0
      envRuns := 0
      envId := mkenvid k.mkenvidI e
      envAsid := BitVec.ofNat 32 asid
      envParentId := parentId
      envTf := { (k.envs e).envTf.setReg 29 (ustacktop - 8) with cp0Status := statusUser } } }

theorem envAlloc_eq {k : Kernel} {parentId : Word} {e : EnvIx} {rest : List EnvIx} {pp : Nat} {pm₁ : Pmap} {asid : Nat}
    {bitmap : Nat → Word} (hf : k.envFreeList = e :: rest) (hp : pageAlloc k.pm = some (pp, pm₁))
    (ha : asidAlloc k.asidBitmap = some (asid, bitmap)) :
    envAlloc k parentId = (.ok e, allocatedKernel k parentId e rest pp pm₁ asid bitmap) := by
  unfold envAlloc
  rw [hf]
  dsimp only
  unfold envSetupVm
  rw [hp, Option.map_some]
  dsimp only [Kernel.setEnv, Kernel.setPm]
  rw [ha]
  dsimp only
  simp only [Function.update_self, Function.update_idem]
  rfl

section allocatedKernel

variable (k : Kernel) (parentId : Word) (e : EnvIx) (rest : List EnvIx) (pp : Nat) (pm₁ : Pmap) (asid : Nat)
  (bitmap : Nat → Word)

@[simp] theorem allocatedKernel_envPgdir :
    ((allocatedKernel k parentId e rest pp pm₁ asid bitmap).envs e).envPgdir = pp := by simp [allocatedKernel]

@[simp] theorem allocatedKernel_envAsid :
    ((allocatedKernel k parentId e rest pp pm₁ asid bitmap).envs e).envAsid = BitVec.ofNat 32 asid := by
  simp [allocatedKernel]

@[simp] theorem allocatedKernel_envId :
    ((allocatedKernel k parentId e rest pp pm₁ asid bitmap).envs e).envId = mkenvid k.mkenvidI e := by
  simp [allocatedKernel]

@[simp] theorem allocatedKernel_pm :
    (allocatedKernel k parentId e rest pp pm₁ asid bitmap).pm =
      setupPgdir (pm₁.setRef pp (pm₁.ppRef pp + 1)) k.basePgdir pp := rfl

end allocatedKernel

theorem setupPgdir_empty {p : Pmap} {base pp i : Nat} (hzero : p.mem pp i = 0) (hi : i < pdx utop) :
    (setupPgdir p base pp).mem pp i = 0 := by
  have hne : i ≠ pdx uvpt := Nat.ne_of_lt (Nat.lt_of_lt_of_le hi (by decide))
  show Function.update p.mem pp _ pp i = 0
  rw [Function.update_self, if_neg hne, if_neg (fun hw => absurd hw.1 (Nat.not_le.2 hi)), hzero]

theorem envFree_eq {k : Kernel} {e : EnvIx} {pm : Pmap} {q : Tailq EnvIx}
    (hp : envFreePages (k.envs e).envPgdir (k.envs e).envAsid k.pm = some pm) (hq : k.sched.remove e = some q) :
    envFree k e = some (({ k.setPm pm with
      asidBitmap := asidFree k.asidBitmap (k.envs e).envAsid.toNat
      envFreeList := e :: k.envFreeList }.setEnv e (fun v => { v with envStatus := .free })).setSched q) := by
  unfold envFree
  rw [hp, Option.bind_some]
  exact Option.map_eq_some_iff.2 ⟨q, hq, rfl⟩

section Cycle

variable {n : Nat} {k : Kernel}

theorem Idle.alloc (h : Idle n k) : ∃ k', envAlloc k 0 = (.ok 0, k') ∧ Taken (n + 1) k' ∧
    (k'.envs 0).envId = mkenvid (BitVec.ofNat 32 n) 0 ∧ k'.sched = k.sched := by
  obtain ⟨rest, hslots⟩ := h.slots
  obtain ⟨pp, ps, hpages, hlt, href⟩ := h.frame
  obtain ⟨pm₁, hpm₁⟩ : ∃ pm₁ : Pmap, pm₁ = { k.pm with
      pageFreeList := ps, mem := Function.update k.pm.mem pp (fun _ => 0) } := ⟨_, rfl⟩
  have hp : pageAlloc k.pm = some (pp, pm₁) := by
    unfold pageAlloc
    rw [hpages, hpm₁]
  refine ⟨_, envAlloc_eq hslots hp (asidAlloc_first h.asids), ?_, ?_, rfl⟩
  · constructor
    case counter =>
      show k.mkenvidI + 1 = _
      rw [h.counter, BitVec.ofNat_add]
      rfl
    case asid => rw [allocatedKernel_envAsid]; rfl
    case asids => exact Function.update_self (0 : Nat) (1 : Word) k.asidBitmap
    case below =>
      rw [allocatedKernel_envPgdir, allocatedKernel_pm, hpm₁]
      exact hlt
    case npage =>
      rw [allocatedKernel_pm, hpm₁]
      exact h.npage
    case empty =>
      intro i hi
      rw [allocatedKernel_envPgdir, allocatedKernel_pm]
      refine setupPgdir_empty ?_ hi
      show pm₁.mem pp i = 0
      rw [hpm₁]
      exact congrFun (Function.update_self pp _ k.pm.mem) i
    case ref =>
      rw [allocatedKernel_envPgdir, allocatedKernel_pm]
      show Function.update pm₁.ppRef pp (pm₁.ppRef pp + 1) pp = 1
      rw [Function.update_self, hpm₁]
      show k.pm.ppRef pp + 1 = 1
      rw [href]
      rfl
  · rw [allocatedKernel_envId, h.counter]

theorem Taken.entered (h : Taken n k) : Taken n (entered k 0) := by
  have henv : (Mos.entered k 0).envs 0 = { k.envs 0 with envStatus := .runnable } := by simp [Mos.entered]
  constructor
  case counter => exact h.counter
  case asid => rw [henv]; exact h.asid
  case asids => exact h.asids
  case below => rw [henv]; exact h.below
  case npage => exact h.npage
  case empty => rw [henv]; exact h.empty
  case ref => rw [henv]; exact h.ref

theorem Taken.free (h : Taken n k) (hq : k.sched.Links [0]) : ∃ k', envFree k 0 = some k' ∧ Idle n k' := by
  obtain ⟨q, hrem, hlinks⟩ := Tailq.remove_links hq (List.mem_singleton_self 0)
  have hpages := @envFreePages_empty k.pm (k.envs 0).envPgdir (k.envs 0).envAsid h.below h.npage h.empty h.ref
  refine ⟨_, envFree_eq hpages hrem, ?_⟩
  constructor
  case counter => exact h.counter
  case slots => exact ⟨_, rfl⟩
  case frame => exact ⟨_, _, rfl, h.below, Function.update_self _ _ _⟩
  case npage => exact h.npage
  case asids =>
    show asidFree k.asidBitmap (k.envs 0).envAsid.toNat 0 = 0
    rw [h.asid]
    show Function.update k.asidBitmap 0 (k.asidBitmap 0 &&& ~~~(1 : Word)) 0 = 0
    rw [Function.update_self, h.asids]
    rfl
  case queue => exact hlinks

end Cycle

namespace Roster

variable {n : Nat} {r : Roster}

theorem step_alloc {parentId : Word} {res : Except Int EnvIx} {k' : Kernel}
    (h : Mos.envAlloc r.kernel parentId = (res, k')) :
    r.step (.envAlloc parentId) = some (r.allocated k' res) := by
  show some (r.allocated (Mos.envAlloc r.kernel parentId).2 (Mos.envAlloc r.kernel parentId).1) = _
  rw [h]

theorem step_free {e : EnvIx} {k' : Kernel} (h : Mos.envFree r.kernel e = some k') :
    r.step (.envFree e) = some { r with kernel := k', holder := Function.update r.holder e none } := by
  simp only [Roster.step, h, Option.map_some]

theorem idle_next (hr : Run Fresh step Allowed r) (hmade : r.made = n) (h : Idle n r.kernel) :
    ∃ r', Run Fresh step Allowed r' ∧ r'.made = n + 1 ∧ Idle (n + 1) r'.kernel := by
  obtain ⟨k₁, halloc, htaken, -, hsched⟩ := h.alloc
  have hcount : (k₁.mkenvidI - r.kernel.mkenvidI).toNat = 1 := by
    rw [htaken.counter, h.counter, BitVec.ofNat_add, BitVec.add_comm, BitVec.add_sub_cancel]
    rfl
  have hlinks : (entered k₁ 0).sched.Links [0] := by
    show (k₁.sched.insertHead 0).Links [0]
    rw [hsched]
    exact Tailq.insertHead_links h.queue (by simp)
  obtain ⟨k₃, hfree, hidle⟩ := htaken.entered.free hlinks
  have hr₁ : Run Fresh step Allowed (r.allocated k₁ (.ok 0)) :=
    .next r (.envAlloc 0) _ hr (show Allowed r (.envAlloc 0) from trivial) (step_alloc halloc)
  have hheld : (r.allocated k₁ (.ok 0)).holder 0 = some (k₁.envs 0).envId := by simp [Roster.allocated]
  have hother : (r.allocated k₁ (.ok 0)).Allowed (.other (entered k₁ 0)) := by
    refine ⟨rfl, rfl, fun e => ?_⟩
    by_cases he : e = 0
    · rw [he, hheld]
      exact ⟨by simp [entered, Roster.allocated], fun hnone => by cases hnone⟩
    · have hsame : (entered k₁ 0).envs e = k₁.envs e := by simp [entered, Kernel.setEnv_ne k₁ _ he]
      rw [hsame]
      exact ⟨rfl, fun _ => rfl⟩
  have hr₂ : Run Fresh step Allowed { r.allocated k₁ (.ok 0) with kernel := entered k₁ 0 } :=
    .next _ (.other (entered k₁ 0)) _ hr₁ hother rfl
  have hlive : Allowed { r.allocated k₁ (.ok 0) with kernel := entered k₁ 0 } (.envFree 0) := by
    show (r.allocated k₁ (.ok 0)).holder 0 ≠ none
    rw [hheld]
    exact Option.some_ne_none _
  have hone : (r.allocated k₁ (.ok 0)).made = n + 1 := by simp [Roster.allocated, hcount, hmade]
  have hs := step_free (r := { r.allocated k₁ (.ok 0) with kernel := entered k₁ 0 }) hfree
  exact ⟨_, .next _ _ _ hr₂ hlive hs, hone, hidle⟩

/-- A check that implies `Idle 0`. -/
def idleB (k : Kernel) : Bool :=
  decide (k.mkenvidI = 0 ∧ k.envFreeList.head? = some 0 ∧ k.pm.npage ≤ 2 ^ 20 ∧ k.asidBitmap 0 = 0 ∧
    k.sched.first = none ∧ k.sched.last = some .head) &&
  k.pm.pageFreeList.head?.any (fun pp => decide (pp < k.pm.npage ∧ k.pm.ppRef pp = 0))

theorem idle_of_idleB {k : Kernel} (h : idleB k = true) : Idle 0 k := by
  unfold idleB at h
  rw [Bool.and_eq_true, decide_eq_true_eq] at h
  obtain ⟨⟨hcount, hslots, hnp, hasid, hfirst, hlast⟩, hpage⟩ := h
  obtain ⟨pp, hpp, hok⟩ := (Option.any_eq_true _ _).1 hpage
  obtain ⟨hlt, href⟩ := of_decide_eq_true hok
  obtain ⟨rest, hrest⟩ := List.head?_eq_some_iff.1 hslots
  obtain ⟨ps, hps⟩ := List.head?_eq_some_iff.1 hpp
  exact ⟨hcount, ⟨rest, hrest⟩, ⟨pp, ps, hps, hlt, href⟩, hnp, hasid, List.nodup_nil, hfirst, hlast⟩

theorem idle_fresh : ∃ r, Fresh r ∧ Idle 0 r.kernel := by
  have h : ((mipsVmInit smallBoard).bind (fun q => envInit smallBoard q.1 q.2)).any idleB = true := by
    decide +kernel
  obtain ⟨k, hk, hidle⟩ := (Option.any_eq_true _ _).1 h
  obtain ⟨⟨pages, pm⟩, -, hk⟩ := Option.bind_eq_some_iff.1 hk
  exact ⟨⟨k, [], fun _ => none, 0⟩, ⟨⟨smallBoard, pages, pm, hk⟩, rfl, fun _ => rfl, rfl⟩, idle_of_idleB hidle⟩

theorem idle_run : ∀ n, ∃ r, Run Fresh step Allowed r ∧ r.made = n ∧ Idle n r.kernel
  | 0 => by
    obtain ⟨r, hr, hidle⟩ := idle_fresh
    exact ⟨r, .start r hr, hr.2.2.2, hidle⟩
  | n + 1 => by
    obtain ⟨r, hr, hmade, hidle⟩ := idle_run n
    exact idle_next hr hmade hidle

/-- The first id. -/
theorem ids_unconfused_first : ∃ r : Roster, r.given = [2048] ∧ r.Unconfused := by
  obtain ⟨r, hr, hidle⟩ := idle_fresh
  obtain ⟨k₁, halloc, -, hid, -⟩ := hidle.alloc
  have hroom : r.Room (.envAlloc 0) := .inr (.inr (.inr (by rw [hr.2.2.2]; decide)))
  refine ⟨r.allocated k₁ (.ok 0), ?_, ids_unconfused _ (.next r (.envAlloc 0) _ (.start r hr)
    ⟨show Allowed r (.envAlloc 0) from trivial, hroom⟩ (step_alloc halloc))⟩
  show (k₁.envs 0).envId :: r.given = [2048]
  rw [hid, hr.2.1]
  rfl

/-- **The `2 ^ 20`th id is negative.** -/
theorem ids_unconfused_fails : ¬∀ r, Run Fresh step Allowed r → r.Unconfused := by
  intro hall
  obtain ⟨r, hr, -, hidle⟩ := idle_run (2 ^ 20 - 1)
  obtain ⟨k₁, halloc, -, hid, -⟩ := hidle.alloc
  have hr₁ : Run Fresh step Allowed (r.allocated k₁ (.ok 0)) :=
    .next r (.envAlloc 0) _ hr (show Allowed r (.envAlloc 0) from trivial) (step_alloc halloc)
  have hpos := (hall _ hr₁).positive (k₁.envs 0).envId (List.mem_cons_self ..)
  rw [hid] at hpos
  exact absurd hpos (by decide)

end Roster

end Mos
