import Mos.Copying
/-!
# Marking — the page tables behind the loop of `fork`

`duppage` says that a page that is writable and private loses `PTE_D` and gets `PTE_COW` in both tables, and that every
other page is mapped in the child as in the parent.  Its mask is `!PTE_D`, so that of the other flags those are left
that `page_insert` gives to every page.
-/
namespace Mos
namespace Forking

/-! ## What is meant -/

/-- The page is writable, not shared and not copied yet. -/
def isPrivate (w : Word) : Bool := has w pteD && !has w pteLibrary && !has w pteCow

/-- **The flags behind `fork`**, as `duppage` says. -/
def marked (w : Word) : Word := if isPrivate w then w &&& ~~~pteD ||| pteCow else w

/-- `fork`, to the end of its loop. -/
def Machine.forkLoop (s : Machine) (p : Nat) : Machine :=
  (List.range (vpn ustacktop)).foldl (fun t i => t.forkNext Machine.duppage p s.nprocs i) (s.exofork p)

/-- **Both tables map what the parent mapped**, with these flags, and the child nothing else. -/
structure Marked (s t : Machine) (p child : Nat) : Prop where
  parent : ∀ v < vpn ustacktop, ∀ m, s.page p v = some m → t.page p v = some ⟨m.pp, marked m.perm⟩
  child : ∀ v < vpn ustacktop, t.page child v = (s.page p v).map fun m => ⟨m.pp, marked m.perm⟩

/-- The flags that `page_insert` gives to every page. -/
def pteMapped : Word := pteCCacheable ||| pteV

/-- **Flags that come through `fork`**: those of `page_insert`, and beside `PTE_D` nothing else if the page is
writable and private. -/
structure Plain (w : Word) : Prop where
  mapped : w &&& pteMapped = pteMapped
  alone : isPrivate w = true → w &&& ~~~(pteD ||| pteMapped) = 0

/-- Every page of the parent is where `sys_mem_map` maps one, and has such flags. -/
def AllPlain (s : Machine) (p : Nat) : Prop :=
  ∀ v < vpn ustacktop, ∀ m, s.page p v = some m → vpn utemp ≤ v ∧ Plain m.perm

/-! ## Flags -/

/-- What `page_insert` makes of the flags of `duppage`, in the child. -/
def childPerm (w : Word) : Word := (if isPrivate w then w &&& 0 ||| pteCow else w) ||| pteCCacheable ||| pteV

/-- **A mask** that leaves a flag `d` out and puts `b` in, against one that leaves out all, where the flags `k` are
always put in. -/
theorem mask_eq_iff {w d b k : Word} (hkd : k &&& d = 0) (hkb : k &&& b = 0) (hbd : b &&& d = 0) (hwb : w &&& b = 0) :
    w &&& 0 ||| b ||| k = w &&& ~~~d ||| b ↔ w &&& k = k ∧ w &&& ~~~(d ||| k) = 0 := by
  -- the flags are apart in every bit
  have hbits : ∀ (i : Nat) (hi : i < 32), (k[i] && d[i]) = false ∧ (k[i] && b[i]) = false ∧ (b[i] && d[i]) = false ∧
      (w[i] && b[i]) = false := by
    intro i hi
    refine ⟨?_, ?_, ?_, ?_⟩
    · simpa using congrArg (·[i]) hkd
    · simpa using congrArg (·[i]) hkb
    · simpa using congrArg (·[i]) hbd
    · simpa using congrArg (·[i]) hwb
  constructor
  · intro h
    have hbit : ∀ (i : Nat) (hi : i < 32), (b[i] || k[i]) = (w[i] && !d[i] || b[i]) := by
      intro i hi
      simpa using congrArg (·[i]) h
    constructor
    · ext i hi
      have := hbit i hi
      have := hbits i hi
      simp only [BitVec.getElem_and]
      grind
    · ext i hi
      have := hbit i hi
      have := hbits i hi
      simp only [BitVec.getElem_and, BitVec.getElem_not, BitVec.getElem_or]
      grind
  · rintro ⟨hk, hrest⟩
    ext i hi
    have hki : (w[i] && k[i]) = k[i] := by
      have h := congrArg (·[i]) hk
      simpa only [BitVec.getElem_and] using h
    have hri : (w[i] && !(d[i] || k[i])) = false := by simpa using congrArg (·[i]) hrest
    have := hbits i hi
    simp only [BitVec.getElem_and, BitVec.getElem_not, BitVec.getElem_or]
    grind

theorem or_eq_left_iff {w k : Word} : w ||| k = w ↔ w &&& k = k := by
  constructor
  · intro h
    rw [← h]
    ext i hi
    simp only [BitVec.getElem_and, BitVec.getElem_or]
    grind
  · intro h
    rw [← h]
    ext i hi
    simp only [BitVec.getElem_and, BitVec.getElem_or]
    grind

/-- **The flags of the child are those that are meant exactly when they are plain.** -/
theorem childPerm_eq_iff (w : Word) : childPerm w = marked w ↔ Plain w := by
  have hassoc : childPerm w = (if isPrivate w then w &&& 0 ||| pteCow else w) ||| pteMapped := BitVec.or_assoc _ _ _
  rw [hassoc]
  unfold marked
  by_cases hp : isPrivate w = true
  · have hcow : w &&& pteCow = 0 := by
      unfold isPrivate has at hp
      simpa using (Bool.and_eq_true_iff.1 hp).2
    rw [if_pos hp, if_pos hp, mask_eq_iff (by decide) (by decide) (by decide) hcow]
    exact ⟨fun h => ⟨h.1, fun _ => h.2⟩, fun h => ⟨h.mapped, h.alone hp⟩⟩
  · rw [if_neg hp, if_neg hp, or_eq_left_iff]
    exact ⟨fun h => ⟨h, fun hc => absurd hc hp⟩, Plain.mapped⟩

/-! ## The loop -/

namespace Machine

variable {s t : Machine} {p c v : Nat} {m : Mapping}

/-- The page of the parent behind its turn. -/
def parentPage (m : Mapping) : Mapping := if isPrivate m.perm then ⟨m.pp, childPerm m.perm⟩ else m

theorem duppage_legal (hne : p ≠ c) (hl : legal v = true) (hm : s.page p v = some m) :
    s.duppage p c v = if isPrivate m.perm then
        (s.setPage c v (some ⟨m.pp, childPerm m.perm⟩)).setPage p v (some ⟨m.pp, childPerm m.perm⟩)
      else s.setPage c v (some ⟨m.pp, childPerm m.perm⟩) := by
  have hmap : ∀ (t : Machine) (q : Nat) (perm : Word), t.page p v = some m →
      t.memMap p v q v perm = t.setPage q v (some ⟨m.pp, perm ||| pteCCacheable ||| pteV⟩) := by
    intro t q perm ht
    unfold memMap
    rw [hl, ht]
    rfl
  unfold duppage
  rw [hm]
  show (if isPrivate m.perm = true then (s.memMap p v c v (m.perm &&& 0 ||| pteCow)).memMap p v p v
    (m.perm &&& 0 ||| pteCow)
    else s.memMap p v c v m.perm) = _
  by_cases hp : isPrivate m.perm = true
  · have hchild : childPerm m.perm = (m.perm &&& 0 ||| pteCow) ||| pteCCacheable ||| pteV := by
      unfold childPerm
      rw [if_pos hp]
    have hstill : (s.setPage c v (some ⟨m.pp, childPerm m.perm⟩)).page p v = some m := by
      rw [page_setPage, if_neg fun hc => hne hc.1]
      exact hm
    rw [if_pos hp, if_pos hp, hchild, hmap s c _ hm, hmap _ p _ (hchild ▸ hstill)]
  · have hchild : childPerm m.perm = m.perm ||| pteCCacheable ||| pteV := by
      unfold childPerm
      rw [if_neg hp]
    rw [if_neg hp, if_neg hp, hmap s c _ hm, hchild]

theorem duppage_illegal (hl : legal v = false) : s.duppage p c v = s := by
  have hmap : ∀ (t : Machine) (q : Nat) (perm : Word), t.memMap p v q v perm = t := by
    intro t q perm
    unfold memMap
    rw [hl]
    rfl
  unfold duppage
  cases s.page p v with
  | none => rfl
  | some m =>
    dsimp only
    rw [hmap, hmap, hmap]
    exact ite_self _

theorem isSome_setProc {f : Proc → Proc} (q : Nat) : ((s.setProc p f).procs q).isSome = (s.procs q).isSome := by
  show (Function.update s.procs p ((s.procs p).map f) q).isSome = _
  by_cases hq : q = p
  · subst hq
    rw [Function.update_self, Option.isSome_map]
  · rw [Function.update_of_ne hq]

theorem isSome_duppage (hne : p ≠ c) (q : Nat) : ((s.duppage p c v).procs q).isSome = (s.procs q).isSome := by
  cases hm : s.page p v with
  | none =>
    unfold duppage
    rw [hm]
  | some m =>
    by_cases hl : legal v = true
    · rw [duppage_legal hne hl hm]
      split
      · exact (isSome_setProc q).trans (isSome_setProc q)
      · exact isSome_setProc q
    · rw [duppage_illegal (Bool.eq_false_iff.2 hl)]

theorem duppage_apart (hne : p ≠ c) {u : Nat} (hu : u ≠ v) (q : Nat) : (s.duppage p c v).page q u = s.page q u := by
  cases hm : s.page p v with
  | none =>
    unfold duppage
    rw [hm]
  | some m =>
    have hset : ∀ (t : Machine) (a : Nat) (x : Option Mapping), (t.setPage a v x).page q u = t.page q u := by
      intro t a x
      rw [page_setPage, if_neg fun hc => hu hc.2]
    by_cases hl : legal v = true
    · rw [duppage_legal hne hl hm]
      split
      · rw [hset, hset]
      · rw [hset]
    · rw [duppage_illegal (Bool.eq_false_iff.2 hl)]

theorem page_set {x : Option Mapping} (hp : (s.procs p).isSome) : (s.setPage p v x).page p v = x := by
  obtain ⟨pr, hpr⟩ := Option.isSome_iff_exists.1 hp
  rw [page_setPage, if_pos ⟨rfl, rfl⟩, hpr]
  rfl

theorem duppage_here (hne : p ≠ c) (hl : legal v = true) (hm : s.page p v = some m) (hc : (s.procs c).isSome) :
    (s.duppage p c v).page p v = some (parentPage m) ∧ (s.duppage p c v).page c v = some ⟨m.pp, childPerm m.perm⟩ := by
  obtain ⟨pr, hpr, -⟩ := page_procs hm
  have hproc : (s.procs p).isSome = true := Option.isSome_iff_exists.2 ⟨pr, hpr⟩
  rw [duppage_legal hne hl hm]
  unfold parentPage
  by_cases hp : isPrivate m.perm = true
  · rw [if_pos hp, if_pos hp]
    constructor
    · exact page_set ((isSome_setProc p).trans hproc)
    · rw [page_setPage, if_neg fun hc => hne hc.1.symm]
      exact page_set hc
  · rw [if_neg hp, if_neg hp]
    constructor
    · rw [page_setPage, if_neg fun hc => hne hc.1]
      exact hm
    · exact page_set hc

/-- Where the loop is at page `n`. -/
structure Turned (s t : Machine) (p c n : Nat) : Prop where
  parent : ∀ v, t.page p v = if v < n ∧ legal v = true then (s.page p v).map parentPage else s.page p v
  child : ∀ v, t.page c v = if v < n ∧ legal v = true then (s.page p v).map fun m => ⟨m.pp, childPerm m.perm⟩ else none
  isProc : (t.procs c).isSome = true

/-- **One turn.** -/
theorem Turned.step {n : Nat} (h : Turned s t p c n) (hne : p ≠ c) (hn : n < vpn ustacktop) :
    Turned s (t.forkNext duppage p c n) p c (n + 1) := by
  have hpages : ∀ q v, (t.forkNext duppage p c n).page q v = (if (t.page p n).isSome then t.duppage p c n
    else t).page q v := by
    intro q v
    unfold forkNext
    rw [if_pos hn]
    refine page_setProc ?_ q v
    exact fun _ => rfl
  have hprocs : ((t.forkNext duppage p c n).procs c).isSome = true := by
    unfold forkNext
    rw [if_pos hn, isSome_setProc]
    split
    · rw [isSome_duppage hne]
      exact h.isProc
    · exact h.isProc
  -- the other pages are as they were
  have hother : ∀ q v, v ≠ n → (t.forkNext duppage p c n).page q v = t.page q v := by
    intro q v hv
    rw [hpages]
    split
    · exact duppage_apart hne hv q
    · rfl
  have hcond : ∀ v, v ≠ n → (v < n + 1 ∧ legal v = true ↔ v < n ∧ legal v = true) := by
    intro v hv
    have : v < n + 1 ↔ v < n := by omega
    rw [this]
  have hpn : t.page p n = s.page p n := by
    rw [h.parent, if_neg fun hc => Nat.lt_irrefl n hc.1]
  have hcn : t.page c n = none := by
    rw [h.child, if_neg fun hc => Nat.lt_irrefl n hc.1]
  -- page `n`
  have hhere : (t.forkNext duppage p c n).page p n =
      (if legal n = true then (s.page p n).map parentPage else s.page p n) ∧
      (t.forkNext duppage p c n).page c n = if legal n = true then (s.page p n).map
      fun m => ⟨m.pp, childPerm m.perm⟩ else none := by
    rw [hpages, hpages, hpn]
    cases hm : s.page p n with
    | none =>
      rw [Option.isSome_none, if_neg Bool.false_ne_true, hpn, hcn, hm]
      exact ⟨(ite_self _).symm, (ite_self _).symm⟩
    | some m =>
      rw [Option.isSome_some, if_pos rfl]
      by_cases hl : legal n = true
      · rw [if_pos hl, if_pos hl]
        exact duppage_here hne hl (hpn.trans hm) h.isProc
      · rw [if_neg hl, if_neg hl, duppage_illegal (Bool.eq_false_iff.2 hl)]
        exact ⟨hpn.trans hm, hcn⟩
  refine ⟨fun v => ?_, fun v => ?_, hprocs⟩
  · by_cases hv : v = n
    · subst hv
      rw [hhere.1]
      simp
    · rw [hother p v hv, h.parent]
      simp only [hcond v hv]
  · by_cases hv : v = n
    · subst hv
      rw [hhere.2]
      simp
    · rw [hother c v hv, h.child]
      simp only [hcond v hv]

/-- **The loop**, to page `n`. -/
theorem Turned.run (hne : p ≠ c) (h : Turned s t p c 0) :
    ∀ n ≤ vpn ustacktop, Turned s ((List.range n).foldl (fun t i => t.forkNext duppage p c i) t) p c n
  | 0, _ => h
  | n + 1, hn => by
    rw [List.range_succ, List.foldl_append]
    exact (Turned.run hne h n (Nat.le_of_succ_le hn)).step hne hn

theorem turned_exofork (hne : p ≠ s.nprocs) : Turned s (s.exofork p) p s.nprocs 0 := by
  have hpages : ∀ q v, (s.exofork p).page q v = if q = s.nprocs then none else s.page q v := by
    intro q v
    unfold exofork
    refine (page_setProc ?_ q v).trans ?_
    · exact fun _ => rfl
    unfold page
    by_cases hq : q = s.nprocs
    · rw [if_pos hq]
      subst hq
      dsimp only
      rw [Function.update_self]
      rfl
    · rw [if_neg hq]
      dsimp only
      rw [Function.update_of_ne hq]
  refine ⟨fun v => ?_, fun v => ?_, ?_⟩
  · rw [hpages, if_neg hne, if_neg fun hc => absurd hc.1 (Nat.not_lt_zero v)]
  · rw [hpages, if_pos rfl, if_neg fun hc => absurd hc.1 (Nat.not_lt_zero v)]
  · unfold exofork
    rw [isSome_setProc]
    dsimp only
    rw [Function.update_self]
    rfl

end Machine

/-! ## The flags behind the loop -/

section

variable {s : Machine} {p : Nat}

theorem turned_forkLoop (hne : p ≠ s.nprocs) : Machine.Turned s (s.forkLoop p) p s.nprocs (vpn ustacktop) :=
  Machine.Turned.run hne (Machine.turned_exofork hne) _ (Nat.le_refl _)

theorem ne_nprocs (hp : (s.procs p).isSome) (hfree : s.procs s.nprocs = none) : p ≠ s.nprocs := by
  intro he
  rw [he, hfree] at hp
  cases hp

/-- A page that is mapped in the child as it should be has flags that come through. -/
theorem plain_of_marked (hne : p ≠ s.nprocs) (hmarked : Marked s (s.forkLoop p) p s.nprocs) : AllPlain s p := by
  intro v hv m hm
  have hchild := hmarked.child v hv
  rw [(turned_forkLoop hne).child, hm] at hchild
  by_cases hl : Machine.legal v = true
  · rw [if_pos ⟨hv, hl⟩, Option.map_some, Option.map_some, Option.some.injEq, Mapping.mk.injEq] at hchild
    exact ⟨(of_decide_eq_true hl).1, (childPerm_eq_iff _).1 hchild.2⟩
  · rw [if_neg fun hc => hl hc.2] at hchild
    cases hchild

theorem marked_of_plain (hne : p ≠ s.nprocs) (hplain : AllPlain s p) : Marked s (s.forkLoop p) p s.nprocs := by
  have hturned := turned_forkLoop (s := s) hne
  have hlegal : ∀ v < vpn ustacktop, ∀ m, s.page p v = some m → Machine.legal v = true := by
    intro v hv m hm
    have hlow : vpn ustacktop ≤ vpn utop := by decide
    exact decide_eq_true ⟨(hplain v hv m hm).1, Nat.lt_of_lt_of_le hv hlow⟩
  have hperm : ∀ v < vpn ustacktop, ∀ m, s.page p v = some m → childPerm m.perm = marked m.perm := by
    intro v hv m hm
    exact (childPerm_eq_iff _).2 (hplain v hv m hm).2
  refine ⟨fun v hv m hm => ?_, fun v hv => ?_⟩
  · rw [hturned.parent, if_pos ⟨hv, hlegal v hv m hm⟩, hm, Option.map_some]
    unfold Machine.parentPage
    by_cases hpr : isPrivate m.perm = true
    · rw [if_pos hpr, hperm v hv m hm]
    · unfold marked
      rw [if_neg hpr, if_neg hpr]
  · rw [hturned.child]
    cases hm : s.page p v with
    | none => exact ite_self _
    | some m => rw [if_pos ⟨hv, hlegal v hv m hm⟩, Option.map_some, Option.map_some, hperm v hv m hm]

/-- **`fork` marks the pages as `duppage` says exactly when the flags of all of them come through.** -/
theorem fork_marks_iff (hp : (s.procs p).isSome) (hfree : s.procs s.nprocs = none) :
    Marked s (s.forkLoop p) p s.nprocs ↔ AllPlain s p :=
  ⟨plain_of_marked (ne_nprocs hp hfree), marked_of_plain (ne_nprocs hp hfree)⟩

end

/-- One process with one page, at `0x400000`. -/
def onePage (perm : Word) : Machine :=
  let pr : Proc := { pages := fun v => if v = 0x400 then some ⟨0, perm⟩ else none, fork := none, runnable := true }
  { procs := fun p => if p = 0 then some pr else none, nprocs := 1, mem := fun _ _ => 0, npage := 1 }

theorem onePage_page (perm : Word) (v : Nat) : (onePage perm).page 0 v = if v = 0x400 then some ⟨0, perm⟩ else none :=
  rfl

/-- A page as `sys_mem_alloc` makes it for `PTE_D`. -/
theorem fork_marks_writable :
    Marked (onePage (pteD ||| pteMapped)) ((onePage (pteD ||| pteMapped)).forkLoop 0) 0 1 := by
  refine (fork_marks_iff (s := onePage (pteD ||| pteMapped)) rfl rfl).2 ?_
  intro v _ m hm
  rw [onePage_page] at hm
  by_cases hv : v = 0x400
  · rw [if_pos hv] at hm
    obtain rfl := Option.some.inj hm
    subst hv
    exact ⟨by decide, by decide, by decide⟩
  · rw [if_neg hv] at hm
    cases hm

/-- **A writable page with `PTE_G`** loses it. -/
theorem fork_marks_fails : ¬Marked (onePage (pteD ||| pteG ||| pteMapped))
    ((onePage (pteD ||| pteG ||| pteMapped)).forkLoop 0) 0 1 := by
  intro hmarked
  have hplain := plain_of_marked (s := onePage (pteD ||| pteG ||| pteMapped)) (by decide) hmarked
  exact absurd ((hplain 0x400 (by decide) _ rfl).2.alone (by decide)) (by decide)

end Forking
end Mos
