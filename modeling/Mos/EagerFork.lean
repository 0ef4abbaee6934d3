import Mos.Copying
/-!
# EagerFork — `fork` against eager copying

Every run of processes that `fork` by `duppage` reads what the same run reads when `fork` copies every page at once,
and a write is seen through the pages shared with `PTE_LIBRARY` alone.  It starts from one process, whose pages must
leave `duppage` and `cow_entry` room: no page may be both writable and copy-on-write, for `duppage` then lets the
child write to the frame of its parent.
-/
namespace Mos
namespace Forking

namespace Duplicates

variable {dup : Machine → Nat → Nat → Nat → Machine} {s : Machine} {p c i : Nat}

theorem exofork (h : Apart s) (p : Nat) : (s.exofork p).view = s.view.exofork p ∧ Apart (s.exofork p) := by
  let child : Proc := { pages := fun _ => none, fork := none, runnable := false }
  let t : Machine := { s with procs := Function.update s.procs s.nprocs (some child), nprocs := s.nprocs + 1 }
  constructor
  · have ht : t.view = { s.view with
        procs := Function.update s.view.procs s.nprocs (some (s.procView child)), nprocs := s.nprocs + 1 } := by
      refine View.ext (funext fun q => ?_) rfl
      show (Function.update s.procs s.nprocs (some child) q).map s.procView =
        Function.update s.view.procs s.nprocs (some (s.procView child)) q
      by_cases hq : q = s.nprocs
      · rw [hq, Function.update_self, Function.update_self]
        rfl
      · rw [Function.update_of_ne hq, Function.update_of_ne hq]
        rfl
    have hnew : s.procView child = { pages := fun _ => none, fork := none, runnable := false } :=
      ViewProc.ext (funext fun u => ite_self none) rfl rfl
    show (t.setProc p _).view = _
    rw [Machine.view_setProc (g := fun pr => { pr with fork := some (s.nprocs, 0) }) (fun _ => rfl), ht, hnew]
    rfl
  · refine h.mono (Nat.le_refl _) fun q u m hm => ?_
    have hpage : (s.exofork p).page q u = t.page q u :=
      Machine.page_setProc (s := t) (f := fun pr => { pr with fork := some (s.nprocs, 0) }) (fun _ => rfl) q u
    have hm' : t.page q u = some m := hpage.symm.trans hm
    unfold Machine.page at hm' ⊢
    by_cases hq : q = s.nprocs
    · have hnew : t.procs q = some child := by
        rw [hq]
        exact Function.update_self _ _ _
      rw [hnew] at hm'
      cases hm'
    · have hsame : t.procs q = s.procs q := Function.update_of_ne hq _ _
      rwa [hsame] at hm'

theorem setProc {f : Proc → Proc} (h : Apart s) (hf : ∀ pr, (f pr).pages = pr.pages) : Apart (s.setProc p f) :=
  h.mono (Nat.le_refl _) fun q u m hm => by rwa [Machine.page_setProc hf] at hm

/-- **A turn of the loop of `fork`.** -/
theorem forkNext (hd : Duplicates dup) (h : Apart s) :
    (s.forkNext dup p c i).view = s.view.forkNext p c i ∧ Apart (s.forkNext dup p c i) := by
  unfold Machine.forkNext View.forkNext
  split
  · rename_i hi
    have hturn : (if (s.page p i).isSome then dup s p c i else s).view = s.view.give p c i ∧
        Apart (if (s.page p i).isSome then dup s p c i else s) := by
      unfold View.give
      rw [Machine.view_page hi]
      cases hm : s.page p i with
      | none => exact ⟨rfl, h⟩
      | some m => exact ⟨hd.view s p c i m h hi hm, hd.apart s p c i m h hi hm⟩
    refine ⟨?_, setProc hturn.2 fun _ => rfl⟩
    rw [← hturn.1]
    exact Machine.view_setProc (fun _ => rfl) p
  · refine ⟨?_, setProc (setProc h fun _ => rfl) fun _ => rfl⟩
    rw [Machine.view_setProc (g := fun pr => { pr with fork := none }) (fun _ => rfl),
      Machine.view_setProc (g := fun pr => { pr with runnable := true }) (fun _ => rfl)]

/-- **Every step is the step of the view.** -/
theorem step (hd : Duplicates dup) (h : Apart s) (a : Act) :
    (s.step dup a).map (fun r => (r.1.view, r.2)) = s.view.step a ∧ ∀ s' w, s.step dup a = some (s', w) → Apart s' := by
  have hprocs : ∀ q, s.view.procs q = (s.procs q).map s.procView := fun _ => rfl
  cases a with
  | read p v o =>
    simp only [Machine.step, View.step, hprocs]
    cases hp : s.procs p with
    | none => exact ⟨rfl, fun _ _ hs => by cases hs⟩
    | some pr =>
      simp only [Option.map_some, Option.bind_some, Machine.procView]
      split
      · rename_i hcond
        simp only [Bool.and_eq_true, decide_eq_true_eq] at hcond
        rw [if_pos hcond.2.1]
        cases hm : pr.pages v with
        | none => exact ⟨rfl, fun _ _ hs => by cases hs⟩
        | some m =>
          refine ⟨rfl, fun s' w hs => ?_⟩
          cases hs
          exact h
      · exact ⟨rfl, fun _ _ hs => by cases hs⟩
  | write p v o w =>
    simp only [Machine.step, View.step, hprocs]
    cases hp : s.procs p with
    | none => exact ⟨rfl, fun _ _ hs => by cases hs⟩
    | some pr =>
      simp only [Option.map_some, Option.bind_some, Machine.procView]
      split
      · rename_i hcond
        simp only [Bool.and_eq_true, decide_eq_true_eq] at hcond
        obtain ⟨hview, hapart⟩ := h.write hcond.2.1 p o w
        rw [← hview]
        refine ⟨by rw [Option.map_map, Option.map_map]; rfl, fun s' w' hs => ?_⟩
        obtain ⟨s₁, hs₁, heq⟩ := Option.map_eq_some_iff.1 hs
        cases heq
        exact hapart s' hs₁
      · exact ⟨rfl, fun _ _ hs => by cases hs⟩
  | fork p =>
    simp only [Machine.step, View.step, hprocs]
    cases hp : s.procs p with
    | none => exact ⟨rfl, fun _ _ hs => by cases hs⟩
    | some pr =>
      simp only [Option.map_some, Option.bind_some, Machine.procView]
      split
      · obtain ⟨hview, hapart⟩ := exofork h p
        refine ⟨by rw [Option.map_some, hview], fun s' w hs => ?_⟩
        cases hs
        exact hapart
      · exact ⟨rfl, fun _ _ hs => by cases hs⟩
  | next p =>
    simp only [Machine.step, View.step, hprocs]
    cases hp : s.procs p with
    | none => exact ⟨rfl, fun _ _ hs => by cases hs⟩
    | some pr =>
      simp only [Option.map_some, Option.bind_some, Machine.procView]
      split
      · cases hf : pr.fork with
        | none => exact ⟨rfl, fun _ _ hs => by cases hs⟩
        | some ci =>
          obtain ⟨hview, hapart⟩ := hd.forkNext (p := p) (c := ci.1) (i := ci.2) h
          refine ⟨by simp [hview], fun s' w hs => ?_⟩
          cases hs
          exact hapart
      · exact ⟨rfl, fun _ _ hs => by cases hs⟩

/-- **A run reads what the run of the view reads.** -/
theorem run (hd : Duplicates dup) : ∀ (as : List Act) {s : Machine}, Apart s →
    (s.run dup as).map (fun r => (r.1.view, r.2)) = s.view.run as ∧ ∀ t ws, s.run dup as = some (t, ws) → Apart t
  | [], s, h => by
    refine ⟨rfl, fun t ws ht => ?_⟩
    cases ht
    exact h
  | a :: as, s, h => by
    obtain ⟨hview, hapart⟩ := hd.step h a
    unfold Machine.run View.run
    rw [← hview]
    cases hs : s.step dup a with
    | none => exact ⟨rfl, fun _ _ ht => by cases ht⟩
    | some r =>
      obtain ⟨s', w⟩ := r
      obtain ⟨hrest, hend⟩ := run hd as (hapart s' w hs)
      simp only [Option.bind_some, Option.map_some]
      rw [← hrest]
      refine ⟨by simp [Function.comp_def], fun t ws ht => ?_⟩
      obtain ⟨⟨t', ws'⟩, ht', heq⟩ := Option.map_eq_some_iff.1 ht
      cases heq
      exact hend t' ws' ht'

end Duplicates

/-! ## What is shared -/

namespace View

/-- Every page of `x'` is shared as some page of `x` at the same place. -/
def Keeps (x x' : View) : Prop := ∀ q u g', x'.page q u = some g' → ∃ p g, x.page p u = some g ∧ g'.lib = g.lib

variable {x x' x'' : View} {p v o : Nat} {w : Word}

theorem Keeps.refl (x : View) : Keeps x x := fun q _ g hg => ⟨q, g, hg, rfl⟩

theorem Keeps.trans (h : Keeps x x') (h' : Keeps x' x'') : Keeps x x'' := by
  intro q u g'' hg''
  obtain ⟨p', g', hg', hl'⟩ := h' q u g'' hg''
  obtain ⟨p, g, hg, hl⟩ := h p' u g' hg'
  exact ⟨p, g, hg, hl'.trans hl⟩

theorem page_update {q u : Nat} {y : Option ViewProc} {g : Page} {n : Nat}
    (h : View.page { x with procs := Function.update x.procs p y, nprocs := n } q u = some g) :
    q ≠ p ∧ x.page q u = some g ∨ q = p ∧ ∃ pr, y = some pr ∧ pr.pages u = some g := by
  obtain ⟨pr, hpr, hg⟩ := Option.bind_eq_some_iff.1 h
  replace hpr : Function.update x.procs p y q = some pr := hpr
  by_cases hq : q = p
  · rw [hq, Function.update_self] at hpr
    exact .inr ⟨hq, pr, hpr, hg⟩
  · rw [Function.update_of_ne hq] at hpr
    exact .inl ⟨hq, Option.bind_eq_some_iff.2 ⟨pr, hpr, hg⟩⟩

theorem Keeps.setProc {f : ViewProc → ViewProc} (hf : ∀ pr, (f pr).pages = pr.pages) (x : View) (p : Nat) :
    Keeps x (x.setProc p f) := by
  intro q u g hg
  rcases page_update hg with ⟨-, hg⟩ | ⟨rfl, pr, hpr, hg⟩
  · exact ⟨q, g, hg, rfl⟩
  · obtain ⟨pr₀, hpr₀, rfl⟩ := Option.map_eq_some_iff.1 hpr
    rw [hf] at hg
    exact ⟨q, g, Option.bind_eq_some_iff.2 ⟨pr₀, hpr₀, hg⟩, rfl⟩

theorem Keeps.give (x : View) (p c i : Nat) : Keeps x (x.give p c i) := by
  unfold View.give
  cases hp : x.page p i with
  | none => exact .refl x
  | some g₀ =>
    intro q u g hg
    rcases page_update hg with ⟨-, hg⟩ | ⟨rfl, pr, hpr, hg⟩
    · exact ⟨q, g, hg, rfl⟩
    · obtain ⟨pr₀, hpr₀, rfl⟩ := Option.map_eq_some_iff.1 hpr
      by_cases hu : u = i
      · subst hu
        obtain rfl : g₀ = g := by simpa using hg
        exact ⟨p, g₀, hp, rfl⟩
      · replace hg : Function.update pr₀.pages i (some g₀) u = some g := hg
        rw [Function.update_of_ne hu] at hg
        exact ⟨q, g, Option.bind_eq_some_iff.2 ⟨pr₀, hpr₀, hg⟩, rfl⟩

theorem page_store (x : View) (p v : Nat) (g : Page) (o : Nat) (w : Word) (q u : Nat) : (x.store p v g o w).page q u =
    (x.page q u).map fun h => if Reaches p v g q u h then { h with data := Function.update h.data o w } else h := by
  have hq : (x.store p v g o w).procs q = (x.procs q).map fun pr =>
      { pr with pages := fun u => (pr.pages u).map fun h =>
          if Reaches p v g q u h then { h with data := Function.update h.data o w } else h } := rfl
  unfold View.page
  rw [hq]
  cases x.procs q with
  | none => rfl
  | some pr => rfl

theorem Keeps.write (h : x.write p v o w = some x') : Keeps x x' := by
  obtain ⟨g, -, rfl⟩ := Option.map_eq_some_iff.1 h
  split
  · intro q u g' hg'
    rw [page_store] at hg'
    obtain ⟨h, hh, rfl⟩ := Option.map_eq_some_iff.1 hg'
    refine ⟨q, h, hh, ?_⟩
    split <;> rfl
  · intro q u g' hg'
    rcases page_update hg' with ⟨-, hg'⟩ | ⟨-, pr, hpr, -⟩
    · exact ⟨q, g', hg', rfl⟩
    · cases hpr

theorem Keeps.exofork (x : View) (p : Nat) : Keeps x (x.exofork p) := by
  refine Keeps.trans ?_ (Keeps.setProc (by exact fun _ => rfl) _ p)
  intro q u g hg
  rcases page_update hg with ⟨-, hg⟩ | ⟨-, pr, hpr, hg⟩
  · exact ⟨q, g, hg, rfl⟩
  · cases hpr
    cases hg

/-- **No step shares a page in a new way.** -/
theorem Keeps.step {a : Act} {r : Option Word} (h : x.step a = some (x', r)) : Keeps x x' := by
  cases a with
  | read p v o =>
    obtain ⟨pr, -, h⟩ := Option.bind_eq_some_iff.1 h
    split at h
    · obtain ⟨g, -, heq⟩ := Option.map_eq_some_iff.1 h
      cases heq
      exact .refl x
    · cases h
  | write p v o w =>
    obtain ⟨pr, -, h⟩ := Option.bind_eq_some_iff.1 h
    split at h
    · obtain ⟨x₁, hx₁, heq⟩ := Option.map_eq_some_iff.1 h
      cases heq
      exact .write hx₁
    · cases h
  | fork p =>
    obtain ⟨pr, -, h⟩ := Option.bind_eq_some_iff.1 h
    split at h
    · cases h
      exact .exofork x p
    · cases h
  | next p =>
    obtain ⟨pr, -, h⟩ := Option.bind_eq_some_iff.1 h
    split at h
    · obtain ⟨ci, -, heq⟩ := Option.map_eq_some_iff.1 h
      cases heq
      unfold View.forkNext
      split
      · exact (Keeps.give x _ _ _).trans (.setProc (by exact fun _ => rfl) _ _)
      · exact (Keeps.setProc (by exact fun _ => rfl) x _).trans (.setProc (by exact fun _ => rfl) _ _)
    · cases h

theorem Keeps.run : ∀ (as : List Act) {x : View} {ws : List Word}, x.run as = some (x', ws) → Keeps x x'
  | [], x, ws, h => by
    cases h
    exact .refl _
  | a :: as, x, ws, h => by
    obtain ⟨⟨x₁, r⟩, hstep, hrest⟩ := Option.bind_eq_some_iff.1 h
    obtain ⟨⟨y, ws'⟩, hrun, heq⟩ := Option.map_eq_some_iff.1 hrest
    cases heq
    exact (Keeps.step hstep).trans (run as hrun)

end View

/-! ## One process -/

/-- A process that has not called `fork`, alone, whose writable pages are mapped once unless they are shared. -/
structure Init (s : Machine) : Prop where
  alone : ∀ p, p ≠ 0 → s.procs p = none
  nprocs : s.nprocs = 1
  fork : ∀ pr, s.procs 0 = some pr → pr.fork = none ∧ pr.runnable = true
  fresh : ∀ v m, s.page 0 v = some m → m.pp < s.npage
  once : ∀ v u m m', v < vpn ustacktop → u < vpn ustacktop → v ≠ u → s.page 0 v = some m → s.page 0 u = some m' →
    has m.perm pteD = true → has m.perm pteLibrary = false → m.pp ≠ m'.pp

/-- **The pages leave `duppage` and `cow_entry` room.** -/
structure Forkable (s : Machine) : Prop where
  /-- No private page is writable and copy-on-write at once. -/
  own : ∀ v m, v < vpn ustacktop → s.page 0 v = some m → has m.perm pteLibrary = false → has m.perm pteD = true →
    has m.perm pteCow = false
  /-- No shared page is copy-on-write and not writable. -/
  lib : ∀ v m, v < vpn ustacktop → s.page 0 v = some m → has m.perm pteLibrary = true → has m.perm pteCow = true →
    has m.perm pteD = true
  /-- No private page maps the frame of a shared page that is writable. -/
  apart : ∀ v u m m', v < vpn ustacktop → u < vpn ustacktop → s.page 0 v = some m → s.page 0 u = some m' →
    has m.perm pteLibrary = false → has m'.perm pteLibrary = true → has m'.perm pteD = true → m.pp ≠ m'.pp
  /-- Nothing is mapped where the system calls refuse to map. -/
  low : ∀ v m, v < vpn ustacktop → s.page 0 v = some m → vpn utemp ≤ v
  /-- `UCOW` is free, unless nothing is ever copied. -/
  room : s.page 0 (vpn ucow) = none ∨ ∀ v m, v < vpn ustacktop → s.page 0 v = some m → m.copied = false

variable {s t : Machine}

theorem Init.only (h : Init s) {p v : Nat} {m : Mapping} (hm : s.page p v = some m) : p = 0 := by
  by_contra hp
  unfold Machine.page at hm
  rw [h.alone p hp] at hm
  cases hm

theorem Init.apart (h : Init s) (hf : Forkable s) : Apart s := by
  refine ⟨fun p v m hm => ?_, fun p v m q u m' hv hu hm hm' hpp hD hne => ?_, fun p v m hv hm => ?_,
    fun p v m hv hm => ?_,
    fun p v m hv hm => ?_, hf.room.imp (fun hroom p => ?_) fun hall p v m hv hm => ?_⟩
  · obtain rfl := h.only hm
    exact h.fresh v m hm
  · obtain rfl := h.only hm
    obtain rfl := h.only hm'
    have hvu : v ≠ u := fun hc => hne ⟨rfl, hc.symm⟩
    have hL : has m.perm pteLibrary = true := by
      by_contra hL
      exact h.once v u m m' hv hu hvu hm hm' hD (Bool.eq_false_iff.2 hL) hpp.symm
    refine ⟨hL, ?_⟩
    by_contra hL'
    exact hf.apart u v m' m hu hv hm' hm (Bool.eq_false_iff.2 hL') hL hD hpp
  · obtain rfl := h.only hm
    exact hf.lib v m hv hm
  · obtain rfl := h.only hm
    exact hf.own v m hv hm
  · obtain rfl := h.only hm
    exact hf.low v m hv hm
  · by_contra hc
    obtain ⟨m, hm⟩ := Option.ne_none_iff_exists'.1 hc
    obtain rfl := h.only hm
    rw [hroom] at hm
    cases hm
  · obtain rfl := h.only hm
    exact hall v m hv hm

/-- The pages of one run that are shared at one place are shared with each other. -/
theorem lib_unique (h : Init s) {as : List Act} {ws : List Word} {x : View} (hr : s.view.run as = some (x, ws))
    {p q v f f' : Nat} {g g' : Page} (hg : x.page p v = some g) (hg' : x.page q v = some g') (hf : g.lib = some f)
    (hf' : g'.lib = some f') : f = f' := by
  have hkeep := View.Keeps.run as hr
  obtain ⟨p₀, g₀, hp₀, hl₀⟩ := hkeep p v g hg
  obtain ⟨q₀, g₀', hq₀, hl₀'⟩ := hkeep q v g' hg'
  have hzero : ∀ r h, s.view.page r v = some h → r = 0 := by
    intro r h' hr'
    by_contra hne
    have hnone : s.view.procs r = none := by
      show (s.procs r).map s.procView = none
      rw [h.alone r hne]
      rfl
    unfold View.page at hr'
    rw [hnone] at hr'
    cases hr'
  obtain rfl := hzero p₀ g₀ hp₀
  obtain rfl := hzero q₀ g₀' hq₀
  obtain rfl := Option.some.inj (hp₀.symm.trans hq₀)
  rw [hl₀] at hf
  rw [hl₀'] at hf'
  exact Option.some.inj (hf.symm.trans hf')

/-- What `q` reads. -/
def Machine.read (s : Machine) (q v o : Nat) : Option Word := (s.page q v).map fun m => s.mem m.pp o

/-- **A write to the page `v` of `p` is seen by `q`.** -/
def Seen (t : Machine) (p q v : Nat) : Prop :=
  ∀ o < pageWords, ∀ w t', t.write p v o w = some t' → t'.read q v o = some w

theorem read_view {q v : Nat} (hv : v < vpn ustacktop) (t : Machine) (o : Nat) :
    t.read q v o = (t.view.page q v).map fun g => g.data o := by
  unfold Machine.read
  rw [Machine.view_page hv, Option.map_map]
  rfl

theorem seen_iff (h : Init s) (hf : Forkable s) {as : List Act} {ws : List Word}
    (hr : s.run Machine.duppage as = some (t, ws)) {p q v : Nat} {m m' : Mapping} (hpq : p ≠ q)
    (hv : v < vpn ustacktop) (hm : t.page p v = some m) (hm' : t.page q v = some m')
    (hw : has m.perm pteD = true ∨ has m.perm pteCow = true) :
    Seen t p q v ↔ has m.perm pteLibrary = true ∧ has m'.perm pteLibrary = true := by
  obtain ⟨hview, hapart⟩ := duplicates_duppage.run as (h.apart hf)
  have hx : s.view.run as = some (t.view, ws) := by
    rw [← hview, hr]
    rfl
  have ht := hapart t ws hr
  have hpage : t.view.page p v = some (t.pageView m) := by rw [Machine.view_page hv, hm]; rfl
  have hpage' : t.view.page q v = some (t.pageView m') := by rw [Machine.view_page hv, hm']; rfl
  have hwr : (t.pageView m).writable = true := by
    show (has m.perm pteD || has m.perm pteCow) = true
    rwa [Bool.or_eq_true]
  -- what the write does to the page of `q`
  have hwrite : ∀ o w, (t.write p v o w).map Machine.view = some (t.view.store p v (t.pageView m) o w) := by
    intro o w
    rw [(ht.write hv p o w).1]
    unfold View.write
    rw [hpage, Option.map_some, if_pos hwr]
  have hreach : View.Reaches p v (t.pageView m) q v (t.pageView m') ↔
      has m.perm pteLibrary = true ∧ has m'.perm pteLibrary = true := by
    constructor
    · rintro (⟨hqp, -⟩ | ⟨hne, heq⟩)
      · exact absurd hqp.symm hpq
      · unfold Machine.pageView at hne heq
        dsimp only at hne heq
        split at hne
        · rename_i hL
          rw [if_pos hL] at heq
          split at heq
          · rename_i hL'
            exact ⟨hL, hL'⟩
          · cases heq
        · exact absurd rfl hne
    · rintro ⟨hL, hL'⟩
      have hl : (t.pageView m).lib = some m.pp := if_pos hL
      have hl' : (t.pageView m').lib = some m'.pp := if_pos hL'
      refine .inr ⟨by rw [hl]; simp, ?_⟩
      rw [hl, hl', lib_unique h hx hpage hpage' hl hl']
  have hread : ∀ o w t', t.write p v o w = some t' → t'.read q v o = some
      (if has m.perm pteLibrary = true ∧ has m'.perm pteLibrary = true then w else t.mem m'.pp o) := by
    intro o w t' hwt
    have hview' : t'.view = t.view.store p v (t.pageView m) o w := by
      have := hwrite o w
      rw [hwt] at this
      exact Option.some.inj this
    rw [read_view hv, hview', View.page_store, hpage', Option.map_some, Option.map_some]
    by_cases hl : has m.perm pteLibrary = true ∧ has m'.perm pteLibrary = true
    · rw [if_pos hl, if_pos (hreach.2 hl)]
      show some (Function.update (t.pageView m').data o w o) = some w
      rw [Function.update_self]
    · rw [if_neg hl, if_neg fun hc => hl (hreach.1 hc)]
      rfl
  constructor
  · intro hseen
    by_contra hl
    have hwt := hwrite 0 (t.mem m'.pp 0 + 1)
    obtain ⟨t', ht', -⟩ := Option.map_eq_some_iff.1 hwt
    have hnew := hseen 0 (by decide) _ t' ht'
    rw [hread 0 _ t' ht', if_neg hl, Option.some.injEq] at hnew
    have hne : t.mem m'.pp 0 + 1 - t.mem m'.pp 0 = 1 := by bv_omega
    rw [← hnew, BitVec.sub_self] at hne
    cases hne
  · intro hl o _ w t' hwt
    rw [hread o w t' hwt, if_pos hl]

/-- **`fork` refines eager copying**, and a write is seen by others exactly through the pages that are shared. -/
theorem fork_refines_copying (s : Machine) (h : Init s) (hf : Forkable s) :
    (∀ as, (s.run Machine.duppage as).map Prod.snd = (s.run Machine.copypage as).map Prod.snd) ∧
    ∀ as t ws, s.run Machine.duppage as = some (t, ws) → ∀ p q v m m', p ≠ q → v < vpn ustacktop → t.page p v = some m →
      t.page q v = some m' → has m.perm pteD = true ∨ has m.perm pteCow = true →
      (Seen t p q v ↔ has m.perm pteLibrary = true ∧ has m'.perm pteLibrary = true) := by
  refine ⟨fun as => ?_, fun as t ws hr p q v m m' hpq hv hm hm' hw => seen_iff h hf hr hpq hv hm hm' hw⟩
  have hboth : ∀ {dup}, Duplicates dup → (s.run dup as).map Prod.snd = (s.view.run as).map Prod.snd := by
    intro dup hd
    rw [← (hd.run as (h.apart hf)).1, Option.map_map]
    rfl
  rw [hboth duplicates_duppage, hboth duplicates_copypage]

/-! ## One page -/

/-- A process with one page, at `UTEXT`. -/
def single (perm : Word) : Machine where
  procs p := if p = 0 then
      some { pages := fun v => if v = vpn utext then some ⟨0, perm⟩ else none, fork := none, runnable := true }
    else none
  nprocs := 1
  mem := fun _ _ => 0
  npage := 1

theorem single_page {perm : Word} {v : Nat} {m : Mapping} (h : (single perm).page 0 v = some m) :
    v = vpn utext ∧ m = ⟨0, perm⟩ := by
  unfold Machine.page single at h
  simp only [if_pos, Option.bind_some] at h
  split at h
  · rename_i hv
    exact ⟨hv, (Option.some.inj h).symm⟩
  · cases h

theorem init_single (perm : Word) : Init (single perm) := by
  refine ⟨fun p hp => if_neg hp, rfl, fun pr hpr => ?_, fun v m hm => ?_, fun v u m m' _ _ hne hm hm' => ?_⟩
  · cases hpr
    exact ⟨rfl, rfl⟩
  · obtain ⟨-, rfl⟩ := single_page hm
    exact Nat.one_pos
  · exact absurd ((single_page hm).1.trans (single_page hm').1.symm) hne

/-- The child writes to the page, and the parent reads it. -/
def childWrites : List Act := [.next 0, .write 1 (vpn utext) 0 7, .read 0 (vpn utext) 0]

def forkAndWrite : List Act :=
  .fork 0 :: (List.replicate (vpn utext) (.next 0) ++ .next 0 ::
    (List.replicate (vpn ustacktop - vpn utext - 1) (.next 0) ++ childWrites))

/-- An ordinary page of data. -/
theorem fork_refines_copying_single : ((single (pteD ||| pteV)).run Machine.duppage forkAndWrite).map Prod.snd =
    ((single (pteD ||| pteV)).run Machine.copypage forkAndWrite).map Prod.snd := by
  refine (fork_refines_copying (single (pteD ||| pteV)) (init_single _)
    ⟨fun v m _ hm _ _ => ?_, fun v m _ hm hl _ => ?_, fun v u m m' _ _ _ hm' _ hl' _ => ?_,
      fun v m _ hm => ?_, .inl rfl⟩).1
    forkAndWrite
  · obtain ⟨-, rfl⟩ := single_page hm
    decide
  · obtain ⟨-, rfl⟩ := single_page hm
    exact absurd hl (by decide)
  · obtain ⟨-, rfl⟩ := single_page hm'
    exact absurd hl' (by decide)
  · rw [(single_page hm).1]
    decide

theorem run_of_step {dup : Machine → Nat → Nat → Nat → Machine} {a : Act} (as : List Act)
    (h : s.step dup a = some (t, none)) : s.run dup (a :: as) = t.run dup as := by
  have hrun : s.run dup (a :: as) =
      (s.step dup a).bind fun q => (q.1.run dup as).map fun r => (r.1, q.2.toList ++ r.2) := rfl
  rw [hrun, h, Option.bind_some]
  show (t.run dup as).map (fun r => (r.1, r.2)) = t.run dup as
  exact Option.map_id'

theorem run_unmapped (dup : Machine → Nat → Nat → Nat → Machine) (p c : Nat) (as : List Act) :
    ∀ (n i : Nat) {s : Machine}
    {pr : Proc}, s.procs p = some pr → pr.runnable = true → pr.fork = some (c, i) → i + n ≤ vpn ustacktop →
    (∀ j, i ≤ j → j < i + n → pr.pages j = none) → s.run dup (List.replicate n (.next p) ++ as) =
      (s.setProc p fun pr => { pr with fork := some (c, i + n) }).run dup as
  | 0, i, s, pr, hp, _, hf, _, _ => by
    have hsame : (s.setProc p fun pr => { pr with fork := some (c, i) }) = s := by
      have hpr : ({ pr with fork := some (c, i) } : Proc) = pr := by rw [← hf]
      unfold Machine.setProc
      rw [hp, Option.map_some, hpr, ← hp, Function.update_eq_self]
    rw [List.replicate_zero, List.nil_append, Nat.add_zero, hsame]
  | n + 1, i, s, pr, hp, hr, hf, hle, hnone => by
    have hlt : i < vpn ustacktop := by omega
    have hunmapped : s.page p i = none := by
      unfold Machine.page
      rw [hp, Option.bind_some, hnone i (Nat.le_refl i) (by omega)]
    have hstep : s.step dup (.next p) = some (s.setProc p fun pr => { pr with fork := some (c, i + 1) }, none) := by
      simp only [Machine.step, hp, Option.bind_some, if_pos hr, hf, Option.map_some]
      unfold Machine.forkNext
      rw [if_pos hlt, hunmapped]
      rfl
    have hp' : (s.setProc p fun pr => { pr with fork := some (c, i + 1) }).procs p =
        some { pr with fork := some (c, i + 1) } := by
      unfold Machine.setProc
      rw [hp]
      exact Function.update_self p _ s.procs
    have hrest := run_unmapped dup p c as n (i + 1) hp' hr rfl (by omega) fun j hj hlt => hnone j (by omega) (by omega)
    rw [List.replicate_succ, List.cons_append, run_of_step _ hstep, hrest, Machine.setProc_setProc]
    have hsum : i + 1 + n = i + (n + 1) := by omega
    rw [hsum]
    rfl

/-- The turn of `fork` at the page. -/
def pageTurn (dup : Machine → Nat → Nat → Nat → Machine) (perm : Word) : Machine :=
  (((single perm).exofork 0).setProc 0 fun pr => { pr with fork := some (1, vpn utext) }).forkNext dup 0 1 (vpn utext)

theorem run_forkAndWrite {dup : Machine → Nat → Nat → Nat → Machine} {perm : Word} {pr : Proc}
    (hp : (pageTurn dup perm).procs 0 = some pr) (hr : pr.runnable = true) (hf : pr.fork = some (1, vpn utext + 1))
    (hnone : ∀ j, vpn utext + 1 ≤ j → pr.pages j = none) : (single perm).run dup forkAndWrite =
      ((pageTurn dup perm).setProc 0 fun pr => { pr with fork := some (1, vpn ustacktop) }).run dup childWrites := by
  unfold forkAndWrite
  have hfork : (single perm).step dup (.fork 0) = some ((single perm).exofork 0, none) := rfl
  have hbelow : ∀ j, 0 ≤ j → j < 0 + vpn utext → (if j = vpn utext then some (⟨0, perm⟩ : Mapping) else none) = none :=
    fun j _ hj => if_neg (by omega)
  rw [run_of_step _ hfork, run_unmapped dup 0 1 _ (vpn utext) 0 rfl rfl rfl (by decide) hbelow, Nat.zero_add]
  have hnext : (((single perm).exofork 0).setProc 0 fun pr =>
    { pr with fork := some (1, vpn utext) }).step dup (.next 0) =
      some (pageTurn dup perm, none) := rfl
  have hsum : vpn utext + 1 + (vpn ustacktop - vpn utext - 1) = vpn ustacktop := by decide
  rw [run_of_step _ hnext, run_unmapped dup 0 1 _ _ _ hp hr hf (by decide) fun j hj _ => hnone j hj, hsum]

/-- **A page that is writable and copy-on-write at once** stays shared after `fork`. -/
theorem fork_refines_copying_fails : ¬∀ s, Init s →
    ∀ as, (s.run Machine.duppage as).map Prod.snd = (s.run Machine.copypage as).map Prod.snd := by
  intro hall
  have heq := hall _ (init_single (pteD ||| pteCow ||| pteV)) forkAndWrite
  have hunmapped : ∀ {j : Nat}, vpn utext + 1 ≤ j → j ≠ vpn utext := fun h => by omega
  rw [run_forkAndWrite rfl rfl rfl fun j hj => if_neg (hunmapped hj),
    run_forkAndWrite rfl rfl rfl fun j hj => if_neg (hunmapped hj)] at heq
  revert heq
  decide +kernel

end Forking

end Mos
