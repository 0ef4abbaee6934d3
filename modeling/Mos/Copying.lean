import Mos.Fork
/-!
# Copying — what every process sees of its pages

A view has the pages of the processes by their contents: who shares a page with `PTE_LIBRARY`, whether it can be
written, and its words.  There `fork` gives the child a page of its own with the same words, and a write changes the
page itself and those shared with it.  Both ways to make a child, `duppage` and `copypage`, keep to this, from a
process whose pages are apart; so all that is read is the same.
-/
namespace Mos
namespace Forking

/-! ## Views -/

/-- A page as its process sees it; `lib` names the pages it is shared with. -/
structure Page where
  lib : Option Nat
  writable : Bool
  data : Nat → Word

@[ext] structure ViewProc where
  pages : Nat → Option Page
  fork : Option (Nat × Nat)
  runnable : Bool

@[ext] structure View where
  procs : Nat → Option ViewProc
  nprocs : Nat

namespace View

def page (x : View) (p v : Nat) : Option Page := (x.procs p).bind (·.pages v)

def setProc (x : View) (p : Nat) (f : ViewProc → ViewProc) : View :=
  { x with procs := Function.update x.procs p ((x.procs p).map f) }

def setPage (x : View) (p v : Nat) (g : Option Page) : View :=
  x.setProc p fun pr => { pr with pages := Function.update pr.pages v g }

/-- The page `u` of `q` is the page `v` of `p`, or shared with it. -/
def Reaches (p v : Nat) (g : Page) (q u : Nat) (h : Page) : Prop := q = p ∧ u = v ∨ g.lib ≠ none ∧ h.lib = g.lib

instance (p v : Nat) (g : Page) (q u : Nat) (h : Page) : Decidable (Reaches p v g q u h) :=
  inferInstanceAs (Decidable (_ ∨ _))

/-- A write changes every page it reaches. -/
def store (x : View) (p v : Nat) (g : Page) (o : Nat) (w : Word) : View :=
  { x with procs := fun q => (x.procs q).map fun pr =>
      { pr with pages := fun u => (pr.pages u).map fun h =>
          if Reaches p v g q u h then { h with data := Function.update h.data o w } else h } }

def panic (x : View) (p : Nat) : View := { x with procs := Function.update x.procs p none }

def write (x : View) (p v o : Nat) (w : Word) : Option View :=
  (x.page p v).map fun g => if g.writable then x.store p v g o w else x.panic p

def exofork (x : View) (p : Nat) : View :=
  let child : ViewProc := { pages := fun _ => none, fork := none, runnable := false }
  { x with procs := Function.update x.procs x.nprocs (some child), nprocs := x.nprocs + 1 }.setProc p fun pr =>
    { pr with fork := some (x.nprocs, 0) }

/-- The child gets the page. -/
def give (x : View) (p child i : Nat) : View :=
  match x.page p i with
  | none => x
  | some g => x.setPage child i (some g)

def forkNext (x : View) (p child i : Nat) : View :=
  if i < vpn ustacktop then (x.give p child i).setProc p fun pr => { pr with fork := some (child, i + 1) }
  else
    (x.setProc child fun pr => { pr with runnable := true }).setProc p fun pr => { pr with fork := none }

def step (x : View) : Act → Option (View × Option Word)
  | .read p v o => (x.procs p).bind fun pr =>
    if pr.runnable && decide (v < vpn ustacktop ∧ o < pageWords) then (pr.pages v).map fun g => (x, some (g.data o))
    else none
  | .write p v o w => (x.procs p).bind fun pr =>
    if pr.runnable && decide (v < vpn ustacktop ∧ o < pageWords) then (x.write p v o w).map
    fun x' => (x', none) else none
  | .fork p => (x.procs p).bind fun pr =>
    if pr.runnable && pr.fork.isNone then some (x.exofork p, none) else none
  | .next p => (x.procs p).bind fun pr =>
    if pr.runnable then pr.fork.map fun (c, i) => (x.forkNext p c i, none) else none

def run : List Act → View → Option (View × List Word)
  | [], x => some (x, [])
  | a :: as, x => (x.step a).bind fun (x', w) => (x'.run as).map fun (y, ws) => (y, w.toList ++ ws)

end View

/-- The page that `m` maps. -/
def Machine.pageView (s : Machine) (m : Mapping) : Page :=
  { lib := if has m.perm pteLibrary then some m.pp else none
    writable := has m.perm pteD || has m.perm pteCow
    data := s.mem m.pp }

def Machine.procView (s : Machine) (pr : Proc) : ViewProc :=
  { pages := fun v => if v < vpn ustacktop then (pr.pages v).map s.pageView else none
    fork := pr.fork
    runnable := pr.runnable }

/-- What the processes see below `USTACKTOP`. -/
def Machine.view (s : Machine) : View := { procs := fun p => (s.procs p).map s.procView, nprocs := s.nprocs }

/-! ## Flags -/

theorem has_or (a b f : Word) : has (a ||| b) f = (has a f || has b f) := by
  unfold has
  rw [Bool.eq_iff_iff]
  simp only [Bool.or_eq_true, bne_iff_ne, ne_eq]
  have hdist : (a ||| b) &&& f = (a &&& f) ||| (b &&& f) := by grind
  have hzero : (a &&& f) ||| (b &&& f) = 0 ↔ a &&& f = 0 ∧ b &&& f = 0 := BitVec.or_eq_zero_iff
  rw [hdist, hzero]
  exact not_and_or

theorem has_clear (a f : Word) : has (a &&& ~~~f) f = false := by
  have h : a &&& ~~~f &&& f = 0 := by
    rw [BitVec.and_assoc, BitVec.not_and_self]
    exact BitVec.and_zero
  unfold has
  rw [h]
  rfl

theorem has_keep {c f : Word} (a : Word) (h : ~~~c &&& f = f) : has (a &&& ~~~c) f = has a f := by
  unfold has
  rw [BitVec.and_assoc, h]

/-! ## Pages and views -/

namespace Machine

variable {s s' : Machine} {p q v u a : Nat} {m m' : Mapping} {x : Option Mapping}

theorem page_setProc {f : Proc → Proc} (hf : ∀ pr, (f pr).pages = pr.pages) (q u : Nat) :
    (s.setProc p f).page q u = s.page q u := by
  unfold page setProc
  by_cases hq : q = p
  · subst hq
    simp only [Function.update_self]
    cases s.procs q with
    | none => rfl
    | some pr => simp [hf]
  · simp only [Function.update_of_ne hq]

theorem page_setPage (s : Machine) (a v : Nat) (x : Option Mapping) (q u : Nat) :
    (s.setPage a v x).page q u = if q = a ∧ u = v then (s.procs a).bind fun _ => x else s.page q u := by
  unfold page setPage setProc
  by_cases hq : q = a
  · subst hq
    simp only [Function.update_self, true_and]
    cases s.procs q with
    | none => simp
    | some pr => simp [Function.update_apply]
  · simp [hq]

theorem page_of_setPage (h : (s.setPage a v x).page q u = some m) :
    q = a ∧ u = v ∧ x = some m ∨ ¬(q = a ∧ u = v) ∧ s.page q u = some m := by
  rw [page_setPage] at h
  split at h
  · rename_i hc
    obtain ⟨-, -, hx⟩ := Option.bind_eq_some_iff.1 h
    exact .inl ⟨hc.1, hc.2, hx⟩
  · rename_i hc
    exact .inr ⟨hc, h⟩

theorem page_procs (h : s.page p v = some m) : ∃ pr, s.procs p = some pr ∧ pr.pages v = some m :=
  Option.bind_eq_some_iff.1 h

theorem view_congr (hp : s'.procs = s.procs) (hn : s'.nprocs = s.nprocs)
    (hm : ∀ q u m, u < vpn ustacktop → s.page q u = some m → s'.mem m.pp = s.mem m.pp) : s'.view = s.view := by
  refine View.ext (funext fun q => ?_) hn
  show (s'.procs q).map s'.procView = (s.procs q).map s.procView
  rw [hp]
  cases hq : s.procs q with
  | none => rfl
  | some pr =>
    refine congrArg some (ViewProc.ext (funext fun u => ?_) rfl rfl)
    show (if u < vpn ustacktop then (pr.pages u).map s'.pageView else none) =
      if u < vpn ustacktop then (pr.pages u).map s.pageView else none
    split
    · rename_i hu
      cases hm' : pr.pages u with
      | none => rfl
      | some m =>
        have hpage : s.page q u = some m := Option.bind_eq_some_iff.2 ⟨pr, hq, hm'⟩
        simp only [Option.map_some, pageView, hm q u m hu hpage]
    · rfl

theorem view_setProc {f : Proc → Proc} {g : ViewProc → ViewProc} (h : ∀ pr, s.procView (f pr) = g (s.procView pr))
    (p : Nat) :
    (s.setProc p f).view = s.view.setProc p g := by
  refine View.ext (funext fun q => ?_) rfl
  show (Function.update s.procs p ((s.procs p).map f) q).map s.procView =
    Function.update (fun q => (s.procs q).map s.procView) p (((s.procs p).map s.procView).map g) q
  by_cases hq : q = p
  · subst hq
    rw [Function.update_self, Function.update_self]
    cases s.procs q with
    | none => rfl
    | some pr => exact congrArg some (h pr)
  · rw [Function.update_of_ne hq, Function.update_of_ne hq]

theorem view_setPage (hv : v < vpn ustacktop) (s : Machine) (a : Nat) (x : Option Mapping) :
    (s.setPage a v x).view = s.view.setPage a v (x.map s.pageView) := by
  refine view_setProc (fun pr => ViewProc.ext (funext fun u => ?_) rfl rfl) a
  show (if u < vpn ustacktop then (Function.update pr.pages v x u).map s.pageView else none) =
    Function.update (fun u => if u < vpn ustacktop then (pr.pages u).map s.pageView else none) v (x.map s.pageView) u
  by_cases hu : u = v
  · subst hu
    rw [Function.update_self, Function.update_self, if_pos hv]
  · rw [Function.update_of_ne hu, Function.update_of_ne hu]

theorem view_page (hv : v < vpn ustacktop) (s : Machine) (p : Nat) : s.view.page p v = (s.page p v).map s.pageView := by
  have hp : s.view.procs p = (s.procs p).map s.procView := rfl
  unfold View.page page
  rw [hp]
  cases s.procs p with
  | none => rfl
  | some pr => exact if_pos hv

end Machine

theorem View.setPage_same {x : View} {p v : Nat} {g : Option Page} (h : x.page p v = g) : x.setPage p v g = x := by
  refine View.ext (funext fun q => ?_) rfl
  show Function.update x.procs p _ q = x.procs q
  by_cases hq : q = p
  · subst hq
    rw [Function.update_self]
    unfold View.page at h
    cases hx : x.procs q with
    | none => rfl
    | some pr =>
      rw [hx, Option.bind_some] at h
      rw [Option.map_some, ← h, Function.update_eq_self]
  · rw [Function.update_of_ne hq]

theorem View.page_setPage_self {x : View} {p v : Nat} {g : Page} (h : x.page p v = some g) (a : Nat) :
    (x.setPage a v (some g)).page p v = some g := by
  unfold View.page at h ⊢
  obtain ⟨pr, hpr, hg⟩ := Option.bind_eq_some_iff.1 h
  show (Function.update x.procs a _ p).bind _ = some g
  by_cases hp : p = a
  · subst hp
    rw [Function.update_self, hpr, Option.map_some, Option.bind_some]
    exact Function.update_self _ _ _
  · rw [Function.update_of_ne hp, hpr, Option.bind_some]
    exact hg

/-! ## Pages that are apart -/

/-- A page that may come to be copied. -/
def Mapping.copied (m : Mapping) : Bool := !has m.perm pteLibrary && (has m.perm pteD || has m.perm pteCow)

/-- **What a store reaches is shared**, and `cow_entry` finds the pages it needs. -/
structure Apart (s : Machine) : Prop where
  fresh : ∀ p v m, s.page p v = some m → m.pp < s.npage
  alone : ∀ p v m q u m', v < vpn ustacktop → u < vpn ustacktop → s.page p v = some m → s.page q u = some m' →
    m'.pp = m.pp → has m.perm pteD = true → ¬(q = p ∧ u = v) → has m.perm pteLibrary = true ∧
      has m'.perm pteLibrary = true
  lib : ∀ p v m, v < vpn ustacktop → s.page p v = some m → has m.perm pteLibrary = true → has m.perm pteCow = true →
    has m.perm pteD = true
  own : ∀ p v m, v < vpn ustacktop → s.page p v = some m → has m.perm pteLibrary = false → has m.perm pteD = true →
    has m.perm pteCow = false
  low : ∀ p v m, v < vpn ustacktop → s.page p v = some m → vpn utemp ≤ v
  room : (∀ p, s.page p (vpn ucow) = none) ∨ ∀ p v m, v < vpn ustacktop → s.page p v = some m → m.copied = false

namespace Apart

variable {s s' : Machine} {p v : Nat} {m : Mapping}

theorem mono (h : Apart s) (hn : s.npage ≤ s'.npage) (hp : ∀ q u m, s'.page q u = some m → s.page q u = some m) :
    Apart s' := by
  refine ⟨fun p v m hm => Nat.lt_of_lt_of_le (h.fresh p v m (hp p v m hm)) hn, ?_, ?_, ?_, ?_, ?_⟩
  · intro p v m q u m' hv hu hm hm'
    exact h.alone p v m q u m' hv hu (hp p v m hm) (hp q u m' hm')
  · exact fun p v m hv hm => h.lib p v m hv (hp p v m hm)
  · exact fun p v m hv hm => h.own p v m hv (hp p v m hm)
  · exact fun p v m hv hm => h.low p v m hv (hp p v m hm)
  · refine h.room.imp (fun hu p => ?_) fun hc p v m hv hm => hc p v m hv (hp p v m hm)
    by_contra hne
    obtain ⟨m, hm⟩ := Option.ne_none_iff_exists'.1 hne
    have := hp _ _ _ hm
    rw [hu] at this
    cases this

/-- **The page `v` becomes `m₀`** in the processes of `At`. -/
theorem set (h : Apart s) (v : Nat) (m₀ : Mapping) (hn : s.npage ≤ s'.npage) (At : Nat → Prop)
    (hp : ∀ q u m, s'.page q u = some m → ¬(At q ∧ u = v) ∧ s.page q u = some m ∨ At q ∧ u = v ∧ m = m₀)
    (hfresh : m₀.pp < s'.npage) (hlow : vpn utemp ≤ v)
    (hlib : has m₀.perm pteLibrary = true → has m₀.perm pteCow = true → has m₀.perm pteD = true)
    (hown : has m₀.perm pteLibrary = false → has m₀.perm pteD = true → has m₀.perm pteCow = false)
    (hself : has m₀.perm pteD = true → has m₀.perm pteLibrary = false → ∀ q q', At q → At q' → q = q')
    (hold : ∀ q u m, ¬(At q ∧ u = v) → u < vpn ustacktop → s.page q u = some m → m.pp = m₀.pp →
      has m.perm pteD = true ∨ has m₀.perm pteD = true → has m.perm pteLibrary = true ∧ has m₀.perm pteLibrary = true)
    (hroom : (∀ p, s.page p (vpn ucow) = none) → v ≠ vpn ucow)
    (hcopied : (∀ p v m, v < vpn ustacktop → s.page p v = some m → m.copied = false) → m₀.copied = false) :
    Apart s' := by
  refine ⟨fun q u m hm => ?_, fun q u m q' u' m' hu hu' hm hm' hpp hD hne => ?_, fun q u m hu hm => ?_,
    fun q u m hu hm => ?_, fun q u m hu hm => ?_, h.room.imp (fun hu q => ?_) fun hc q u m hu hm => ?_⟩
  · rcases hp q u m hm with ⟨-, hm⟩ | ⟨-, -, rfl⟩
    · exact Nat.lt_of_lt_of_le (h.fresh q u m hm) hn
    · exact hfresh
  · rcases hp q u m hm with ⟨hno, hm⟩ | ⟨hat, rfl, rfl⟩
    · rcases hp q' u' m' hm' with ⟨hno', hm'⟩ | ⟨hat', rfl, rfl⟩
      · exact h.alone q u m q' u' m' hu hu' hm hm' hpp hD hne
      · exact hold q u m hno hu hm hpp.symm (.inl hD)
    · rcases hp q' u' m' hm' with ⟨hno', hm'⟩ | ⟨hat', rfl, rfl⟩
      · exact (hold q' u' m' hno' hu' hm' hpp (.inr hD)).symm
      · by_cases hl : has m'.perm pteLibrary = true
        · exact ⟨hl, hl⟩
        · exact absurd ⟨hself hD (Bool.eq_false_iff.2 hl) q' q hat' hat, rfl⟩ hne
  · rcases hp q u m hm with ⟨-, hm⟩ | ⟨-, -, rfl⟩
    · exact h.lib q u m hu hm
    · exact hlib
  · rcases hp q u m hm with ⟨-, hm⟩ | ⟨-, -, rfl⟩
    · exact h.own q u m hu hm
    · exact hown
  · rcases hp q u m hm with ⟨-, hm⟩ | ⟨-, rfl, -⟩
    · exact h.low q u m hu hm
    · exact hlow
  · by_contra hne
    obtain ⟨m, hm⟩ := Option.ne_none_iff_exists'.1 hne
    rcases hp _ _ m hm with ⟨-, hm⟩ | ⟨-, hv, -⟩
    · rw [hu] at hm
      cases hm
    · exact hroom hu hv.symm
  · rcases hp q u m hm with ⟨-, hm⟩ | ⟨-, -, rfl⟩
    · exact hc q u m hu hm
    · exact hcopied hc

theorem room_none (h : Apart s) (hv : v < vpn ustacktop) (hm : s.page p v = some m) (hc : m.copied = true) (q : Nat) :
    s.page q (vpn ucow) = none := by
  refine (h.room.resolve_right fun hall => ?_) q
  have hf := hall p v m hv hm
  rw [hf] at hc
  cases hc

end Apart

/-! ## Writes -/

namespace Machine

variable {s s' : Machine} {p v o : Nat} {w : Word} {m : Mapping}

/-- What `cow_entry` maps. -/
def cowPerm (perm : Word) : Word := perm &&& ~~~pteCow ||| pteD ||| pteCCacheable ||| pteV

theorem has_cowPerm (perm : Word) : has (cowPerm perm) pteD = true ∧ has (cowPerm perm) pteCow = false ∧
    has (cowPerm perm) pteLibrary = has perm pteLibrary := by
  unfold cowPerm
  simp only [has_or, has_clear, has_keep perm (show ~~~pteCow &&& pteLibrary = pteLibrary by decide)]
  have h₁ : has pteD pteD = true := by decide
  have h₂ : has pteD pteCow = false ∧ has pteCCacheable pteCow = false ∧ has pteV pteCow = false := by decide
  have h₃ : has pteD pteLibrary = false ∧ has pteCCacheable pteLibrary = false ∧
      has pteV pteLibrary = false := by decide
  simp [h₁, h₂, h₃]

theorem setProc_setProc (s : Machine) (p : Nat) (f g : Proc → Proc) :
    (s.setProc p f).setProc p g = s.setProc p (g ∘ f) := by
  unfold setProc
  simp only [Function.update_self, Function.update_idem, Option.map_map]

/-- The page becomes a copy of its own. -/
def copied (s : Machine) (p v : Nat) (m : Mapping) : Machine :=
  { s with mem := Function.update s.mem s.npage (s.mem m.pp), npage := s.npage + 1 }.setPage p v
    (some ⟨s.npage, cowPerm m.perm⟩)

/-- **`cow_entry` copies the page.** -/
theorem cowEntry_eq (hlt : m.pp < s.npage) (hlow : vpn utemp ≤ v) (hv : v < vpn ustacktop) (hm : s.page p v = some m)
    (hu : s.page p (vpn ucow) = none) (hc : has m.perm pteCow = true) : s.cowEntry p v = some (s.copied p v m) := by
  have hlegal : legal v = true := by
    have htop : vpn ustacktop < vpn utop := by decide
    exact decide_eq_true ⟨hlow, Nat.lt_trans hv htop⟩
  have hucow : legal (vpn ucow) = true := by decide
  have hne : v ≠ vpn ucow := by
    rintro rfl
    rw [hu] at hm
    cases hm
  obtain ⟨pr, hpr, hpm⟩ := page_procs hm
  have hpu : pr.pages (vpn ucow) = none := by
    unfold page at hu
    rwa [hpr] at hu
  unfold cowEntry
  rw [hm, Option.bind_some, if_pos hc]
  unfold copied cowPerm
  dsimp only
  generalize m.perm &&& ~~~pteCow ||| pteD = perm
  generalize hx : perm ||| pteCCacheable ||| pteV = flags
  -- the new page
  have h₁ : s.memAlloc p (vpn ucow) perm =
      { s with mem := Function.update s.mem s.npage fun _ => 0, npage := s.npage + 1 }.setPage p (vpn ucow)
        (some ⟨s.npage, flags⟩) := by
    unfold memAlloc
    rw [if_pos hucow, hx]
  generalize hs₁ : s.memAlloc p (vpn ucow) perm = s₁ at h₁
  have hnew : s₁.page p (vpn ucow) = some ⟨s.npage, flags⟩ := by
    rw [h₁, page_setPage, if_pos ⟨rfl, rfl⟩]
    show (s.procs p).bind _ = _
    rw [hpr, Option.bind_some]
  have hold : s₁.page p v = some m := by
    rw [h₁, page_setPage, if_neg fun hc => hne hc.2]
    exact hm
  have hmem : s₁.mem m.pp = s.mem m.pp := by
    rw [h₁]
    exact Function.update_of_ne (Nat.ne_of_lt hlt) _ _
  -- its words
  have h₂ : s₁.memcpy p (vpn ucow) v = { s₁ with mem := Function.update s₁.mem s.npage (s.mem m.pp) } := by
    unfold memcpy
    rw [hnew, hold, ← hmem]
  generalize hs₂ : s₁.memcpy p (vpn ucow) v = s₂ at h₂
  have hnew₂ : s₂.page p (vpn ucow) = some ⟨s.npage, flags⟩ := by
    rw [h₂]
    exact hnew
  -- its second mapping, which stays
  have h₃ : s₂.memMap p (vpn ucow) p v perm = s₂.setPage p v (some ⟨s.npage, flags⟩) := by
    unfold memMap
    rw [hucow, hlegal, hnew₂, ← hx]
    rfl
  have h₄ : (s₂.memMap p (vpn ucow) p v perm).memUnmap p (vpn ucow) =
      (s₂.setPage p v (some ⟨s.npage, flags⟩)).setPage p (vpn ucow) none := by
    unfold memUnmap
    rw [if_pos hucow, h₃]
  rw [h₄, h₂, h₁]
  unfold setPage
  congr 1
  have hpages : Function.update (Function.update (Function.update pr.pages (vpn ucow) (some ⟨s.npage, flags⟩)) v
      (some ⟨s.npage, flags⟩)) (vpn ucow) none = Function.update pr.pages v (some ⟨s.npage, flags⟩) := by
    rw [Function.update_comm hne.symm, Function.update_idem, Function.update_comm hne, ← hpu, Function.update_eq_self]
  simp only [setProc, hpr, Option.map_some, Function.update_self, Function.update_idem, hpages]

end Machine

theorem View.store_own {x : View} {p v o : Nat} {w : Word} {g : Page} (hg : x.page p v = some g) (hl : g.lib = none) :
    x.store p v g o w = x.setPage p v (some { g with data := Function.update g.data o w }) := by
  have hreach : ∀ q u h, Reaches p v g q u h ↔ q = p ∧ u = v :=
    fun q u h => ⟨fun hr => hr.elim id fun hc => absurd hl hc.1, .inl⟩
  refine View.ext (funext fun q => ?_) rfl
  show (x.procs q).map _ = Function.update x.procs p _ q
  unfold View.page at hg
  by_cases hq : q = p
  · subst hq
    obtain ⟨pr, hpr, hpg⟩ := Option.bind_eq_some_iff.1 hg
    rw [Function.update_self, hpr, Option.map_some, Option.map_some]
    refine congrArg some (ViewProc.ext (funext fun u => ?_) rfl rfl)
    show (pr.pages u).map _ = Function.update pr.pages v _ u
    by_cases hu : u = v
    · subst hu
      rw [Function.update_self, hpg, Option.map_some, if_pos (.inl ⟨rfl, rfl⟩)]
    · rw [Function.update_of_ne hu]
      cases pr.pages u with
      | none => rfl
      | some h => exact congrArg some (if_neg fun hr => hu ((hreach _ _ _).1 hr).2)
  · rw [Function.update_of_ne hq]
    cases x.procs q with
    | none => rfl
    | some pr =>
      refine congrArg some (ViewProc.ext (funext fun u => ?_) rfl rfl)
      show (pr.pages u).map _ = pr.pages u
      cases pr.pages u with
      | none => rfl
      | some h => exact congrArg some (if_neg fun hr => hq ((hreach _ _ _).1 hr).1)

namespace Apart

variable {s s' : Machine} {p v o : Nat} {w : Word} {m : Mapping}

/-- **A store through an entry with `PTE_D`.** -/
theorem view_store (h : Apart s) (hv : v < vpn ustacktop) (hm : s.page p v = some m) (hD : has m.perm pteD = true) :
    (s.store m.pp o w).view = s.view.store p v (s.pageView m) o w := by
  refine View.ext (funext fun q => ?_) rfl
  show (s.procs q).map (s.store m.pp o w).procView = ((s.procs q).map s.procView).map _
  cases hq : s.procs q with
  | none => rfl
  | some pr =>
    refine congrArg some (ViewProc.ext (funext fun u => ?_) rfl rfl)
    show (if u < vpn ustacktop then (pr.pages u).map (s.store m.pp o w).pageView else none) =
      (if u < vpn ustacktop then (pr.pages u).map s.pageView else none).map _
    split
    · rename_i hu
      cases hm' : pr.pages u with
      | none => rfl
      | some m' =>
        have hpage : s.page q u = some m' := Option.bind_eq_some_iff.2 ⟨pr, hq, hm'⟩
        -- the frame is the same exactly for what the write reaches
        have hiff : View.Reaches p v (s.pageView m) q u (s.pageView m') ↔ m'.pp = m.pp := by
          constructor
          · rintro (⟨rfl, rfl⟩ | ⟨hne, heq⟩)
            · rw [hm] at hpage
              rw [Option.some.inj hpage]
            · unfold Machine.pageView at hne heq
              dsimp only at hne heq
              split at hne
              · rename_i hl
                rw [if_pos hl] at heq
                split at heq
                · exact Option.some.inj heq
                · cases heq
              · exact absurd rfl hne
          · intro hpp
            by_cases hself : q = p ∧ u = v
            · exact .inl hself
            · obtain ⟨hl, hl'⟩ := h.alone p v m q u m' hv hu hm hpage hpp hD hself
              refine .inr ⟨?_, ?_⟩
              · simp [Machine.pageView, hl]
              · simp [Machine.pageView, hl, hl', hpp]
        simp only [Option.map_some]
        congr 1
        split
        · rename_i hr
          have hpp := hiff.1 hr
          unfold Machine.pageView Machine.store
          simp only [hpp, Function.update_self]
        · rename_i hr
          have hpp : m'.pp ≠ m.pp := fun hc => hr (hiff.2 hc)
          unfold Machine.pageView Machine.store
          simp only [Function.update_of_ne hpp]
    · rfl

theorem store (h : Apart s) (f : Nat) : Apart (s.store f o w) := h.mono (Nat.le_refl _) fun _ _ _ hm => hm

theorem copied_of (h : Apart s) (hv : v < vpn ustacktop) (hm : s.page p v = some m) (hD : has m.perm pteD = false)
    (hc : has m.perm pteCow = true) : has m.perm pteLibrary = false ∧ m.copied = true := by
  have hl : has m.perm pteLibrary = false := by
    rw [← Bool.not_eq_true]
    intro hl
    have hd := h.lib p v m hv hm hl hc
    rw [hD] at hd
    cases hd
  exact ⟨hl, by simp [Mapping.copied, hl, hc]⟩

/-- **A store after `cow_entry`.** -/
theorem view_copied (h : Apart s) (hv : v < vpn ustacktop) (hm : s.page p v = some m)
    (hl : has m.perm pteLibrary = false) (hc : m.copied = true) :
    ((s.copied p v m).store s.npage o w).view = s.view.store p v (s.pageView m) o w := by
  obtain ⟨hD, hcow, hlib⟩ := Machine.has_cowPerm m.perm
  let t : Machine :=
    { s with mem := Function.update s.mem s.npage (Function.update (s.mem m.pp) o w), npage := s.npage + 1 }
  have heq : (s.copied p v m).store s.npage o w = t.setPage p v (some ⟨s.npage, Machine.cowPerm m.perm⟩) := by
    simp [t, Machine.copied, Machine.store, Machine.setPage, Machine.setProc]
  have hview : t.view = s.view := Machine.view_congr rfl rfl fun q u m' _ hm' =>
    Function.update_of_ne (Nat.ne_of_lt (h.fresh q u m' hm')) _ _
  have hpage : s.view.page p v = some (s.pageView m) := by
    rw [Machine.view_page hv, hm, Option.map_some]
  have hnone : (s.pageView m).lib = none := by simp [Machine.pageView, hl]
  have hwr : has m.perm pteD = true ∨ has m.perm pteCow = true := by
    unfold Mapping.copied at hc
    rwa [hl, Bool.not_false, Bool.true_and, Bool.or_eq_true] at hc
  rw [heq, Machine.view_setPage hv, hview, View.store_own hpage hnone, Option.map_some]
  congr 2
  unfold Machine.pageView
  simp [t, hD, hlib, hl, hwr]

theorem copied (h : Apart s) (hv : v < vpn ustacktop) (hm : s.page p v = some m)
    (hc : m.copied = true) : Apart (s.copied p v m) := by
  obtain ⟨hD, hcow, hlib⟩ := Machine.has_cowPerm m.perm
  have hroom := h.room_none hv hm hc
  refine h.set v ⟨s.npage, Machine.cowPerm m.perm⟩ (Nat.le_succ _) (· = p) (fun q u m' hm' => ?_)
    (Nat.lt_succ_self _) (h.low p v m hv hm) ?_ ?_ ?_ ?_ ?_ ?_
  · rcases Machine.page_of_setPage hm' with ⟨hq, hu, hx⟩ | ⟨hne, hx⟩
    · exact .inr ⟨hq, hu, (Option.some.inj hx).symm⟩
    · exact .inl ⟨hne, hx⟩
  · exact fun _ _ => hD
  · exact fun _ _ => hcow
  · exact fun _ _ q q' hq hq' => hq.trans hq'.symm
  · intro q u m' _ _ hm' hpp
    exact absurd hpp (Nat.ne_of_lt (h.fresh q u m' hm'))
  · rintro - rfl
    rw [hroom] at hm
    cases hm
  · intro hall
    have hf := hall p v m hv hm
    rw [hf] at hc
    cases hc

/-- **A write changes what it reaches.** -/
theorem write (h : Apart s) (hv : v < vpn ustacktop) (p o : Nat) (w : Word) :
    (s.write p v o w).map Machine.view = s.view.write p v o w ∧ ∀ s', s.write p v o w = some s' → Apart s' := by
  unfold Machine.write View.write
  rw [Machine.view_page hv]
  cases hm : s.page p v with
  | none => exact ⟨rfl, fun _ hs => by cases hs⟩
  | some m =>
    simp only [Option.bind_some, Option.map_some]
    by_cases hD : has m.perm pteD = true
    · have hwr : (s.pageView m).writable = true := by simp [Machine.pageView, hD]
      rw [if_pos hD, if_pos hwr, Option.map_some, h.view_store hv hm hD]
      refine ⟨rfl, fun s' hs => ?_⟩
      cases hs
      exact h.store m.pp
    · rw [if_neg hD]
      by_cases hc : has m.perm pteCow = true
      · obtain ⟨hl, hcop⟩ := h.copied_of hv hm (Bool.eq_false_iff.2 hD) hc
        have hwr : (s.pageView m).writable = true := by simp [Machine.pageView, hc]
        rw [if_pos hwr, Machine.cowEntry_eq (h.fresh p v m hm) (h.low p v m hv hm) hv hm (h.room_none hv hm hcop p) hc]
        have hpage : (s.copied p v m).page p v = some ⟨s.npage, Machine.cowPerm m.perm⟩ := by
          obtain ⟨pr, hpr, -⟩ := Machine.page_procs hm
          unfold Machine.copied
          rw [Machine.page_setPage, if_pos ⟨rfl, rfl⟩]
          show (s.procs p).bind _ = _
          rw [hpr, Option.bind_some]
        simp only [hpage, Option.bind_some, if_pos (Machine.has_cowPerm m.perm).1, Option.map_some]
        refine ⟨congrArg some (h.view_copied hv hm hl hcop), fun s' hs => ?_⟩
        cases hs
        exact (h.copied hv hm hcop).store _
      · have hwr : ¬(s.pageView m).writable = true := by simp [Machine.pageView, hD, hc]
        have hpanic : s.cowEntry p v = none := by
          unfold Machine.cowEntry
          rw [hm, Option.bind_some, if_neg hc]
        rw [if_neg hwr, hpanic]
        refine ⟨congrArg some (View.ext (funext fun q => ?_) rfl), fun s' hs => ?_⟩
        · show (Function.update s.procs p none q).map s.procView = Function.update
              (fun q => (s.procs q).map s.procView) p none q
          by_cases hq : q = p
          · rw [hq, Function.update_self, Function.update_self]
            rfl
          · rw [Function.update_of_ne hq, Function.update_of_ne hq]
        · cases hs
          refine h.mono (Nat.le_refl _) fun q u m' hm' => ?_
          unfold Machine.page at hm' ⊢
          by_cases hq : q = p
          · have hgone : (s.panic p).procs q = none := by
              rw [hq]
              exact Function.update_self _ _ _
            rw [hgone] at hm'
            cases hm'
          · have hsame : (s.panic p).procs q = s.procs q := Function.update_of_ne hq _ _
            rwa [hsame] at hm'

end Apart

/-! ## `fork` -/

/-- **What a way to make a child does with one page**: the child has it, and nothing else changes. -/
structure Duplicates (dup : Machine → Nat → Nat → Nat → Machine) : Prop where
  view : ∀ s p c v m, Apart s → v < vpn ustacktop → s.page p v = some m →
    (dup s p c v).view = s.view.setPage c v (some (s.pageView m))
  apart : ∀ s p c v m, Apart s → v < vpn ustacktop → s.page p v = some m → Apart (dup s p c v)

theorem legal_of_low {v : Nat} (hlow : vpn utemp ≤ v) (hv : v < vpn ustacktop) : Machine.legal v = true := by
  have htop : vpn ustacktop < vpn utop := by decide
  exact decide_eq_true ⟨hlow, Nat.lt_trans hv htop⟩

theorem has_mapped (perm : Word) : has (perm ||| pteCCacheable ||| pteV) pteD = has perm pteD ∧
    has (perm ||| pteCCacheable ||| pteV) pteCow = has perm pteCow ∧
    has (perm ||| pteCCacheable ||| pteV) pteLibrary = has perm pteLibrary := by
  have h₁ : has pteCCacheable pteD = false ∧ has pteV pteD = false := by decide
  have h₂ : has pteCCacheable pteCow = false ∧ has pteV pteCow = false := by decide
  have h₃ : has pteCCacheable pteLibrary = false ∧ has pteV pteLibrary = false := by decide
  simp [has_or, h₁, h₂, h₃]

theorem pageView_eq {s s' : Machine} {m m' : Mapping} (hmem : s'.mem = s.mem) (hpp : m'.pp = m.pp)
    (hl : has m'.perm pteLibrary = has m.perm pteLibrary)
    (hw : (has m'.perm pteD || has m'.perm pteCow) = (has m.perm pteD || has m.perm pteCow)) :
    s'.pageView m' = s.pageView m := by
  unfold Machine.pageView
  rw [hmem, hpp, hl, hw]

namespace Apart

variable {s : Machine} {p c v : Nat} {m : Mapping}

/-- **The child maps the frame as the parent does**, which is no writable page of its own. -/
theorem share (h : Apart s) (hv : v < vpn ustacktop) (hm : s.page p v = some m) {m₀ : Mapping} (hpp : m₀.pp = m.pp)
    (hl : has m₀.perm pteLibrary = has m.perm pteLibrary) (hd : has m₀.perm pteD = has m.perm pteD)
    (hc : has m₀.perm pteCow = has m.perm pteCow) (hshared : has m.perm pteD = true → has m.perm pteLibrary = true) :
    (s.setPage c v (some m₀)).view = s.view.setPage c v (some (s.pageView m)) ∧ Apart (s.setPage c v (some m₀)) := by
  constructor
  · rw [Machine.view_setPage hv, Option.map_some, pageView_eq rfl hpp hl (by rw [hd, hc])]
  · refine h.set v m₀ (Nat.le_refl _) (· = c) (fun q u m' hm' => ?_) (hpp ▸ h.fresh p v m hm) (h.low p v m hv hm)
      ?_ ?_ ?_ ?_ ?_ ?_
    · rcases Machine.page_of_setPage hm' with ⟨hq, hu, hx⟩ | ⟨hne, hx⟩
      · exact .inr ⟨hq, hu, (Option.some.inj hx).symm⟩
      · exact .inl ⟨hne, hx⟩
    · rw [hl, hc, hd]
      exact h.lib p v m hv hm
    · rw [hl, hd, hc]
      exact h.own p v m hv hm
    · rw [hl, hd]
      intro hD hL
      rw [hshared hD] at hL
      cases hL
    · intro q u m' hne hu hm' hpp' hD
      rw [hl]
      rw [hd] at hD
      by_cases hself : q = p ∧ u = v
      · obtain ⟨rfl, rfl⟩ := hself
        obtain rfl : m = m' := Option.some.inj (hm.symm.trans hm')
        have hlib := hshared (hD.elim id id)
        exact ⟨hlib, hlib⟩
      · rcases hD with hD | hD
        · exact h.alone q u m' p v m hu hv hm' hm (hpp.symm.trans hpp'.symm) hD fun hc => hself ⟨hc.1.symm, hc.2.symm⟩
        · exact (h.alone p v m q u m' hv hu hm hm' (hpp'.trans hpp) hD hself).symm
    · rintro hall rfl
      rw [hall] at hm
      cases hm
    · intro hall
      have hno := hall p v m hv hm
      unfold Mapping.copied at hno ⊢
      rw [hl, hd, hc]
      exact hno

end Apart

/-- **`duppage`** -/
theorem duplicates_duppage : Duplicates Machine.duppage := by
  have hboth : ∀ s p c v m, Apart s → v < vpn ustacktop → s.page p v = some m →
      (Machine.duppage s p c v).view = s.view.setPage c v (some (s.pageView m)) ∧ Apart (Machine.duppage s p c v) := by
    intro s p c v m h hv hm
    have hlegal := legal_of_low (h.low p v m hv hm) hv
    have hmap : ∀ (t : Machine) (m' : Mapping) (q : Nat) (perm : Word), t.page p v = some m' →
        t.memMap p v q v perm = t.setPage q v (some ⟨m'.pp, perm ||| pteCCacheable ||| pteV⟩) := by
      intro t m' q perm ht
      unfold Machine.memMap
      rw [hlegal, ht]
      rfl
    have hpage : s.view.page p v = some (s.pageView m) := by
      rw [Machine.view_page hv, hm, Option.map_some]
    unfold Machine.duppage
    rw [hm]
    dsimp only
    split
    · rename_i hcond
      simp only [Bool.and_eq_true, Bool.not_eq_true'] at hcond
      obtain ⟨⟨hD, hL⟩, hC⟩ := hcond
      obtain ⟨hd, hc, hl⟩ := has_mapped (m.perm &&& 0 ||| pteCow)
      have hflags : has (m.perm &&& 0 ||| pteCow) pteD = false ∧ has (m.perm &&& 0 ||| pteCow) pteCow = true ∧
          has (m.perm &&& 0 ||| pteCow) pteLibrary = false := by
        have hzero : m.perm &&& 0 = 0 := BitVec.and_zero
        rw [hzero]
        decide
      rw [hflags.1] at hd
      rw [hflags.2.1] at hc
      rw [hflags.2.2] at hl
      generalize m.perm &&& 0 ||| pteCow = perm at hd hc hl
      rw [hmap s m c perm hm]
      generalize hm₀ : (⟨m.pp, perm ||| pteCCacheable ||| pteV⟩ : Mapping) = m₀
      have hpp : m₀.pp = m.pp := by rw [← hm₀]
      have hd₀ : has m₀.perm pteD = false := by rw [← hm₀]; exact hd
      have hc₀ : has m₀.perm pteCow = true := by rw [← hm₀]; exact hc
      have hl₀ : has m₀.perm pteLibrary = false := by rw [← hm₀]; exact hl
      -- the parent still maps the frame, and maps it again like the child
      obtain ⟨m₁, hm₁, hpp₁⟩ : ∃ m₁, (s.setPage c v (some m₀)).page p v = some m₁ ∧ m₁.pp = m.pp := by
        rw [Machine.page_setPage]
        split
        · rename_i hcp
          obtain ⟨pr, hpr, -⟩ := Machine.page_procs hm
          rw [← hcp.1, hpr]
          exact ⟨m₀, rfl, hpp⟩
        · exact ⟨m, hm, rfl⟩
      rw [hmap _ m₁ p perm hm₁, hpp₁, hm₀]
      constructor
      · have hsame : s.pageView m₀ = s.pageView m :=
          pageView_eq rfl hpp (hl₀.trans hL.symm) (by rw [hd₀, hc₀, hD]; rfl)
        have hchild : (s.setPage c v (some m₀)).view = s.view.setPage c v (some (s.pageView m)) := by
          rw [Machine.view_setPage hv, Option.map_some, hsame]
        rw [Machine.view_setPage hv, hchild, Option.map_some]
        rw [show (s.setPage c v (some m₀)).pageView m₀ = s.pageView m from hsame]
        exact View.setPage_same (View.page_setPage_self hpage c)
      · refine h.set v m₀ (Nat.le_refl _) (fun q => q = p ∨ q = c) (fun q u m' hm' => ?_) (hpp ▸ h.fresh p v m hm)
          (h.low p v m hv hm) ?_ ?_ ?_ ?_ ?_ ?_
        · rcases Machine.page_of_setPage hm' with ⟨hq, hu, hx⟩ | ⟨hne, hm'⟩
          · exact .inr ⟨.inl hq, hu, (Option.some.inj hx).symm⟩
          · rcases Machine.page_of_setPage hm' with ⟨hq, hu, hx⟩ | ⟨hne', hm'⟩
            · exact .inr ⟨.inr hq, hu, (Option.some.inj hx).symm⟩
            · exact .inl ⟨fun hc => hc.1.elim (fun hq => hne ⟨hq, hc.2⟩) fun hq => hne' ⟨hq, hc.2⟩, hm'⟩
        · rw [hl₀]
          exact fun hf => by cases hf
        · rw [hd₀]
          exact fun _ hf => by cases hf
        · rw [hd₀]
          exact fun hf => by cases hf
        · intro q u m' hne hu hm' hpp' hD'
          rw [hd₀] at hD'
          have hD'' := hD'.resolve_right (by simp)
          have hself : ¬(p = q ∧ v = u) := fun hc => hne ⟨.inl hc.1.symm, hc.2.symm⟩
          have hlib := h.alone q u m' p v m hu hv hm' hm (hpp.symm.trans hpp'.symm) hD'' hself
          rw [hL] at hlib
          cases hlib.2
        · rintro hall rfl
          rw [hall] at hm
          cases hm
        · intro hall
          have hno := hall p v m hv hm
          unfold Mapping.copied at hno
          rw [hL, hD] at hno
          cases hno
    · rename_i hcond
      obtain ⟨hd, hc, hl⟩ := has_mapped m.perm
      rw [hmap s m c m.perm hm]
      refine h.share hv hm rfl hl hd hc fun hD => ?_
      by_contra hL
      rw [Bool.not_eq_true] at hL
      have hC := h.own p v m hv hm hL hD
      rw [hD, hL, hC] at hcond
      exact hcond rfl
  exact ⟨fun s p c v m h hv hm => (hboth s p c v m h hv hm).1, fun s p c v m h hv hm => (hboth s p c v m h hv hm).2⟩

/-- **`copypage`** -/
theorem duplicates_copypage : Duplicates Machine.copypage := by
  have hboth : ∀ s p c v m, Apart s → v < vpn ustacktop → s.page p v = some m →
      (Machine.copypage s p c v).view = s.view.setPage c v (some (s.pageView m)) ∧
      Apart (Machine.copypage s p c v) := by
    intro s p c v m h hv hm
    unfold Machine.copypage
    rw [hm]
    dsimp only
    split
    · rename_i hL
      exact h.share hv hm rfl rfl rfl rfl fun _ => hL
    · rename_i hL
      rw [Bool.not_eq_true] at hL
      let t : Machine := { s with mem := Function.update s.mem s.npage (s.mem m.pp), npage := s.npage + 1 }
      have hview : t.view = s.view := Machine.view_congr rfl rfl fun q u m' _ hm' =>
        Function.update_of_ne (Nat.ne_of_lt (h.fresh q u m' hm')) _ _
      constructor
      · rw [Machine.view_setPage hv, Option.map_some]
        show t.view.setPage c v _ = _
        rw [hview]
        congr 2
        unfold Machine.pageView
        simp [hL]
      · refine h.set v ⟨s.npage, m.perm⟩ (Nat.le_succ _) (· = c) (fun q u m' hm' => ?_) (Nat.lt_succ_self _)
          (h.low p v m hv hm) (h.lib p v m hv hm) (h.own p v m hv hm) ?_ ?_ ?_ ?_
        · rcases Machine.page_of_setPage hm' with ⟨hq, hu, hx⟩ | ⟨hne, hx⟩
          · exact .inr ⟨hq, hu, (Option.some.inj hx).symm⟩
          · exact .inl ⟨hne, hx⟩
        · exact fun _ _ q q' hq hq' => hq.trans hq'.symm
        · intro q u m' _ _ hm' hpp
          exact absurd hpp (Nat.ne_of_lt (h.fresh q u m' hm'))
        · rintro hall rfl
          rw [hall] at hm
          cases hm
        · exact fun hall => hall p v m hv hm
  exact ⟨fun s p c v m h hv hm => (hboth s p c v m h hv hm).1, fun s p c v m h hv hm => (hboth s p c v m h hv hm).2⟩

end Forking

end Mos
