import Mos.PipeShare
import Mos.Lib.Count
/-!
# ClosedSound — when `_pipe_is_closed` may be believed

`pipe_close` takes away a descriptor before the pipe behind it and `dup` maps the pipe before the descriptor, so a
process that runs has, at every system call, the pipe mapped for each descriptor (`Paired`).  `fork` copies pages in
the order of their addresses, which puts the descriptors first: until its loop gets to the data, the child is counted
among the descriptors and not among the pipes.
-/
namespace Mos

namespace Sharing

/-! ## Addresses -/

theorem fdVpn_lt {i : Nat} (h : i < maxFd) : fdVpn i = 0x5fc00 + i := by
  unfold maxFd at h
  unfold fdVpn vpns
  omega

theorem dataVpn_lt {i : Nat} (h : i < maxFd) : dataVpn i = 0x60000 + i * 1024 := by
  unfold maxFd at h
  unfold dataVpn vpns
  omega

theorem fdVpn_lt_vpns (i : Nat) : fdVpn i < vpns := Nat.mod_lt _ (by decide)

theorem dataVpn_lt_vpns (i : Nat) : dataVpn i < vpns := Nat.mod_lt _ (by decide)

/-- The numbers `i` and `j` name the same descriptor. -/
def SameFd (i j : Nat) : Prop := j < maxFd ∧ fdVpn i = fdVpn j ∧ dataVpn i = dataVpn j

theorem sameFd_of_fdVpn {i j : Nat} (hj : j < maxFd) (h : fdVpn i = fdVpn j) : SameFd i j := by
  refine ⟨hj, h, ?_⟩
  rw [fdVpn_lt hj] at h
  rw [dataVpn_lt hj]
  unfold fdVpn vpns at h
  unfold maxFd at hj
  unfold dataVpn vpns
  omega

theorem sameFd_refl {i : Nat} (h : i < maxFd) : SameFd i i := ⟨h, rfl, rfl⟩

/-! ## What a process has -/

variable {pages : Nat → Option PipePage}

/-- **Every descriptor of the pipe is in the table, and has the pipe mapped behind it.** -/
def Paired (pages : Nat → Option PipePage) : Prop :=
  ∀ v e, pages v = some (.fd e) → ∃ i, i < maxFd ∧ v = fdVpn i ∧ pages (dataVpn i) = some .data

/-- Descriptor `i` is not one of the pipe. -/
def NoFd (pages : Nat → Option PipePage) (i : Nat) : Prop := ∀ e, pages (fdVpn i) ≠ some (.fd e)

/-- One page is written: a new descriptor has its pipe, and no descriptor loses its own. -/
theorem Paired.write (h : Paired pages) {v : Nat} {x : Option PipePage}
    (hx : ∀ e, x = some (.fd e) → ∃ i, i < maxFd ∧ v = fdVpn i ∧ pages (dataVpn i) = some .data)
    (hv : ∀ i, i < maxFd → v = dataVpn i → x = some .data ∨ NoFd pages i) : Paired (Function.update pages v x) := by
  intro w e hw
  have hkey : ∃ i, i < maxFd ∧ w = fdVpn i ∧ pages (dataVpn i) = some .data ∧ (v = dataVpn i → x = some .data) := by
    by_cases hwv : w = v
    · subst hwv
      rw [Function.update_self] at hw
      obtain ⟨i, hi, hwi, hd⟩ := hx e hw
      refine ⟨i, hi, hwi, hd, fun hvd => ?_⟩
      rw [hwi, fdVpn_lt hi, dataVpn_lt hi] at hvd
      unfold maxFd at hi
      omega
    · rw [Function.update_of_ne hwv] at hw
      obtain ⟨i, hi, hwi, hd⟩ := h w e hw
      exact ⟨i, hi, hwi, hd, fun hvd => (hv i hi hvd).resolve_right fun hn => hn e (hwi ▸ hw)⟩
  obtain ⟨i, hi, hwi, hd, hvd⟩ := hkey
  refine ⟨i, hi, hwi, ?_⟩
  by_cases hdv : dataVpn i = v
  · rw [hdv, Function.update_self]
    exact hvd hdv.symm
  · rw [Function.update_of_ne hdv]
    exact hd

theorem NoFd.write {i v : Nat} {x : Option PipePage} (h : NoFd pages i) (hx : v = fdVpn i → ∀ e, x ≠ some (.fd e)) :
    NoFd (Function.update pages v x) i := by
  intro e
  by_cases hv : fdVpn i = v
  · rw [hv, Function.update_self]
    exact hx hv.symm e
  · rw [Function.update_of_ne hv]
    exact h e

/-- The numbers of a `dup`. -/
def DupOk (o n : Nat) : Prop := (∃ j, SameFd o j) ∧ n < maxFd

variable {s s' : Sharing} {p : Nat} {y : Sharer}

/-- What `close` goes back to. -/
def RetOk (i : Nat) (ret : Option (Nat × Nat)) : Prop := ∀ o n, ret = some (o, n) → n = i ∧ DupOk o n

/-- **What holds of `p` at each place.** -/
def At (s : Sharing) (p : Nat) (y : Sharer) : Prop :=
  match y.pc with
  | .idle => Paired y.pages
  | .pipe k i j => i < j ∧ j < maxFd ∧ s.nprocs = 1 ∧
      (∀ v, y.pages v ≠ none → 0 < k ∧ v = fdVpn i ∨ 1 < k ∧ v = fdVpn j ∨ 2 < k ∧ v = dataVpn i) ∧
      (2 < k → y.pages (dataVpn i) = some .data)
  | .closeFd i ret => (∃ j, SameFd i j) ∧ Paired y.pages ∧ RetOk i ret
  | .closeData i ret => (∃ j, SameFd i j) ∧ Paired y.pages ∧ NoFd y.pages i ∧ RetOk i ret
  | .fdClose i ret => (∃ j, SameFd i j) ∧ Paired y.pages ∧ NoFd y.pages i ∧ RetOk i ret
  | .dupMap o n k => DupOk o n ∧ Paired y.pages ∧ NoFd y.pages n ∧
      (0 < k → y.pages (dataVpn o) = some .data → y.pages (dataVpn n) = some .data)
  | .dupFd o n => DupOk o n ∧ Paired y.pages ∧ NoFd y.pages n ∧
      (y.pages (dataVpn o) = some .data → y.pages (dataVpn n) = some .data)
  | .dupErr n => n < maxFd ∧ Paired y.pages ∧ NoFd y.pages n
  | .dupErrData n _ => n < maxFd ∧ Paired y.pages ∧ NoFd y.pages n
  | .fork c v => Paired y.pages ∧ ∃ z, s.procs c = some z ∧ z.pc = .embryo p ∧
      (∀ w X, z.pages w = some X → y.pages w = some X) ∧ ∀ w, w < v → w < vpnUstacktop → z.pages w = y.pages w
  | .embryo q => ∃ v x, s.procs q = some x ∧ x.pc = .fork p v ∧ Paired x.pages ∧
      ∀ w X, y.pages w = some X → x.pages w = some X
  | .panicked => Paired y.pages

/-- The pages of all processes, one table. -/
def table (s : Sharing) (x : Nat × Nat) : Option PipePage := (s.procs x.1).bind fun y => y.pages x.2

/-- The places of the table. -/
def cells (s : Sharing) : Finset (Nat × Nat) := Finset.range s.nprocs ×ˢ Finset.range vpns

/-- **The processes between two system calls.** -/
structure Inv (s : Sharing) : Prop where
  lt : ∀ p y, s.procs p = some y → p < s.nprocs
  legal : ∀ p y v, s.procs p = some y → y.pages v ≠ none → v < vpns ∧ v ∈ y.dom
  ref : ∀ X, s.ref X = count s.cells s.table X
  place : ∀ p y, s.procs p = some y → At s p y

/-! ## The counts -/

theorem mem_cells {p v : Nat} (hp : p < s.nprocs) (hv : v < vpns) : (p, v) ∈ s.cells := by
  unfold cells
  exact Finset.mem_product.2 ⟨Finset.mem_range.2 hp, Finset.mem_range.2 hv⟩

theorem table_of {v : Nat} (h : s.procs p = some y) : s.table (p, v) = y.pages v := by
  unfold table
  rw [h]
  rfl

theorem write_procs (v : Nat) (x : Option PipePage) (pc : SharePc) :
    (s.write p y v x pc).procs = Function.update s.procs p (some ⟨pc, Function.update y.pages v x, v :: y.dom⟩) := rfl

theorem ref_write (h : Inv s) (hp : s.procs p = some y) {v : Nat} (hv : v < vpns) (x : Option PipePage) (pc : SharePc) :
    ∀ X, (s.write p y v x pc).ref X = count (s.write p y v x pc).cells (s.write p y v x pc).table X := by
  intro X
  have hmem : (p, v) ∈ s.cells := mem_cells (h.lt p y hp) hv
  have hnew : (s.write p y v x pc).table (p, v) = x := by
    rw [table_of (by rw [write_procs, Function.update_self])]
    exact Function.update_self ..
  have hout : ∀ c ∈ s.cells, c ≠ (p, v) → (s.write p y v x pc).table c = s.table c := by
    intro c _ hc
    by_cases hcp : c.1 = p
    · have hcv : c.2 ≠ v := fun hcv => hc (Prod.ext hcp hcv)
      obtain ⟨c1, c2⟩ := c
      obtain rfl : c1 = p := hcp
      rw [table_of hp, table_of (by rw [write_procs, Function.update_self])]
      exact Function.update_of_ne hcv ..
    · unfold table
      rw [write_procs, Function.update_of_ne hcp]
  have hw := count_write s.table (s.write p y v x pc).table hmem hout X
  rw [hnew, table_of hp] at hw
  have hcells : (s.write p y v x pc).cells = s.cells := rfl
  have hpos : y.pages v = some X → 0 < count s.cells s.table X := fun hX => count_pos hmem (by rw [table_of hp, hX])
  show s.ref X - (if y.pages v = some X then 1 else 0) + (if x = some X then 1 else 0) = _
  rw [hcells, h.ref X]
  split at hw
  · rename_i hX
    have := hpos hX
    rw [if_pos hX]
    omega
  · rename_i hX
    rw [if_neg hX]
    omega

theorem goto_procs (pc : SharePc) : (s.goto p y pc).procs = Function.update s.procs p (some { y with pc := pc }) := rfl

theorem ref_goto (h : ∀ X, s.ref X = count s.cells s.table X) (hp : s.procs p = some y) (pc : SharePc) :
    ∀ X, (s.goto p y pc).ref X = count (s.goto p y pc).cells (s.goto p y pc).table X := by
  intro X
  rw [show (s.goto p y pc).ref X = s.ref X from rfl, h X]
  refine (count_congr (fun c _ => ?_) X).symm
  unfold table
  rw [goto_procs]
  by_cases hc : c.1 = p
  · rw [hc, Function.update_self, hp]
    rfl
  · rw [Function.update_of_ne hc]

/-! ## A step of one process -/

/-- The place of a process does not depend on the others, except that a parent has its child and a child its parent. -/
theorem At.other {q : Nat} {z : Sharer} (h : At s q z) (hi : Inv s) (hq : s.procs q = some z)
    (hp : s.procs p = some y) (hne : q ≠ p)
    (hkeep : ∀ r x, s.procs r = some x → (x.pc = .embryo q ∨ ∃ v, x.pc = .fork q v) → s'.procs r = some x) :
    At s' q z := by
  unfold At at h ⊢
  cases hpc : z.pc with
  | pipe k i j =>
    rw [hpc] at h
    have h1 := hi.lt _ _ hq
    have h2 := hi.lt _ _ hp
    have hn : s.nprocs = 1 := h.2.2.1
    omega
  | fork c v =>
    rw [hpc] at h
    obtain ⟨hpr, x, hc, hx, hrest⟩ := h
    exact ⟨hpr, x, hkeep c x hc (.inl hx), hx, hrest⟩
  | embryo r =>
    rw [hpc] at h
    obtain ⟨v, x, hr, hx, hrest⟩ := h
    exact ⟨v, x, hkeep r x hr (.inr ⟨v, hx⟩), hx, hrest⟩
  | idle | closeFd | closeData | fdClose | dupMap | dupFd | dupErr | dupErrData | panicked =>
    rw [hpc] at h
    exact h

theorem Inv.set (h : Inv s) (hp : s.procs p = some y) {y' : Sharer} (hnf : ∀ c v, y.pc ≠ .fork c v)
    (hnm : ∀ r, y.pc ≠ .embryo r) (hs' : s'.procs = Function.update s.procs p (some y')) (hn : s'.nprocs = s.nprocs)
    (href : ∀ X, s'.ref X = count s'.cells s'.table X) (hlegal : ∀ v, y'.pages v ≠ none → v < vpns ∧ v ∈ y'.dom)
    (hat : At s' p y') : Inv s' := by
  have hcases : ∀ q z, s'.procs q = some z → (q = p ∧ z = y') ∨ (q ≠ p ∧ s.procs q = some z) := by
    intro q z hz
    by_cases hq : q = p
    · rw [hq, hs', Function.update_self] at hz
      exact .inl ⟨hq, (Option.some.inj hz).symm⟩
    · rw [hs', Function.update_of_ne hq] at hz
      exact .inr ⟨hq, hz⟩
  refine ⟨fun q z hz => ?_, fun q z v hz hv => ?_, href, fun q z hz => ?_⟩
  · rw [hn]
    rcases hcases q z hz with ⟨rfl, -⟩ | ⟨-, hz⟩
    · exact h.lt _ _ hp
    · exact h.lt _ _ hz
  · rcases hcases q z hz with ⟨-, rfl⟩ | ⟨-, hz⟩
    · exact hlegal v hv
    · exact h.legal q z v hz hv
  · rcases hcases q z hz with ⟨rfl, rfl⟩ | ⟨hq, hz⟩
    · exact hat
    · refine (h.place q z hz).other h hz hp hq fun r x hr hx => ?_
      rw [hs', Function.update_of_ne, hr]
      rintro rfl
      rw [hp] at hr
      cases hr
      rcases hx with hx | ⟨v, hx⟩
      · exact hnm q hx
      · exact hnf q v hx

theorem legal_write (h : Inv s) (hp : s.procs p = some y) {v : Nat} (hv : v < vpns) (x : Option PipePage) :
    ∀ w, Function.update y.pages v x w ≠ none → w < vpns ∧ w ∈ v :: y.dom := by
  intro w hw
  by_cases hwv : w = v
  · exact ⟨hwv ▸ hv, by simp [hwv]⟩
  · rw [Function.update_of_ne hwv] at hw
    obtain ⟨hlt, hmem⟩ := h.legal p y w hp hw
    exact ⟨hlt, List.mem_cons_of_mem _ hmem⟩

theorem Inv.wrote (h : Inv s) (hp : s.procs p = some y) {v : Nat} {x : Option PipePage} {pc : SharePc}
    (hnf : ∀ c v, y.pc ≠ .fork c v) (hnm : ∀ r, y.pc ≠ .embryo r) (hv : v < vpns)
    (hat : At (s.write p y v x pc) p ⟨pc, Function.update y.pages v x, v :: y.dom⟩) : Inv (s.write p y v x pc) :=
  h.set hp hnf hnm (write_procs v x pc) rfl (ref_write h hp hv x pc) (legal_write h hp hv x) hat

theorem Inv.went (h : Inv s) (hp : s.procs p = some y) {pc : SharePc} (hnf : ∀ c v, y.pc ≠ .fork c v)
    (hnm : ∀ r, y.pc ≠ .embryo r) (hat : At (s.goto p y pc) p { y with pc := pc }) : Inv (s.goto p y pc) :=
  h.set hp hnf hnm (goto_procs pc) rfl (ref_goto h.ref hp pc) (fun v hv => h.legal p y v hp hv) hat

theorem At.of_pc {pc : SharePc} (h : At s p y) (hpc : y.pc = pc) : At s p { y with pc := pc } := by
  rw [← hpc]
  exact h

theorem run_pipe {ok : Bool} (h : Inv s) (hp : s.procs p = some y) {k i j : Nat} (hpc : y.pc = .pipe k i j)
    (hs : s.run p y ok = some s') : Inv s' := by
  have hnf : ∀ c v, y.pc ≠ .fork c v := fun c v hc => by simp [hpc] at hc
  have hnm : ∀ r, y.pc ≠ .embryo r := fun r hr => by simp [hpc] at hr
  obtain ⟨hij, hj, hn, hpages, hdata⟩ : At s p { y with pc := .pipe k i j } := (h.place p y hp).of_pc hpc
  dsimp only at hpages hdata
  unfold run at hs
  rw [hpc] at hs
  rcases k with _ | _ | _ | k
  · cases hs
    refine h.wrote hp hnf hnm (fdVpn_lt_vpns i) ⟨hij, hj, hn, fun v hv => ?_, fun h => by omega⟩
    by_cases hvi : v = fdVpn i
    · exact .inl ⟨by omega, hvi⟩
    · dsimp only at hv
      rw [Function.update_of_ne hvi] at hv
      have := hpages v hv
      omega
  · cases hs
    refine h.wrote hp hnf hnm (fdVpn_lt_vpns j) ⟨hij, hj, hn, fun v hv => ?_, fun h => by omega⟩
    by_cases hvj : v = fdVpn j
    · exact .inr (.inl ⟨by omega, hvj⟩)
    · dsimp only at hv
      rw [Function.update_of_ne hvj] at hv
      have := hpages v hv
      omega
  · cases hs
    refine h.wrote hp hnf hnm (dataVpn_lt_vpns i) ⟨hij, hj, hn, fun v hv => ?_, fun _ => Function.update_self ..⟩
    by_cases hvi : v = dataVpn i
    · exact .inr (.inr ⟨by omega, hvi⟩)
    · dsimp only at hv
      rw [Function.update_of_ne hvi] at hv
      have := hpages v hv
      omega
  · cases hs
    refine h.wrote hp hnf hnm (dataVpn_lt_vpns j)
      (show Paired (Function.update y.pages (dataVpn j) (some .data)) from ?_)
    have hi : i < maxFd := by omega
    have hdi := hdata (by omega)
    intro v e hv
    have hvj : v ≠ dataVpn j := fun hvj => by
      rw [hvj, Function.update_self] at hv
      cases hv
    rw [Function.update_of_ne hvj] at hv
    rcases hpages v (by rw [hv]; exact nofun) with ⟨-, rfl⟩ | ⟨-, rfl⟩ | ⟨-, rfl⟩
    · refine ⟨i, hi, rfl, ?_⟩
      rw [Function.update_of_ne (by rw [dataVpn_lt hi, dataVpn_lt hj]; omega)]
      exact hdi
    · exact ⟨j, hj, rfl, Function.update_self ..⟩
    · rw [hdi] at hv
      cases hv

theorem run_close {ok : Bool} (h : Inv s) (hp : s.procs p = some y) {i : Nat} {ret : Option (Nat × Nat)}
    (hpc : y.pc = .closeFd i ret ∨ y.pc = .closeData i ret ∨ y.pc = .fdClose i ret) (hs : s.run p y ok = some s') :
    Inv s' := by
  have hnf : ∀ c v, y.pc ≠ .fork c v := fun c v hc => by rcases hpc with h | h | h <;> simp [hc] at h
  have hnm : ∀ r, y.pc ≠ .embryo r := fun r hr => by rcases hpc with h | h | h <;> simp [hr] at h
  -- a page of the descriptor goes; no other descriptor has its pipe there
  have hfd : ∀ j, SameFd i j → Paired y.pages → Paired (Function.update y.pages (fdVpn i) none) := fun j hj hpr => by
    refine hpr.write nofun fun m hm hv => ?_
    have hjm := hj.1
    rw [hj.2.1, fdVpn_lt hj.1, dataVpn_lt hm] at hv
    unfold maxFd at hm hjm
    omega
  have hno : ∀ x : Option PipePage, x = none → NoFd (Function.update y.pages (fdVpn i) x) i := fun x hx e => by
    rw [Function.update_self, hx]
    exact nofun
  unfold run at hs
  rcases hpc with hpc | hpc | hpc
  · obtain ⟨⟨j, hj⟩, hpr, hret⟩ : At s p { y with pc := .closeFd i ret } := (h.place p y hp).of_pc hpc
    rw [hpc] at hs
    cases hs
    exact h.wrote hp hnf hnm (fdVpn_lt_vpns i) ⟨⟨j, hj⟩, hfd j hj hpr, hno none rfl, hret⟩
  · obtain ⟨⟨j, hj⟩, hpr, hnofd, hret⟩ : At s p { y with pc := .closeData i ret } := (h.place p y hp).of_pc hpc
    rw [hpc] at hs
    cases hs
    refine h.wrote hp hnf hnm (dataVpn_lt_vpns i) ⟨⟨j, hj⟩, ?_, ?_, hret⟩
    · refine Paired.write hpr nofun fun m hm hv => .inr ?_
      obtain rfl : m = j := by
        rw [hj.2.2, dataVpn_lt hj.1, dataVpn_lt hm] at hv
        omega
      intro e
      rw [← hj.2.1]
      exact hnofd e
    · exact NoFd.write hnofd fun _ => nofun
  · obtain ⟨⟨j, hj⟩, hpr, -, hret⟩ : At s p { y with pc := .fdClose i ret } := (h.place p y hp).of_pc hpc
    rw [hpc] at hs
    cases hs
    cases ret with
    | none => exact h.wrote hp hnf hnm (fdVpn_lt_vpns i) (hfd j hj hpr)
    | some on =>
      obtain ⟨o, n⟩ := on
      obtain ⟨rfl, hdup⟩ := hret o n rfl
      exact h.wrote hp hnf hnm (fdVpn_lt_vpns n) ⟨hdup, hfd j hj hpr, hno none rfl, fun h => absurd h (Nat.lt_irrefl 0)⟩

theorem run_dupMap {ok : Bool} (h : Inv s) (hp : s.procs p = some y) {o n k : Nat} (hpc : y.pc = .dupMap o n k)
    (hs : s.run p y ok = some s') : Inv s' := by
  have hnf : ∀ c v, y.pc ≠ .fork c v := fun c v hc => by simp [hpc] at hc
  have hnm : ∀ r, y.pc ≠ .embryo r := fun r hr => by simp [hpc] at hr
  obtain ⟨⟨⟨j, hj⟩, hn⟩, hpr, hno, hk⟩ : At s p { y with pc := .dupMap o n k } := (h.place p y hp).of_pc hpc
  dsimp only at hk
  unfold run at hs
  rw [hpc] at hs
  dsimp only at hs
  have hjm := hj.1
  unfold maxFd at hn hjm
  split at hs
  · rename_i hk1024
    cases hsrc : y.pages (dataVpn o + k) with
    | none =>
      rw [hsrc] at hs
      cases hs
      refine h.went hp hnf hnm ⟨⟨⟨j, hj⟩, hn⟩, hpr, hno, fun _ hd => hk (Nat.pos_of_ne_zero fun h0 => ?_) hd⟩
      rw [h0, Nat.add_zero] at hsrc
      rw [show y.pages (dataVpn o) = none from hsrc] at hd
      cases hd
    | some X =>
      rw [hsrc] at hs
      dsimp only at hs
      split at hs
      · cases hs
        have hv : (dataVpn n + k) % vpns = 0x60000 + n * 1024 + k := by
          rw [dataVpn_lt hn]
          unfold vpns
          omega
        obtain rfl : X = .data := by
          cases X with
          | data => rfl
          | fd e =>
            obtain ⟨i, hi, hvi, -⟩ := hpr _ e hsrc
            rw [hj.2.2, dataVpn_lt hj.1, fdVpn_lt hi] at hvi
            unfold maxFd at hi
            omega
        refine h.wrote hp hnf hnm (Nat.mod_lt _ (by decide))
          ⟨⟨⟨j, hj⟩, hn⟩, hpr.write nofun fun _ _ _ => .inl rfl, hno.write fun _ => nofun, fun _ hd => ?_⟩
        dsimp only at hd ⊢
        rw [hv] at hd ⊢
        by_cases hk0 : k = 0
        · rw [hk0, Nat.add_zero, ← dataVpn_lt hn, Function.update_self]
        · rw [Function.update_of_ne (by rw [hj.2.2, dataVpn_lt hj.1]; omega)] at hd
          rw [Function.update_of_ne (by rw [dataVpn_lt hn]; omega)]
          exact hk (by omega) hd
      · cases hs
        exact h.went hp hnf hnm ⟨hn, hpr, hno⟩
  · cases hs
    exact h.went hp hnf hnm ⟨⟨⟨j, hj⟩, hn⟩, hpr, hno, hk (by omega)⟩

/-- The step of `dup` that maps the descriptor: its pipe is there already. -/
theorem run_dupFd {ok : Bool} (h : Inv s) (hp : s.procs p = some y) {o n : Nat} (hpc : y.pc = .dupFd o n)
    (hs : s.run p y ok = some s') : Inv s' := by
  have hnf : ∀ c v, y.pc ≠ .fork c v := fun c v hc => by simp [hpc] at hc
  have hnm : ∀ r, y.pc ≠ .embryo r := fun r hr => by simp [hpc] at hr
  obtain ⟨⟨⟨j, hj⟩, hn⟩, hpr, hno, hd⟩ : At s p { y with pc := .dupFd o n } := (h.place p y hp).of_pc hpc
  unfold run at hs
  rw [hpc] at hs
  dsimp only at hs
  cases hsrc : y.pages (fdVpn o) with
  | none =>
    rw [hsrc] at hs
    cases hs
    exact h.went hp hnf hnm ⟨hn, hpr, hno⟩
  | some X =>
    rw [hsrc] at hs
    dsimp only at hs
    split at hs
    · cases hs
      refine h.wrote hp hnf hnm (fdVpn_lt_vpns n) (show Paired (Function.update y.pages (fdVpn n) (some X)) from
        hpr.write (fun e he => ⟨n, hn, rfl, ?_⟩) fun m hm hv => ?_)
      · obtain ⟨i, hi, hvi, hdata⟩ := hpr _ e (hsrc.trans he)
        rw [← (sameFd_of_fdVpn hi hvi).2.2] at hdata
        exact hd hdata
      · rw [fdVpn_lt hn, dataVpn_lt hm] at hv
        unfold maxFd at hn
        omega
    · cases hs
      exact h.went hp hnf hnm ⟨hn, hpr, hno⟩

theorem run_dupErr {ok : Bool} (h : Inv s) (hp : s.procs p = some y) {n : Nat}
    (hpc : y.pc = .dupErr n ∨ ∃ k, y.pc = .dupErrData n k) (hs : s.run p y ok = some s') : Inv s' := by
  have hnf : ∀ c v, y.pc ≠ .fork c v := fun c v hc => by rcases hpc with h | ⟨k, h⟩ <;> simp [hc] at h
  have hnm : ∀ r, y.pc ≠ .embryo r := fun r hr => by rcases hpc with h | ⟨k, h⟩ <;> simp [hr] at h
  unfold run at hs
  rcases hpc with hpc | ⟨k, hpc⟩
  · obtain ⟨hn, hpr, hno⟩ : At s p { y with pc := .dupErr n } := (h.place p y hp).of_pc hpc
    rw [hpc] at hs
    dsimp only at hs
    split at hs
    · cases hs
      refine h.wrote hp hnf hnm (fdVpn_lt_vpns n)
        ⟨hn, Paired.write hpr nofun fun m hm hv => ?_, NoFd.write hno fun _ => nofun⟩
      rw [fdVpn_lt hn, dataVpn_lt hm] at hv
      unfold maxFd at hn
      omega
    · cases hs
      exact h.went hp hnf hnm (show Paired y.pages from hpr)
  · obtain ⟨hn, hpr, hno⟩ : At s p { y with pc := .dupErrData n k } := (h.place p y hp).of_pc hpc
    rw [hpc] at hs
    dsimp only at hs
    split at hs
    · rename_i hk
      split at hs
      · cases hs
        refine h.wrote hp hnf hnm (Nat.mod_lt _ (by decide))
          ⟨hn, Paired.write hpr nofun fun m hm hv => .inr ?_, NoFd.write hno fun _ => nofun⟩
        obtain rfl : m = n := by
          rw [dataVpn_lt hn, dataVpn_lt hm] at hv
          unfold maxFd at hn hm
          unfold vpns at hv
          omega
        exact hno
      · cases hs
        exact h.went hp hnf hnm (show Paired y.pages from hpr)
    · cases hs
      exact h.went hp hnf hnm (show Paired y.pages from hpr)

/-! ## `fork` -/

theorem nextPage_none {v w : Nat} (h : nextPage y v = none) (hdom : y.pages w ≠ none → w ∈ y.dom) (hv : v ≤ w)
    (hw : w < vpnUstacktop) : y.pages w = none := by
  by_contra hne
  unfold nextPage at h
  rw [List.min?_eq_none_iff, List.filter_eq_nil_iff] at h
  exact h w (hdom hne) (by simpa using ⟨hv, hw, hne⟩)

theorem nextPage_some {v w : Nat} (h : nextPage y v = some w) (hdom : ∀ u, y.pages u ≠ none → u ∈ y.dom) :
    v ≤ w ∧ w < vpnUstacktop ∧ y.pages w ≠ none ∧ ∀ u, v ≤ u → u < w → y.pages u = none := by
  unfold nextPage at h
  obtain ⟨hmem, hmin⟩ := List.min?_eq_some_iff.1 h
  have hw := (List.mem_filter.1 hmem).2
  simp only [decide_eq_true_eq] at hw
  refine ⟨hw.1, hw.2.1, hw.2.2, fun u hu huw => ?_⟩
  by_contra hne
  have := hmin u (List.mem_filter.2 ⟨hdom u hne, by simpa using ⟨hu, by omega, hne⟩⟩)
  omega

theorem Inv.set_both (h : Inv s) {c v : Nat} {z y' z' : Sharer} (hp : s.procs p = some y) (hpc : y.pc = .fork c v)
    (hc : s.procs c = some z) (hz : z.pc = .embryo p)
    (hs' : s'.procs = Function.update (Function.update s.procs c (some z')) p (some y')) (hn : s'.nprocs = s.nprocs)
    (href : ∀ X, s'.ref X = count s'.cells s'.table X) (hly : ∀ v, y'.pages v ≠ none → v < vpns ∧ v ∈ y'.dom)
    (hlz : ∀ v, z'.pages v ≠ none → v < vpns ∧ v ∈ z'.dom) (haty : At s' p y') (hatz : At s' c z') : Inv s' := by
  have hcases : ∀ q x, s'.procs q = some x → (q = p ∧ x = y') ∨ (q = c ∧ x = z') ∨
      (q ≠ p ∧ q ≠ c ∧ s.procs q = some x) := by
    intro q x hx
    by_cases hq : q = p
    · rw [hq, hs', Function.update_self] at hx
      exact .inl ⟨hq, (Option.some.inj hx).symm⟩
    · rw [hs', Function.update_of_ne hq] at hx
      by_cases hqc : q = c
      · rw [hqc, Function.update_self] at hx
        exact .inr (.inl ⟨hqc, (Option.some.inj hx).symm⟩)
      · rw [Function.update_of_ne hqc] at hx
        exact .inr (.inr ⟨hq, hqc, hx⟩)
  have hother : ∀ r x, s.procs r = some x → r ≠ p → r ≠ c → s'.procs r = some x := fun r x hr hrp hrc => by
    rw [hs', Function.update_of_ne hrp, Function.update_of_ne hrc, hr]
  refine ⟨fun q x hx => ?_, fun q x v hx hv => ?_, href, fun q x hx => ?_⟩
  · rw [hn]
    rcases hcases q x hx with ⟨rfl, -⟩ | ⟨rfl, -⟩ | ⟨-, -, hx⟩
    · exact h.lt _ _ hp
    · exact h.lt _ _ hc
    · exact h.lt _ _ hx
  · rcases hcases q x hx with ⟨-, rfl⟩ | ⟨-, rfl⟩ | ⟨-, -, hx⟩
    · exact hly v hv
    · exact hlz v hv
    · exact h.legal q x v hx hv
  · rcases hcases q x hx with ⟨rfl, rfl⟩ | ⟨rfl, rfl⟩ | ⟨hqp, hqc, hx⟩
    · exact haty
    · exact hatz
    · refine (h.place q x hx).other h hx hp hqp fun r u hu hupc => hother r u hu (fun he => ?_) (fun he => ?_)
      · rw [he, hp] at hu
        cases hu
        rcases hupc with hupc | ⟨v', hupc⟩ <;> rw [hpc] at hupc
        · cases hupc
        · exact hqc (SharePc.fork.inj hupc).1.symm
      · rw [he, hc] at hu
        cases hu
        rcases hupc with hupc | ⟨v', hupc⟩ <;> rw [hz] at hupc
        · exact hqp (SharePc.embryo.inj hupc).symm
        · cases hupc

theorem run_fork (h : Inv s) (hp : s.procs p = some y) {c v : Nat} (hpc : y.pc = .fork c v)
    (hs : s.run p y true = some s') : Inv s' := by
  obtain ⟨hpr, z, hc, hz, hsub, hcop⟩ : At s p { y with pc := .fork c v } := (h.place p y hp).of_pc hpc
  dsimp only at hpr hsub hcop
  have hcp : c ≠ p := fun he => by
    rw [he, hp] at hc
    cases hc
    rw [hpc] at hz
    cases hz
  have hdom : ∀ u, y.pages u ≠ none → u ∈ y.dom := fun u hu => (h.legal p y u hp hu).2
  unfold run at hs
  rw [hpc] at hs
  dsimp only at hs
  rw [hc] at hs
  dsimp only at hs
  cases hnext : nextPage y v with
  | none =>
    rw [hnext] at hs
    cases hs
    have hpm : (s.goto c z .idle).procs p = some y := by rw [goto_procs, Function.update_of_ne hcp.symm, hp]
    refine h.set_both hp hpc hc hz rfl rfl (ref_goto (ref_goto h.ref hc .idle) hpm .idle)
      (fun v hv => h.legal p y v hp hv)
      (fun v hv => h.legal c z v hc hv) (show Paired y.pages from hpr) (show Paired z.pages from fun w e hw => ?_)
    obtain ⟨i, hi, hwi, hdata⟩ := hpr w e (hsub w _ hw)
    refine ⟨i, hi, hwi, ?_⟩
    have htop : dataVpn i < vpnUstacktop := by
      rw [dataVpn_lt hi]
      unfold maxFd at hi
      unfold vpnUstacktop
      omega
    by_cases hlt : dataVpn i < v
    · rw [hcop _ hlt htop, hdata]
    · rw [nextPage_none hnext (hdom _) (by omega) htop] at hdata
      cases hdata
  | some w =>
    rw [hnext] at hs
    simp only [if_true, Option.some.injEq] at hs
    subst hs
    obtain ⟨hvw, hwtop, hwne, hbetween⟩ := nextPage_some hnext hdom
    have hwlt : w < vpns := (h.legal p y w hp hwne).1
    obtain ⟨zpc, zpages, zdom⟩ := z
    obtain rfl : zpc = .embryo p := hz
    dsimp only at hsub hcop ⊢
    have hpm : (s.write c ⟨.embryo p, zpages, zdom⟩ w (y.pages w) (.embryo p)).procs p = some y := by
      rw [write_procs, Function.update_of_ne hcp.symm, hp]
    have hprocs : ((s.write c ⟨.embryo p, zpages, zdom⟩ w (y.pages w) (.embryo p)).goto p y (.fork c (w + 1))).procs =
        Function.update (Function.update s.procs c
          (some ⟨.embryo p, Function.update zpages w (y.pages w), w :: zdom⟩)) p
          (some { y with pc := .fork c (w + 1) }) := rfl
    have hsub' : ∀ u X, Function.update zpages w (y.pages w) u = some X → y.pages u = some X := fun u X hu => by
      by_cases huw : u = w
      · rwa [huw, Function.update_self, ← huw] at hu
      · rw [Function.update_of_ne huw] at hu
        exact hsub u X hu
    refine h.set_both hp hpc hc rfl hprocs rfl (ref_goto (ref_write h hc hwlt _ _) hpm _)
      (fun v hv => h.legal p y v hp hv)
      (legal_write h hc hwlt _) ⟨hpr, ⟨.embryo p, Function.update zpages w (y.pages w), w :: zdom⟩, ?_, rfl, hsub',
        fun u hu hut => ?_⟩ ⟨w + 1, { y with pc := .fork c (w + 1) }, ?_, rfl, hpr, hsub'⟩
    · rw [hprocs, Function.update_of_ne hcp, Function.update_self]
    · dsimp only
      by_cases huw : u = w
      · rw [huw, Function.update_self]
      · rw [Function.update_of_ne huw]
        by_cases huv : u < v
        · exact hcop u huv hut
        · have hnone := hbetween u (by omega) (by omega)
          rw [hnone]
          by_contra hne
          obtain ⟨X, hX⟩ := Option.ne_none_iff_exists'.1 hne
          rw [hsub u X hX] at hnone
          cases hnone
    · rw [hprocs, Function.update_self]

/-- Process `p` calls `fork`. -/
def called (s : Sharing) (p : Nat) (y : Sharer) : Sharing :=
  { s.goto p y (.fork s.nprocs 0) with
    procs := Function.update (s.goto p y (.fork s.nprocs 0)).procs s.nprocs (some ⟨.embryo p, fun _ => none, []⟩)
    nprocs := s.nprocs + 1 }

theorem inv_called (h : Inv s) (hp : s.procs p = some y) (hpc : y.pc = .idle) : Inv (called s p y) := by
  have hlt := h.lt p y hp
  have hprocs : (called s p y).procs = Function.update
      (Function.update s.procs p (some { y with pc := .fork s.nprocs 0 }))
      s.nprocs (some ⟨.embryo p, fun _ => none, []⟩) := rfl
  have hchild : (called s p y).procs s.nprocs = some ⟨.embryo p, fun _ => none, []⟩ := Function.update_self ..
  have hparent : (called s p y).procs p = some { y with pc := .fork s.nprocs 0 } := by
    rw [hprocs, Function.update_of_ne (by omega), Function.update_self]
  have hother : ∀ q, q ≠ p → q ≠ s.nprocs → (called s p y).procs q = s.procs q := fun q hqp hqn => by
    rw [hprocs, Function.update_of_ne hqn, Function.update_of_ne hqp]
  have hcases : ∀ q z, (called s p y).procs q = some z → (q = s.nprocs ∧ z = ⟨.embryo p, fun _ => none, []⟩) ∨
      (q = p ∧ z = { y with pc := .fork s.nprocs 0 }) ∨ (q ≠ p ∧ q ≠ s.nprocs ∧ s.procs q = some z) := by
    intro q z hz
    by_cases hqn : q = s.nprocs
    · rw [hqn, hchild] at hz
      exact .inl ⟨hqn, (Option.some.inj hz).symm⟩
    · by_cases hqp : q = p
      · rw [hqp, hparent] at hz
        exact .inr (.inl ⟨hqp, (Option.some.inj hz).symm⟩)
      · rw [hother q hqp hqn] at hz
        exact .inr (.inr ⟨hqp, hqn, hz⟩)
  have hpr : At s p { y with pc := .idle } := (h.place p y hp).of_pc hpc
  refine ⟨fun q z hz => ?_, fun q z v hz hv => ?_, fun X => ?_, fun q z hz => ?_⟩
  · show q < s.nprocs + 1
    rcases hcases q z hz with ⟨rfl, -⟩ | ⟨rfl, -⟩ | ⟨-, -, hz⟩
    · omega
    · omega
    · have := h.lt q z hz
      omega
  · rcases hcases q z hz with ⟨-, rfl⟩ | ⟨-, rfl⟩ | ⟨-, -, hz⟩
    · exact absurd rfl hv
    · exact h.legal p y v hp hv
    · exact h.legal q z v hz hv
  · have hsub : s.cells ⊆ (called s p y).cells :=
      Finset.product_subset_product (Finset.range_subset_range.2 (Nat.le_succ _)) (Finset.Subset.refl _)
    have hnew : ∀ c ∈ (called s p y).cells, c ∉ s.cells → (called s p y).table c = none := by
      intro c hc hnc
      have hc' := Finset.mem_product.1 hc
      have hcn : c.1 = s.nprocs := by
        have h1 : c.1 < s.nprocs + 1 := Finset.mem_range.1 hc'.1
        by_contra hne
        exact hnc (Finset.mem_product.2 ⟨Finset.mem_range.2 (by omega), hc'.2⟩)
      unfold table
      rw [hcn, hchild]
      rfl
    have hold : ∀ c ∈ s.cells, (called s p y).table c = s.table c := by
      intro c hc
      have hcn : c.1 < s.nprocs := Finset.mem_range.1 (Finset.mem_product.1 hc).1
      unfold table
      by_cases hcp : c.1 = p
      · rw [hcp, hparent, hp]
        rfl
      · rw [hother c.1 hcp (by omega)]
    rw [count_subset hsub hnew, count_congr hold, ← h.ref X]
    rfl
  · rcases hcases q z hz with ⟨rfl, rfl⟩ | ⟨rfl, rfl⟩ | ⟨hqp, hqn, hz⟩
    · exact ⟨0, _, hparent, rfl, hpr, nofun⟩
    · exact ⟨hpr, _, hchild, rfl, nofun, nofun⟩
    · refine (h.place q z hz).other h hz hp hqp fun r u hu hupc => ?_
      rw [hother r, hu]
      · rintro rfl
        rw [hp] at hu
        cases hu
        rcases hupc with hupc | ⟨v, hupc⟩ <;> rw [hpc] at hupc <;> cases hupc
      · rintro rfl
        exact absurd (h.lt _ _ hu) (Nat.lt_irrefl _)

/-! ## Every run -/

theorem inv_init (h : Init s) : Inv s := by
  obtain ⟨i, j, hij, hj, hprocs, hn, href⟩ := h
  have hp : ∀ p y, s.procs p = some y → p = 0 ∧ y = ⟨.pipe 0 i j, fun _ => none, []⟩ := by
    intro p y hp
    rw [hprocs] at hp
    by_cases hp0 : p = 0
    · rw [hp0, Function.update_self] at hp
      exact ⟨hp0, (Option.some.inj hp).symm⟩
    · rw [Function.update_of_ne hp0] at hp
      cases hp
  refine ⟨fun p y hpy => ?_, fun p y v hpy hv => ?_, fun X => ?_, fun p y hpy => ?_⟩
  · rw [(hp p y hpy).1, hn]
    exact Nat.one_pos
  · rw [(hp p y hpy).2] at hv
    exact absurd rfl hv
  · rw [href]
    refine (count_eq_zero.2 fun c _ => ?_).symm
    unfold table
    cases hc : s.procs c.1 with
    | none => exact nofun
    | some y =>
      rw [(hp _ y hc).2]
      exact nofun
  · rw [(hp p y hpy).2]
    exact ⟨hij, by omega, hn, fun v hv => absurd rfl hv, fun h => absurd h (by omega)⟩

/-- A `dup` names a number of the table, and there is memory for what `fork` maps. -/
def CopyOk (s : Sharing) : ShareAct → Prop
  | .dup _ _ n => n < maxFd
  | .run p ok => ∀ y c v, s.procs p = some y → y.pc = .fork c v → ok = true
  | _ => True

theorem fdLookup_sameFd {i : Nat} (hpr : Paired y.pages) (h : fdLookup y i = true) : ∃ j, SameFd i j := by
  unfold fdLookup at h
  split at h
  · rename_i e he
    obtain ⟨j, hj, hij, -⟩ := hpr _ e he
    exact ⟨j, sameFd_of_fdVpn hj hij⟩
  · cases h

theorem noFd_of_fdLookup {i : Nat} (hi : i < maxFd) (h : fdLookup y i = false) : NoFd y.pages i := by
  intro e he
  unfold fdLookup at h
  rw [he] at h
  simp only [decide_eq_false_iff_not, not_or] at h
  exact h.1 hi

theorem inv_step (h : Inv s) {a : ShareAct} (hok : CopyOk s a) (hs : s.step a = some s') : Inv s' := by
  cases a with
  | close p i =>
    obtain ⟨y, hp, hs⟩ := Option.bind_eq_some_iff.1 hs
    obtain ⟨⟨hpc, hlook⟩, hs⟩ := Option.ite_none_right_eq_some.1 hs
    cases hs
    have hpr : At s p { y with pc := .idle } := (h.place p y hp).of_pc hpc
    exact h.went hp (by simp [hpc]) (by simp [hpc]) ⟨fdLookup_sameFd hpr hlook, hpr, nofun⟩
  | dup p o n =>
    obtain ⟨y, hp, hs⟩ := Option.bind_eq_some_iff.1 hs
    obtain ⟨⟨hpc, hlook⟩, hs⟩ := Option.ite_none_right_eq_some.1 hs
    cases hs
    have hpr : At s p { y with pc := .idle } := (h.place p y hp).of_pc hpc
    have hdup : DupOk o n := ⟨fdLookup_sameFd hpr hlook, hok⟩
    refine h.went hp (by simp [hpc]) (by simp [hpc]) ?_
    split
    · refine ⟨⟨n, sameFd_refl hok⟩, hpr, fun o' n' he => ?_⟩
      cases he
      exact ⟨rfl, hdup⟩
    · rename_i hn
      have hno : NoFd y.pages n := noFd_of_fdLookup hok (by simpa using hn)
      exact ⟨hdup, hpr, hno, fun h => absurd h (Nat.lt_irrefl 0)⟩
  | fork p =>
    obtain ⟨y, hp, hs⟩ := Option.bind_eq_some_iff.1 hs
    obtain ⟨hpc, hs⟩ := Option.ite_none_right_eq_some.1 hs
    cases hs
    exact inv_called h hp hpc
  | run p ok =>
    obtain ⟨y, hp, hs⟩ := Option.bind_eq_some_iff.1 hs
    cases hpc : y.pc with
    | pipe k i j => exact run_pipe h hp hpc hs
    | closeFd i ret => exact run_close h hp (.inl hpc) hs
    | closeData i ret => exact run_close h hp (.inr (.inl hpc)) hs
    | fdClose i ret => exact run_close h hp (.inr (.inr hpc)) hs
    | dupMap o n k => exact run_dupMap h hp hpc hs
    | dupFd o n => exact run_dupFd h hp hpc hs
    | dupErr n => exact run_dupErr h hp (.inl hpc) hs
    | dupErrData n k => exact run_dupErr h hp (.inr ⟨k, hpc⟩) hs
    | fork c v =>
      obtain rfl : ok = true := hok y c v hp hpc
      exact run_fork h hp hpc hs
    | idle | embryo | panicked =>
      unfold run at hs
      rw [hpc] at hs
      cases hs

theorem inv_run : ∀ s, Run Init step CopyOk s → Inv s :=
  Run.invariant Inv (fun _ h => inv_init h) (fun _ _ _ h hok hs => inv_step h hok hs)

/-- No child that `fork` is copying has a descriptor without the page of the pipe. -/
def NoHalfFork (s : Sharing) : Prop :=
  ∀ p y q, s.procs p = some y → y.pc = .embryo q →
    ∀ i e, i < maxFd → y.pages (fdVpn i) = some (.fd e) → y.pages (dataVpn i) = some .data

/-- Once the pipe is made, every process has it for each of its descriptors. -/
theorem Inv.paired (h : Inv s) (hn : NoHalfFork s) (hp : s.procs p = some y) (hpc : y.pc = .idle) {q : Nat} {z : Sharer}
    (hq : s.procs q = some z) : Paired z.pages := by
  have hat := h.place q z hq
  unfold At at hat
  cases hzpc : z.pc with
  | pipe k i j =>
    rw [hzpc] at hat
    have hone : s.nprocs = 1 := hat.2.2.1
    have h1 := h.lt _ _ hp
    have h2 := h.lt _ _ hq
    obtain rfl : p = q := by omega
    rw [hp] at hq
    cases hq
    rw [hpc] at hzpc
    cases hzpc
  | embryo r =>
    rw [hzpc] at hat
    obtain ⟨v, x, -, -, hpr, hsub⟩ := hat
    intro w e hw
    obtain ⟨i, hi, rfl, -⟩ := hpr w e (hsub w _ hw)
    exact ⟨i, hi, rfl, hn q z r hq hzpc i e hi hw⟩
  | idle | panicked =>
    rw [hzpc] at hat
    exact hat
  | closeFd | closeData | fdClose | dupMap | dupFd | dupErr | dupErrData =>
    rw [hzpc] at hat
    exact hat.2.1
  | fork =>
    rw [hzpc] at hat
    exact hat.1

/-- **There are at least as many mappings of the pipe as of its two descriptors.** -/
theorem Inv.ref_le (h : Inv s) (hpr : ∀ q z, s.procs q = some z → Paired z.pages) :
    s.ref (.fd .rd) + s.ref (.fd .wr) ≤ s.ref .data := by
  rw [h.ref, h.ref, h.ref]
  have hkey : ∀ c, (s.table c = some (.fd .rd) ∨ s.table c = some (.fd .wr)) →
      ∃ z i, s.procs c.1 = some z ∧ i < maxFd ∧ c.2 = fdVpn i ∧ z.pages (dataVpn i) = some .data := by
    rintro ⟨q, v⟩ hc
    have htab : ∃ e, s.table (q, v) = some (.fd e) := hc.elim (fun hc => ⟨_, hc⟩) fun hc => ⟨_, hc⟩
    obtain ⟨e, he⟩ := htab
    obtain ⟨z, hz, hv⟩ := Option.bind_eq_some_iff.1 he
    obtain ⟨i, hi, hvi, hd⟩ := hpr q z hz v e hv
    exact ⟨z, i, hz, hi, hvi, hd⟩
  refine count_add_le (fun c => (c.1, 0x60000 + (c.2 - 0x5fc00) * 1024)) (by decide) (fun c _ hc => ?_)
    (fun c _ d _ hc hd hcd => ?_)
  · obtain ⟨z, i, hz, hi, hvi, hd⟩ := hkey c hc
    have hdi : 0x60000 + (c.2 - 0x5fc00) * 1024 = dataVpn i := by
      rw [hvi, fdVpn_lt hi, dataVpn_lt hi]
      omega
    rw [hdi]
    exact ⟨mem_cells (h.lt _ _ hz) (dataVpn_lt_vpns i), by rw [table_of hz, hd]⟩
  · obtain ⟨-, i, -, hi, hci, -⟩ := hkey c hc
    obtain ⟨-, j, -, hj, hdj, -⟩ := hkey d hd
    rw [fdVpn_lt hi] at hci
    rw [fdVpn_lt hj] at hdj
    obtain ⟨h1, h2⟩ := Prod.ext_iff.1 hcd
    exact Prod.ext h1 (by dsimp only at h2; omega)

/-- **When the pipe looks closed, no process has the other end.** -/
theorem closed_sound (s : Sharing) (p i : Nat) (y : Sharer) (e : End) (hrun : Run Init step CopyOk s)
    (hfork : NoHalfFork s) (hp : s.procs p = some y) (hpc : y.pc = .idle) (hfd : y.pages (fdVpn i) = some (.fd e))
    (hclosed : s.pipeIsClosed y i = true) : ∀ q z v, s.procs q = some z → z.pages v ≠ some (.fd e.other) := by
  have h := inv_run s hrun
  have hpr : ∀ q z, s.procs q = some z → Paired z.pages := fun q z hq => h.paired hfork hp hpc hq
  have hle := h.ref_le hpr
  obtain ⟨j, hj, hij, hdata⟩ := hpr p y hp _ e hfd
  rw [← (sameFd_of_fdVpn hj hij).2.2] at hdata
  have heq : s.ref (.fd e) = s.ref .data := by
    unfold pipeIsClosed pageref at hclosed
    rw [hfd, hdata] at hclosed
    exact beq_iff_eq.1 hclosed
  intro q z v hq hv
  have hpos : 0 < count s.cells s.table (.fd e.other) :=
    count_pos (mem_cells (h.lt q z hq) (h.legal q z v hq (by rw [hv]; exact nofun)).1) (by rw [table_of hq, hv])
  rw [← h.ref] at hpos
  cases e with
  | rd =>
    simp only [End.other] at hpos
    omega
  | wr =>
    simp only [End.other] at hpos
    omega

/-! ## Two runs -/

/-- `CopyOk`, where it can be computed. -/
def copyOkB (s : Sharing) : ShareAct → Bool
  | .dup _ _ n => decide (n < maxFd)
  | .run p ok => ok || (s.procs p).all fun y => !(y.pc matches .fork _ _)
  | _ => true

theorem copyOk_of_copyOkB (s : Sharing) (a : ShareAct) (h : s.copyOkB a = true) : s.CopyOk a := by
  cases a with
  | dup p o n =>
    have hn : n < maxFd := of_decide_eq_true h
    exact hn
  | run p ok =>
    intro y c v hp hpc
    simpa [copyOkB, hp, hpc] using h
  | close p i => trivial
  | fork p => trivial

/-- A process that makes the pipe at descriptors 0 and 1. -/
def new : Sharing where
  procs := Function.update (fun _ => none) 0 (some ⟨.pipe 0 0 1, fun _ => none, []⟩)
  nprocs := 1
  ref := fun _ => 0

theorem init_new (s : Sharing) (h : some new = some s) : Init s := by
  cases h
  exact ⟨0, 1, by decide, by decide, rfl, rfl, rfl⟩

/-- `p` is in no call, has end `e` at descriptor 0, and finds the pipe closed. -/
def seesClosed (s : Sharing) (p : Nat) (e : End) : Bool :=
  (s.procs p).any fun y => decide (y.pc = .idle ∧ y.pages (fdVpn 0) = some (.fd e)) && s.pipeIsClosed y 0

/-- `_pipe_is_closed` answers 1 to the process that closed its other end. -/
theorem closed_sound_alone : ∃ s : Sharing, (s.nprocs = 1 ∧ s.seesClosed 0 .rd = true) ∧
    ∀ q z v, s.procs q = some z → z.pages v ≠ some (.fd .wr) := by
  obtain ⟨s, hrun, hs⟩ := @Run.exists_of_exec Sharing ShareAct Init step CopyOk copyOkB copyOk_of_copyOkB
    (List.replicate 4 (.run 0 true) ++ .close 0 1 :: List.replicate 3 (.run 0 true)) (some new) init_new
    (fun s => decide (s.nprocs = 1 ∧ s.seesClosed 0 .rd = true)) (by decide +kernel)
  obtain ⟨hn, hsees⟩ := of_decide_eq_true hs
  obtain ⟨y, hp, hy⟩ := (Option.any_eq_true _ _).1 hsees
  obtain ⟨hpc, hclosed⟩ := Bool.and_eq_true_iff.1 hy
  obtain ⟨hpc, hfd⟩ := of_decide_eq_true hpc
  have hfork : NoHalfFork s := by
    intro q z r hq hz
    have hlt := (inv_run s hrun).lt q z hq
    obtain rfl : q = 0 := by omega
    rw [hp] at hq
    cases hq
    rw [hpc] at hz
    cases hz
  exact ⟨s, ⟨hn, hsees⟩, closed_sound s 0 0 y .rd hrun hfork hp hpc hfd hclosed⟩

/-- **The writer is still there**: its pipe has two readers, and one of these is in the middle of `fork`. -/
theorem closed_sound_fails : ¬∀ (s : Sharing) (p i : Nat) (y : Sharer) (e : End), Reach Init step s →
    s.procs p = some y → y.pc = .idle → y.pages (fdVpn i) = some (.fd e) → s.pipeIsClosed y i = true →
    ∀ q z v, s.procs q = some z → z.pages v ≠ some (.fd e.other) := by
  intro hall
  obtain ⟨s, hrun, hs⟩ := @Run.exists_of_exec Sharing ShareAct Init step (fun _ _ => True) (fun _ _ => true)
    (fun _ _ _ => trivial)
    (List.replicate 4 (.run 0 true) ++ .fork 0 :: List.replicate 5 (.run 0 true) ++
      .close 0 0 :: List.replicate 3 (.run 0 true) ++ .close 1 1 :: List.replicate 3 (.run 1 true) ++
      .fork 1 :: List.replicate 3 (.run 1 true) ++ [.fork 1, .run 1 true]) (some new) init_new
    (fun s => s.seesClosed 2 .rd && (s.procs 0).any fun z : Sharer => decide (z.pages (fdVpn 1) = some (.fd .wr)))
    (by decide +kernel)
  obtain ⟨hsees, hwr⟩ := Bool.and_eq_true_iff.1 hs
  obtain ⟨y, hp, hy⟩ := (Option.any_eq_true _ _).1 hsees
  obtain ⟨hpc, hclosed⟩ := Bool.and_eq_true_iff.1 hy
  obtain ⟨hpc, hfd⟩ := of_decide_eq_true hpc
  obtain ⟨z, hz, hzwr⟩ := (Option.any_eq_true _ _).1 hwr
  exact hall s 2 0 y .rd hrun hp hpc hfd hclosed 0 z (fdVpn 1) hz (of_decide_eq_true hzwr)

end Sharing

end Mos
