import Mos.Serving
/-!
# Survival — when every handler of the file server comes back

Over behaviours in which the server is scheduled and the work of its handlers ends: the server never panics and always
comes back to its receive, exactly when every reply it tries to send has a client that is still there, and is tried at
some time while the client waits.
-/
namespace Mos

namespace Serving

variable {srv : EnvIx} {t t' : Serving}

/-- In `ipc_send` with the answer `r`. -/
def Replying (t : Serving) (r : Answer) : Prop := t.pc = .sending r ∨ t.pc = .yielding r

/-- A behaviour of the server and all other processes. -/
abbrev Life (srv : EnvIx) : Type := Behaviour Init (step srv)

/-- The server gets the processor again when it is to make a call, and each handler comes to its `ipc_send`. -/
structure Fair (b : Life srv) : Prop where
  calls : ∀ n, (b.state n).pc.call ≠ none → ∃ m, n ≤ m ∧ ∃ v0, b.act m = .call v0
  handlers : ∀ n req whom, (b.state n).pc = .handle req whom → ∃ m, n ≤ m ∧ ∃ v page, b.act m = .answer v page

/-- **The server survives**: it does not panic, and every handler that is entered returns to the loop. -/
structure Survives (b : Life srv) : Prop where
  alive : ∀ n, (b.state n).pc ≠ .panicked
  returns : ∀ n, (b.state n).pc.inHandler = true → ∃ m, n ≤ m ∧ (b.state m).pc = .start

/-- The answer `r` is tried while its client waits. -/
def Meets (b : Life srv) (r : Answer) (m : Nat) : Prop :=
  (b.state m).pc = .sending r ∧ (∃ v0, b.act m = .call v0) ∧
    ∀ k₁, readArgs (b.state m).kernel srv = some k₁ → Waits srv k₁ r

/-- **Every client is there for its answer**: at each try it still exists, and at one try it waits. -/
structure Attended (b : Life srv) : Prop where
  safe : ∀ n, ReplySafe srv (b.state n) (b.act n)
  met : ∀ n r, (b.state n).Replying r → ∃ m, n ≤ m ∧ Meets b r m

/-! ## One step -/

theorem kernel_pc {a : Act} (h : t.step srv (.kernel a) = some t') : t'.pc = t.pc := by
  obtain ⟨k, -, rfl⟩ := kernel_inv h
  rfl

theorem sending_step {a : ServeAct} {r : Answer} (hpc : t.pc = .sending r) (h : t.step srv a = some t') :
    t'.pc = .sending r ∧ (∀ v0, a ≠ .call v0) ∨
    ∃ v0 k₁, a = .call v0 ∧ readArgs t.kernel srv = some k₁ ∧
      (Sendable srv k₁ r → Waits srv k₁ r → t'.pc = .unmap) ∧
      (Sendable srv k₁ r → ¬Waits srv k₁ r → t'.pc = .yielding r) ∧ (¬Sendable srv k₁ r → t'.pc = .panicked) := by
  cases a with
  | kernel a => exact .inl ⟨(kernel_pc h).trans hpc, nofun⟩
  | serve =>
    obtain ⟨⟨-, hmain⟩, -⟩ := Option.ite_none_right_eq_some.1 h
    rw [hpc] at hmain
    cases hmain
  | receive =>
    obtain ⟨⟨-, hrec⟩, -⟩ := Option.ite_none_right_eq_some.1 h
    rw [hpc] at hrec
    cases hrec
  | answer v page =>
    obtain ⟨req, whom, hh, -⟩ := answer_inv h
    rw [hpc] at hh
    cases hh
  | call v0 =>
    obtain ⟨-, c, k₁, x, hc, hargs, hx, rfl⟩ := call_inv h
    rw [hpc] at hc
    cases hc
    refine .inr ⟨v0, k₁, rfl, hargs, ?_⟩
    rw [hpc]
    exact try_send hx

/-- The steps from a place where the server makes one call that cannot fail. -/
theorem quiet_step {a : ServeAct} {pc' : ServePc} {c : Syscall} (hc : t.pc.call = some c)
    (hafter : ∀ k₁ x, syscallTable k₁ srv c = some x → t.pc.after x.1 = pc') (h : t.step srv a = some t') :
    t'.pc = t.pc ∧ (∀ v0, a ≠ .call v0) ∨ t'.pc = pc' ∧ ∃ v0, a = .call v0 := by
  cases a with
  | kernel a => exact .inl ⟨kernel_pc h, nofun⟩
  | serve =>
    obtain ⟨⟨-, hmain⟩, -⟩ := Option.ite_none_right_eq_some.1 h
    rw [hmain] at hc
    cases hc
  | receive =>
    obtain ⟨⟨-, hrec⟩, -⟩ := Option.ite_none_right_eq_some.1 h
    rw [hrec] at hc
    cases hc
  | answer v page =>
    obtain ⟨req, whom, hh, -⟩ := answer_inv h
    rw [hh] at hc
    cases hc
  | call v0 =>
    obtain ⟨-, c', k₁, x, hc', -, hx, rfl⟩ := call_inv h
    obtain rfl : c = c' := Option.some.inj (hc.symm.trans hc')
    exact .inr ⟨hafter k₁ x hx, v0, rfl⟩

theorem unmap_step {a : ServeAct} (hpc : t.pc = .unmap) (h : t.step srv a = some t') :
    t'.pc = .unmap ∧ (∀ v0, a ≠ .call v0) ∨ t'.pc = .start ∧ ∃ v0, a = .call v0 := by
  have hcall : t.pc.call = some (.memUnmap 0 reqva) := by rw [hpc]; rfl
  rw [← hpc]
  exact quiet_step hcall (fun k₁ x hx => by rw [hpc]; exact unmap_after hx) h

theorem yielding_step {a : ServeAct} {r : Answer} (hpc : t.pc = .yielding r) (h : t.step srv a = some t') :
    t'.pc = .yielding r ∧ (∀ v0, a ≠ .call v0) ∨ t'.pc = .sending r ∧ ∃ v0, a = .call v0 := by
  have hcall : t.pc.call = some .yield := by rw [hpc]; rfl
  rw [← hpc]
  exact quiet_step hcall (fun k₁ x _ => by rw [hpc]; rfl) h

theorem handle_step {a : ServeAct} {req whom : Word} (hpc : t.pc = .handle req whom) (h : t.step srv a = some t') :
    t'.pc = .handle req whom ∧ (∀ v page, a ≠ .answer v page) ∨
      (∃ v page, a = .answer v page) ∧ ∃ r, t'.pc = .sending r := by
  cases a with
  | kernel a => exact .inl ⟨(kernel_pc h).trans hpc, nofun⟩
  | serve =>
    obtain ⟨⟨-, hmain⟩, -⟩ := Option.ite_none_right_eq_some.1 h
    rw [hpc] at hmain
    cases hmain
  | receive =>
    obtain ⟨⟨-, hrec⟩, -⟩ := Option.ite_none_right_eq_some.1 h
    rw [hpc] at hrec
    cases hrec
  | answer v page =>
    obtain ⟨req', whom', -, rfl⟩ := answer_inv h
    exact .inr ⟨⟨v, page, rfl⟩, _, rfl⟩
  | call v0 =>
    obtain ⟨-, c, k₁, x, hc, -⟩ := call_inv h
    rw [hpc] at hc
    cases hc

/-- **The only way into a panic is a reply that cannot be sent.** -/
theorem not_panicked_step {a : ServeAct} (hpc : t.pc ≠ .panicked) (hsafe : ReplySafe srv t a)
    (h : t.step srv a = some t') : t'.pc ≠ .panicked := by
  cases a with
  | kernel a => rwa [kernel_pc h]
  | serve =>
    obtain ⟨-, h⟩ := Option.ite_none_right_eq_some.1 h
    cases h
    exact nofun
  | receive =>
    obtain ⟨-, h⟩ := Option.ite_none_right_eq_some.1 h
    cases h
    show dispatch _ ≠ .panicked
    unfold dispatch
    split <;> exact nofun
  | answer v page =>
    obtain ⟨req, whom, -, rfl⟩ := answer_inv h
    exact nofun
  | call v0 =>
    obtain ⟨-, c, k₁, x, hc, hargs, hx, rfl⟩ := call_inv h
    show t.pc.after x.1 ≠ .panicked
    cases hp : t.pc with
    | start =>
      rw [hp] at hc
      cases hc
      rw [recv_after hx]
      exact nofun
    | unmap =>
      rw [hp] at hc
      cases hc
      rw [unmap_after hx]
      exact nofun
    | yielding r => exact nofun
    | sending r =>
      rw [hp] at hc
      cases hc
      have hs := hsafe r k₁ hp hargs
      obtain ⟨hw, hn, -⟩ := try_send hx
      by_cases hwaits : Waits srv k₁ r
      · rw [hw hs hwaits]
        exact nofun
      · rw [hn hs hwaits]
        exact nofun
    | main | received | handle | panicked =>
      rw [hp] at hc
      cases hc

/-! ## Behaviours -/

section Behaviours

variable {b : Life srv}

theorem replying_next (hsafe : ∀ n, ReplySafe srv (b.state n) (b.act n)) {r : Answer} {n : Nat}
    (h : (b.state n).Replying r) (hno : ¬Meets b r n) : (b.state (n + 1)).Replying r := by
  rcases h with hpc | hpc
  · rcases sending_step hpc (b.next n) with ⟨hstay, -⟩ | ⟨v0, k₁, hact, hargs, -, hy, -⟩
    · exact .inl hstay
    · have hs : Sendable srv k₁ r := by
        have := hsafe n
        rw [hact] at this
        exact this r k₁ hpc hargs
      refine .inr (hy hs fun hw => hno ⟨hpc, ⟨v0, hact⟩, fun k₂ hk₂ => ?_⟩)
      rw [hargs] at hk₂
      cases hk₂
      exact hw
  · rcases yielding_step hpc (b.next n) with ⟨hstay, -⟩ | ⟨hback, -⟩
    · exact .inr hstay
    · exact .inl hback

theorem meets_next (hsafe : ∀ n, ReplySafe srv (b.state n) (b.act n)) {r : Answer} {n : Nat} (h : Meets b r n) :
    (b.state (n + 1)).pc = .unmap := by
  obtain ⟨hpc, ⟨v0, hact⟩, hw⟩ := h
  rcases sending_step hpc (b.next n) with ⟨-, hno⟩ | ⟨v1, k₁, -, hargs, hu, -, -⟩
  · exact absurd hact (hno v0)
  · have hs := hsafe n
    rw [hact] at hs
    exact hu (hs r k₁ hpc hargs) (hw k₁ hargs)

theorem replying_forever (hsafe : ∀ n, ReplySafe srv (b.state n) (b.act n)) {r : Answer} {n : Nat}
    (h : (b.state n).Replying r) (hno : ∀ m, n ≤ m → ¬Meets b r m) : ∀ m, n ≤ m → (b.state m).Replying r := by
  intro m hm
  obtain ⟨d, rfl⟩ := Nat.exists_eq_add_of_le hm
  induction d with
  | zero => exact h
  | succ d ih => exact replying_next hsafe (ih (Nat.le_add_right n d)) (hno (n + d) (Nat.le_add_right n d))

theorem unmap_returns (hfair : Fair b) {n : Nat} (hpc : (b.state n).pc = .unmap) :
    ∃ m, n ≤ m ∧ (b.state m).pc = .start := by
  obtain ⟨m, hm, hP, v0, hact⟩ :=
    @holds_until (fun m => (b.state m).pc = .unmap) (fun m => ∃ v0, b.act m = .call v0) n hpc
    (fun m _ hP hno => (unmap_step hP (b.next m)).elim And.left fun h => absurd h.2 hno)
    (hfair.calls n (by rw [hpc]; exact nofun))
  rcases unmap_step hP (b.next m) with ⟨-, hno⟩ | ⟨hstart, -⟩
  · exact absurd hact (hno v0)
  · exact ⟨m + 1, by omega, hstart⟩

theorem replying_returns (hfair : Fair b) (h : Attended b) {r : Answer} {n : Nat} (hr : (b.state n).Replying r) :
    ∃ m, n ≤ m ∧ (b.state m).pc = .start := by
  obtain ⟨m, hm, hmeets⟩ := h.met n r hr
  obtain ⟨l, hl, hstart⟩ := unmap_returns hfair (meets_next h.safe hmeets)
  exact ⟨l, by omega, hstart⟩

theorem handle_returns (hfair : Fair b) (h : Attended b) {n : Nat} {req whom : Word}
    (hpc : (b.state n).pc = .handle req whom) : ∃ m, n ≤ m ∧ (b.state m).pc = .start := by
  obtain ⟨m, hm, hP, v, page, hact⟩ := @holds_until (fun m => (b.state m).pc = .handle req whom)
    (fun m => ∃ v page, b.act m = .answer v page) n hpc (fun m _ hP hno =>
      (handle_step hP (b.next m)).elim And.left fun h => absurd h.1 hno) (hfair.handlers n req whom hpc)
  rcases handle_step hP (b.next m) with ⟨-, hno⟩ | ⟨-, r, hr⟩
  · exact absurd hact (hno v page)
  · obtain ⟨l, hl, hstart⟩ := replying_returns hfair h (.inl hr)
    exact ⟨l, by omega, hstart⟩

/-- **The server survives exactly when every client is there for its answer.** -/
theorem survives_iff (b : Life srv) (hfair : Fair b) : Survives b ↔ Attended b := by
  constructor
  · intro h
    have hsafe : ∀ n, ReplySafe srv (b.state n) (b.act n) := by
      intro n
      cases hact : b.act n with
      | call v0 =>
        intro r k₁ hpc hargs
        by_contra hs
        rcases sending_step hpc (b.next n) with ⟨-, hno⟩ | ⟨v1, k₂, -, hargs', -, -, hpanic⟩
        · exact hno v0 hact
        · rw [hargs] at hargs'
          cases hargs'
          exact h.alive (n + 1) (hpanic hs)
      | _ => trivial
    refine ⟨hsafe, fun n r hr => ?_⟩
    by_contra hno
    have hin : (b.state n).pc.inHandler = true := by
      rcases hr with hpc | hpc <;> rw [hpc] <;> rfl
    obtain ⟨m, hm, hstart⟩ := h.returns n hin
    rcases replying_forever hsafe hr (fun m hm hmeets => hno ⟨m, hm, hmeets⟩) m hm with hpc | hpc <;>
      rw [hstart] at hpc <;> cases hpc
  · intro h
    refine ⟨fun n => ?_, fun n hin => ?_⟩
    · induction n with
      | zero =>
        rw [b.start.2]
        exact nofun
      | succ n ih => exact not_panicked_step ih (h.safe n) (b.next n)
    · cases hpc : (b.state n).pc with
      | handle req whom => exact handle_returns hfair h hpc
      | sending r => exact replying_returns hfair h (.inl hpc)
      | yielding r => exact replying_returns hfair h (.inr hpc)
      | unmap => exact unmap_returns hfair hpc
      | main | start | received | panicked =>
        rw [hpc] at hin
        cases hin

/-! ## Two behaviours -/

/-- A behaviour that stays, from `N + 1` on, where the server has nothing to do. -/
theorem fair_of_rest {N : Nat} {v0 : Word} (hact : b.act N = .call v0)
    (hrest : ∀ n, N < n → (b.state n).pc.call = none ∧ (b.state n).pc.inHandler = false) : Fair b := by
  constructor
  · intro n hn
    refine ⟨N, ?_, v0, hact⟩
    by_contra hlt
    exact hn (hrest n (by omega)).1
  · intro n req whom hpc
    by_contra hno
    have hstay : ∀ d, (b.state (n + d)).pc = .handle req whom := by
      intro d
      induction d with
      | zero => exact hpc
      | succ d ih =>
        rcases handle_step ih (b.next (n + d)) with ⟨h, -⟩ | ⟨⟨v, page, ha⟩, -⟩
        · exact h
        · exact absurd ⟨n + d, Nat.le_add_right n d, v, page, ha⟩ hno
    have hin := (hrest (n + (N + 1)) (by omega)).2
    rw [hstay (N + 1)] at hin
    cases hin

end Behaviours

/-- The small machine, whose first program is the server. -/
def small (programs : List Program) : Option Serving :=
  (mipsInit smallBoard programs).map fun k => { kernel := k, pc := .main }

theorem init_small {programs : List Program} (t : Serving) (h : small programs = some t) : t.Init := by
  obtain ⟨k, hk, rfl⟩ := Option.map_eq_some_iff.1 h
  exact ⟨⟨smallBoard, programs, hk⟩, rfl⟩

theorem idle_step {srv cur : EnvIx} {t : Serving} (h : t.kernel.curenv = some cur) :
    t.step srv (.kernel (.exec t.kernel.ktf)) = some t := by
  have hstep : Mos.step t.kernel (.exec t.kernel.ktf) = some t.kernel := by
    show t.kernel.curenv.bind (fun cur => userStep t.kernel cur (.exec t.kernel.ktf)) = some t.kernel
    rw [h]
    rfl
  have hcond : ¬(t.kernel.curenv = some srv ∧ (Act.exec t.kernel.ktf).isCall = true ∧ t.pc.free = false) := fun hc => by
    cases hc.2.1
  show (if _ then none else (Mos.step t.kernel (.exec t.kernel.ktf)).map fun k => { t with kernel := k }) = some t
  rw [if_neg hcond, hstep]
  rfl

/-- Every try finds the client waiting, and there is no page to send. -/
def MeetsAll (t : Serving) : ServeAct → Prop
  | .call _ => ∀ r k₁, t.pc = .sending r → readArgs t.kernel 0 = some k₁ → r.page = .none ∧ Waits 0 k₁ r
  | _ => True

def meetsAllB (t : Serving) : ServeAct → Bool
  | .call _ =>
    match t.pc with
    | .sending r => decide (r.page = .none) && (readArgs t.kernel 0).all fun k₁ =>
        (envid2env k₁ 0 r.whom false).any fun e => decide ((k₁.envs e).envIpcRecving ≠ 0)
    | _ => true
  | _ => true

theorem meetsAll_of_meetsAllB (t : Serving) (a : ServeAct) (h : t.meetsAllB a = true) : t.MeetsAll a := by
  cases a with
  | call v0 =>
    intro r k₁ hpc hargs
    unfold meetsAllB at h
    simp only [hpc, hargs, Option.all_some, Bool.and_eq_true, decide_eq_true_eq] at h
    obtain ⟨e, he, hw⟩ := (Option.any_eq_true _ _).1 h.2
    exact ⟨h.1, e, he, of_decide_eq_true hw⟩
  | _ => trivial

/-- A client asks for `fs_sync` and waits; the server answers and waits for the next request. -/
theorem survives_one : ∃ b : Life 0, (∃ n, (b.state n).pc.inHandler = true) ∧ Survives b := by
  obtain ⟨b, hok, hacts, hend⟩ :=
    @Behaviour.lasso Serving ServeAct Init (step 0) MeetsAll meetsAllB meetsAll_of_meetsAllB
    [.kernel .tick, .kernel (.exec stackFrame), .kernel (.syscall .exofork 0),
      .kernel (.syscall (.setEnvStatus 4097 1) 0),
      .serve, .call 0, .kernel (.syscall (.memAlloc 0 0x800000 pteD) 0),
      .kernel (.syscall (.ipcTrySend 2048 6 0x800000 pteD) 0), .kernel (.syscall (.ipcRecv 0) 0),
        .receive, .answer 0 .none,
      .call 0, .call 0, .call 0]
    (small [emptyProgram]) init_small (fun t => decide (t.pc = .received ∧ t.kernel.curenv = some 1))
    (by decide +kernel)
    (fun t ht => ⟨_, idle_step (of_decide_eq_true ht).2, trivial⟩)
  have hrest : ∀ n, 13 < n → (b.state n).pc = .received := fun n hn => (of_decide_eq_true (hend n hn)).1
  have hfair : Fair b := fair_of_rest (hacts 13 (.call 0) rfl) fun n hn => by
    rw [hrest n hn]
    exact ⟨rfl, rfl⟩
  have hsafe : ∀ n, ReplySafe 0 (b.state n) (b.act n) := by
    intro n
    have h := hok n
    cases hact : b.act n with
    | call v0 =>
      intro r k₁ hpc hargs
      rw [hact] at h
      obtain ⟨hpage, e, he, -⟩ := h r k₁ hpc hargs
      refine ⟨⟨e, he⟩, fun hl => hl.1 ?_⟩
      rw [hpage]
      rfl
    | _ => trivial
  have hmet : ∀ n r, (b.state n).Replying r → ∃ m, n ≤ m ∧ Meets b r m := by
    intro n r hr
    by_contra hno
    rcases replying_forever hsafe hr (fun m hm hmeets => hno ⟨m, hm, hmeets⟩) (n + 14) (by omega) with hpc | hpc <;>
      rw [hrest (n + 14) (by omega)] at hpc <;> cases hpc
  refine ⟨b, ⟨10, ?_⟩, (survives_iff b hfair).2 ⟨hsafe, hmet⟩⟩
  have hnext := b.next 10
  rw [hacts 10 (.answer 0 .none) rfl] at hnext
  obtain ⟨req, whom, hpc, -⟩ := answer_inv hnext
  rw [hpc]
  rfl

/-- A reply goes to nobody. -/
def Orphaned (t : Serving) (r : Answer) : Prop := t.pc = .sending r ∧ envid2env t.kernel 0 r.whom false = none

/-- A check that a reply that is sent goes to nobody. -/
def orphansB (t : Serving) : ServeAct → Bool
  | .call _ => match t.pc with
    | .sending r => decide (envid2env t.kernel 0 r.whom false = none)
    | _ => true
  | _ => true

/-- **The parent of a client destroys it** before the server replies, and the assertion in `ipc_send` fails. -/
theorem survives_fails : ∃ b : Life 0, Fair b ∧ (∃ n r, (b.state n).Orphaned r ∧ (b.state (n + 1)).pc = .panicked) ∧
    ¬Survives b := by
  obtain ⟨b, hok, hacts, hend⟩ := @Behaviour.lasso Serving ServeAct Init (step 0)
    (fun t a => ∀ v0 r, a = .call v0 → t.pc = .sending r → envid2env t.kernel 0 r.whom false = none)
    orphansB (fun t a h v0 r ha hpc => by
      subst ha
      unfold orphansB at h
      simp only [hpc, decide_eq_true_eq] at h
      exact h)
    [.kernel .tick, .kernel (.exec stackFrame), .kernel (.syscall .exofork 0),
      .kernel (.syscall (.setEnvStatus 6146 1) 0),
      .kernel (.syscall .yield 0), .kernel (.exec stackFrame), .serve, .call 0,
      .kernel (.syscall (.memAlloc 0 0x800000 pteD) 0), .kernel (.syscall (.ipcTrySend 2048 6 0x800000 pteD) 0),
      .kernel (.syscall .yield 0), .kernel (.syscall (.envDestroy 6146) 0), .kernel (.syscall .yield 0), .receive,
      .answer 0 .none, .call 0]
    (small [emptyProgram, emptyProgram]) init_small
    (fun t => decide (t.pc = .panicked ∧ t.kernel.curenv = some 0)) (by decide +kernel)
    (fun t ht => ⟨_, idle_step (of_decide_eq_true ht).2, fun _ _ ha => by cases ha⟩)
  have hrest : ∀ n, 15 < n → (b.state n).pc = .panicked := fun n hn => (of_decide_eq_true (hend n hn)).1
  have hact : b.act 15 = .call 0 := hacts 15 (.call 0) rfl
  have hfair : Fair b := fair_of_rest hact fun n hn => by
    rw [hrest n hn]
    exact ⟨rfl, rfl⟩
  refine ⟨b, hfair, ⟨15, ?_⟩, fun h => h.alive 16 (hrest 16 (by omega))⟩
  have hnext := b.next 15
  rw [hact] at hnext
  obtain ⟨-, c, -, -, hc, -⟩ := call_inv hnext
  have hlast : ∃ r, (b.state 15).pc = .sending r := by
    by_contra hno
    have hne : (b.state 15).pc ≠ .panicked := fun hp => by
      rw [hp] at hc
      cases hc
    have hsafe : ReplySafe 0 (b.state 15) (.call 0) := fun r k₁ hpc => absurd ⟨r, hpc⟩ hno
    exact not_panicked_step hne hsafe hnext (hrest 16 (by omega))
  obtain ⟨r, hr⟩ := hlast
  exact ⟨r, ⟨hr, hok 15 0 r hact hr⟩, hrest 16 (by omega)⟩

end Serving

end Mos
