import Mos.Shell
/-!
# StatusDelivery — the status of the command on the left of `&&` and `||`

The process that is forked for the command on the left sends the status to the parser that forked it, and has it from
the program it spawns.  `Owed` says that whoever still has a message to send is the one its parent waits for, so a
receive is never answered by another process.  Between `spawn` and its `ipc_recv` the process closes its files, and
may take the status for a reply of the file server: it is `jammed` when another request is left then.  `Stage` follows
the forked process from its fork to its end: the status comes, whatever runs when, exactly when the command
`Delivers`.
-/
namespace Mos.Sh

/-! ## Who waits, and who owes a message -/

/-- The process whose message an `ipc_recv` is for, or may be taken by. -/
def Proc.awaits (pr : Proc) : Option Nat :=
  match pr.pc with
  | .answerOr c => some c
  | .answerAnd c => some c
  | .closing c _ => some c
  | .status c => some c
  | _ => none

/-- It has a status to send: a program before `libmain` or `_user_panic` has sent it, or a forked shell with
`flag_next_is_condition`. -/
def Proc.owes (pr : Proc) : Bool :=
  match pr.pc with
  | .run => pr.cond
  | .args _ => pr.cond
  | .output _ => pr.cond
  | .spawn => pr.cond
  | .closing _ _ => pr.cond
  | .status _ => pr.cond
  | .late _ => pr.cond
  | .forward _ => pr.cond
  | .main => true
  | .report _ => true
  | _ => false

/-- It is in `parsecmd`. -/
def Proc.parses (pr : Proc) : Bool :=
  match pr.pc with
  | .parse => true
  | .waitLeft _ => true
  | .answerOr _ => true
  | .answerAnd _ => true
  | .skipOr => true
  | .skipAnd => true
  | _ => false

/-- The statuses that `b` has sent to `a`. -/
def Shell.statuses (s : Shell) (b a : Nat) : Nat := (s.sent.filter fun m => m.1 = b ∧ m.2.1 = a).length

/-! ## What a step does -/

namespace Shell

@[simp] theorem set_same (s : Shell) (p : Nat) (pr : Proc) : (s.set p pr).procs p = some pr := by simp [set]

theorem set_ne (s : Shell) {p q : Nat} (pr : Proc) (h : q ≠ p) : (s.set p pr).procs q = s.procs q := by simp [set, h]

@[simp] theorem set_count (s : Shell) (p : Nat) (pr : Proc) : (s.set p pr).count = s.count := rfl
@[simp] theorem set_trace (s : Shell) (p : Nat) (pr : Proc) : (s.set p pr).trace = s.trace := rfl
@[simp] theorem set_sent (s : Shell) (p : Nat) (pr : Proc) : (s.set p pr).sent = s.sent := rfl

@[simp] theorem add_count (s : Shell) (pr : Proc) : (s.add pr).count = s.count + 1 := rfl
@[simp] theorem add_trace (s : Shell) (pr : Proc) : (s.add pr).trace = s.trace := rfl
@[simp] theorem add_sent (s : Shell) (pr : Proc) : (s.add pr).sent = s.sent := rfl

@[simp] theorem post_procs (s : Shell) (m : Sent) : (s.post m).procs = s.procs := rfl
@[simp] theorem post_count (s : Shell) (m : Sent) : (s.post m).count = s.count := rfl
@[simp] theorem log_procs (s : Shell) (argv : Cmd) : (s.log argv).procs = s.procs := rfl
@[simp] theorem log_count (s : Shell) (argv : Cmd) : (s.log argv).count = s.count := rfl

@[simp] theorem add_same (s : Shell) (pr : Proc) : (s.add pr).procs s.count = some pr := by simp [add, set]

theorem add_ne (s : Shell) {q : Nat} (pr : Proc) (h : q ≠ s.count) : (s.add pr).procs q = s.procs q := by
  simp [add, set, h]

end Shell

/-- What `p` makes of its own record, apart from its messages. -/
structure Goes (pr pr' : Proc) : Prop where
  parent : pr'.parent = pr.parent
  owes : pr'.owes = true → pr.owes = true
  parses : pr'.parses = true → pr.parses = true ∧ pr'.rightpipe = pr.rightpipe

/-- **What a step of `p` does**: it goes on by itself, it makes a process, or its message is received. -/
inductive Moved (s : Shell) (p : Nat) (pr : Proc) : Shell → Prop where
  | goes (pr' : Proc) : pr'.awaits = pr.awaits → Goes pr pr' → Moved s p pr (s.set p pr')
  | makes (child pr' : Proc) : pr.awaits = none → Goes pr pr' → child.parent = p →
      (child.parses = true → child.rightpipe = none) →
      (pr'.awaits = none ∧ child.owes = false ∨ pr'.awaits = some s.count) →
      Moved s p pr ((s.add child).set p pr')
  | spawns (program pr' : Proc) (argv : Cmd) : pr.awaits = none → Goes pr pr' → program.parent = p →
      program.parses = false → pr'.awaits = some s.count → Moved s p pr (((s.add program).set p pr').log argv)
  | sends (q q' : Proc) (res : Int) (after : Pc) :
      (pr.pc = .forward res ∧ pr.cond = true ∧ after = .waitRight ∨ pr.pc = .report res ∧ after = .exit) →
      s.procs pr.parent = some q → q.receive res = some q' →
      Moved s p pr (((s.set pr.parent q').set p { pr with pc := after }).post (p, pr.parent, res))

theorem Moved.idle {s : Shell} {p : Nat} {pr : Proc} (pr' : Proc) (ha : pr.awaits = none) (ha' : pr'.awaits = none)
    (hg : Goes pr pr') :
    Moved s p pr (s.set p pr') := .goes pr' (ha'.trans ha.symm) hg

theorem Proc.closes_awaits (pr : Proc) (c : Nat) (todo : List Nat) :
    ({ pr with pc := .closes c todo } : Proc).awaits = some c := by
  unfold Pc.closes
  split <;> rfl

theorem Proc.closes_owes (pr : Proc) (c : Nat) (todo : List Nat) :
    ({ pr with pc := .closes c todo } : Proc).owes = pr.cond := by
  unfold Pc.closes
  split <;> rfl

theorem Proc.closes_parses (pr : Proc) (c : Nat) (todo : List Nat) :
    ({ pr with pc := .closes c todo } : Proc).parses = false := by
  unfold Pc.closes
  split <;> rfl

theorem Proc.returned_pc (pr : Proc) : pr.returned = { pr with pc := pr.returned.pc } ∧
    (pr.returned.pc = .exit ∨ pr.returned.pc = .fault ∨ pr.returned.pc = .run) := by
  unfold Proc.returned
  split
  · exact ⟨rfl, .inl rfl⟩
  · split
    · exact ⟨rfl, .inr (.inl rfl)⟩
    · exact ⟨rfl, .inr (.inr rfl)⟩

@[simp] theorem Proc.returned_parent (pr : Proc) : pr.returned.parent = pr.parent := by
  rw [pr.returned_pc.1]

@[simp] theorem Proc.returned_awaits (pr : Proc) : pr.returned.awaits = none := by
  rcases pr.returned_pc.2 with h | h | h <;> simp [Proc.awaits, h]

@[simp] theorem Proc.returned_parses (pr : Proc) : pr.returned.parses = false := by
  rcases pr.returned_pc.2 with h | h | h <;> simp [Proc.parses, h]

theorem Proc.returned_owes {pr : Proc} (h : pr.returned.owes = true) : pr.cond = true := by
  have hp := pr.returned_pc
  rw [hp.1] at h
  rcases hp.2 with hc | hc | hc <;> simp [Proc.owes, hc] at h
  exact h

theorem goes_returned {pr pr' : Proc} (hp : pr'.parent = pr.parent) (hc : pr'.cond = false) : Goes pr pr'.returned :=
  ⟨by simp [hp], fun h => absurd (Proc.returned_owes h) (by simp [hc]), by simp⟩

theorem moved_parsecmd (W : World) (s : Shell) (p : Nat) (pr : Proc) (h : pr.pc = .parse)
    (hr : pr.rightpipe = none) : Moved s p pr (s.parsecmd W p pr) := by
  have ha : pr.awaits = none := by simp [Proc.awaits, h]
  unfold Shell.parsecmd
  cases hc : pr.scan.nc with
  | eof => exact .idle _ ha (by simp) (goes_returned rfl rfl)
  | word =>
    dsimp only
    split
    · exact .idle _ ha rfl ⟨rfl, nofun, nofun⟩
    · exact .idle _ ha (by simp [Proc.awaits, h]) ⟨rfl, by simp [Proc.owes, h], by simp [Proc.parses, h]⟩
  | less | greater | append =>
    refine .idle _ ha ?_ ⟨?_, ?_, ?_⟩ <;> (unfold Proc.redirect; split) <;>
      simp [Proc.awaits, Proc.owes, Proc.parses, h]
  | bar =>
    dsimp only
    split
    · exact .idle _ ha rfl ⟨rfl, nofun, nofun⟩
    · split
      · exact .idle _ ha (by simp) (goes_returned rfl rfl)
      · exact .makes _ _ ha (goes_returned rfl rfl) rfl (fun _ => hr) (.inl ⟨by simp, rfl⟩)
  | semi =>
    dsimp only
    split
    · exact .idle _ ha rfl ⟨rfl, nofun, nofun⟩
    · refine .makes _ _ ha ⟨rfl, nofun, fun _ => ⟨by simp [Proc.parses, h], rfl⟩⟩ (by simp) (by simp) (.inl ⟨rfl, ?_⟩)
      exact Bool.eq_false_iff.2 fun ho => nomatch Proc.returned_owes ho
  | or | and =>
    dsimp only
    split
    · exact .idle _ ha rfl ⟨rfl, nofun, nofun⟩
    · exact .makes _ _ ha ⟨rfl, nofun, fun _ => ⟨by simp [Proc.parses, h], rfl⟩⟩ (by simp) (by simp) (.inr rfl)
  | amp =>
    dsimp only
    split
    · exact .idle _ ha rfl ⟨rfl, nofun, nofun⟩
    · refine .makes _ _ ha ⟨rfl, nofun, fun _ => ⟨by simp [Proc.parses, h], rfl⟩⟩ (by simp) (by simp) (.inl ⟨rfl, ?_⟩)
      exact Bool.eq_false_iff.2 fun ho => nomatch Proc.returned_owes ho
  | lparen | rparen =>
    exact .idle _ ha (by simp [Proc.awaits, h]) ⟨rfl, by simp [Proc.owes, h], by simp [Proc.parses, h]⟩

theorem moved_skipOr (s : Shell) (p : Nat) {pr : Proc} (h : pr.pc = .skipOr) : Moved s p pr (s.set p pr.skipOr) := by
  refine .idle _ (by simp [Proc.awaits, h]) ?_ ?_
  · unfold Proc.skipOr
    split <;> simp [Proc.awaits, Proc.again, h]
  · unfold Proc.skipOr
    split <;> exact ⟨rfl, by simp [Proc.owes, Proc.again, h], by simp [Proc.parses, Proc.again, h]⟩

theorem moved_skipAnd (s : Shell) (p : Nat) {pr : Proc} (h : pr.pc = .skipAnd) : Moved s p pr (s.set p pr.skipAnd) := by
  refine .idle _ (by simp [Proc.awaits, h]) ?_ ?_
  · unfold Proc.skipAnd
    split <;> rfl
  · unfold Proc.skipAnd
    split <;> exact ⟨rfl, by simp [Proc.owes, Proc.again], by simp [Proc.parses, Proc.again, h]⟩

theorem moved_echoArgs (W : World) (s : Shell) (p : Nat) {pr : Proc} {i : Nat} (h : pr.pc = .args i) :
    Moved s p pr (s.echoArgs W p pr i) := by
  have ha : pr.awaits = none := by simp [Proc.awaits, h]
  unfold Shell.echoArgs
  split
  · exact .idle _ ha rfl ⟨rfl, by simp [Proc.owes, h], nofun⟩
  · split
    · exact .idle _ ha rfl ⟨rfl, by simp [Proc.owes, h], nofun⟩
    · split
      · split
        · exact .idle _ ha rfl ⟨rfl, nofun, nofun⟩
        · exact .makes _ _ ha ⟨rfl, by simp [Proc.owes, h], nofun⟩ rfl (fun _ => rfl) (.inl ⟨rfl, rfl⟩)
      · exact .idle _ ha rfl ⟨rfl, by simp [Proc.owes, h], nofun⟩

theorem moved_runcmd (W : World) (s : Shell) (p : Nat) {pr : Proc} (h : pr.pc = .spawn) :
    Moved s p pr (s.runcmd W p pr) := by
  have ha : pr.awaits = none := by simp [Proc.awaits, h]
  unfold Shell.runcmd
  split
  · exact .idle _ ha rfl ⟨rfl, nofun, nofun⟩
  · split
    · exact .idle _ ha rfl ⟨rfl, nofun, nofun⟩
    · split
      · exact .idle _ ha rfl ⟨rfl, nofun, nofun⟩
      · split
        · refine .spawns _ _ _ ha ⟨rfl, fun ho => ?_, fun hp => ?_⟩ rfl rfl (pr.closes_awaits _ _)
          · rw [pr.closes_owes] at ho
            simpa [Proc.owes, h] using ho
          · rw [pr.closes_parses] at hp
            cases hp
        · exact .idle _ ha rfl ⟨rfl, nofun, nofun⟩

theorem moved_ipcSend {s s' : Shell} {p : Nat} {pr : Proc} {res : Int} {after : Pc}
    (h : pr.pc = .forward res ∧ pr.cond = true ∧ after = .waitRight ∨ pr.pc = .report res ∧ after = .exit)
    (hs : s.ipcSend p pr res after = some s') : Moved s p pr s' := by
  unfold Shell.ipcSend at hs
  obtain ⟨q', hq', rfl⟩ := Option.map_eq_some_iff.1 hs
  obtain ⟨q, hq, hres⟩ := Option.bind_eq_some_iff.1 hq'
  exact .sends q q' res after h hq hres

/-- **What a step does.** -/
theorem moved_step {W : World} {s s' : Shell} {p : Nat} (hr : ∀ pr, s.procs p = some pr → pr.parses = true →
    pr.rightpipe = none) (h : s.step W p = some s') : ∃ pr, s.procs p = some pr ∧ Moved s p pr s' := by
  unfold Shell.step at h
  obtain ⟨pr, hpr, hs⟩ := Option.bind_eq_some_iff.1 h
  refine ⟨pr, hpr, ?_⟩
  cases hpc : pr.pc with
  | answerOr | answerAnd | status | jammed | gone | fault | prompt => simp [hpc] at hs
  | parse =>
    simp only [hpc, Option.some.injEq] at hs
    exact hs ▸ moved_parsecmd W s p pr hpc (hr pr hpr (by simp [Proc.parses, hpc]))
  | waitLeft c =>
    simp only [hpc, Option.ite_none_right_eq_some, Option.some.injEq] at hs
    exact hs.2 ▸ .idle _ (by simp [Proc.awaits, hpc]) rfl ⟨rfl, nofun, fun _ => ⟨by simp [Proc.parses, hpc], rfl⟩⟩
  | skipOr =>
    simp only [hpc, Option.some.injEq] at hs
    exact hs ▸ moved_skipOr s p hpc
  | skipAnd =>
    simp only [hpc, Option.some.injEq] at hs
    exact hs ▸ moved_skipAnd s p hpc
  | run =>
    simp only [hpc, Option.some.injEq] at hs
    subst hs
    refine .idle _ (by simp [Proc.awaits, hpc]) ?_ ⟨rfl, ?_, ?_⟩ <;> split <;>
      simp [Proc.awaits, Proc.owes, Proc.parses, hpc]
  | args i =>
    simp only [hpc, Option.some.injEq] at hs
    exact hs ▸ moved_echoArgs W s p hpc
  | output i =>
    simp only [hpc, Option.some.injEq] at hs
    subst hs
    split
    · exact .idle _ (by simp [Proc.awaits, hpc]) rfl ⟨rfl, nofun, nofun⟩
    · exact .idle _ (by simp [Proc.awaits, hpc]) rfl ⟨rfl, by simp [Proc.owes, hpc], nofun⟩
  | spawn =>
    simp only [hpc, Option.some.injEq] at hs
    exact hs ▸ moved_runcmd W s p hpc
  | closing c todo =>
    simp only [hpc, Option.some.injEq] at hs
    subst hs
    refine .goes _ ((pr.closes_awaits _ _).trans (by simp [Proc.awaits, hpc])) ⟨rfl, fun ho => ?_, fun hp => ?_⟩
    · rw [pr.closes_owes] at ho
      simpa [Proc.owes, hpc] using ho
    · rw [pr.closes_parses] at hp
      cases hp
  | late todo =>
    simp only [hpc, Option.some.injEq] at hs
    exact hs ▸ .idle _ (by simp [Proc.awaits, hpc]) rfl ⟨rfl, by simp [Proc.owes, hpc], nofun⟩
  | forward res =>
    simp only [hpc] at hs
    split at hs
    · rename_i hc
      exact moved_ipcSend (.inl ⟨hpc, hc, rfl⟩) hs
    · cases hs
      exact .idle _ (by simp [Proc.awaits, hpc]) rfl ⟨rfl, nofun, nofun⟩
  | waitRight =>
    simp only [hpc, Option.ite_none_right_eq_some, Option.some.injEq] at hs
    exact hs.2 ▸ .idle _ (by simp [Proc.awaits, hpc]) rfl ⟨rfl, nofun, nofun⟩
  | exit =>
    simp only [hpc, Option.some.injEq] at hs
    exact hs ▸ .idle _ (by simp [Proc.awaits, hpc]) rfl ⟨rfl, nofun, nofun⟩
  | main =>
    simp only [hpc, Option.some.injEq] at hs
    subst hs
    refine .idle _ (by simp [Proc.awaits, hpc]) ?_ ⟨rfl, ?_, ?_⟩ <;> split <;>
      simp [Proc.awaits, Proc.owes, Proc.parses, hpc]
  | report res =>
    simp only [hpc] at hs
    exact moved_ipcSend (.inr ⟨hpc, rfl⟩) hs
  | waitLine c =>
    simp only [hpc, Option.ite_none_right_eq_some, Option.some.injEq] at hs
    exact hs.2 ▸ .idle _ (by simp [Proc.awaits, hpc]) rfl ⟨rfl, nofun, nofun⟩

/-! ## The owed messages -/

/-- **Whoever owes a message is the one its parent waits for**, and nobody owes a message that it has sent. -/
structure Owed (s : Shell) : Prop where
  lt : ∀ p pr, s.procs p = some pr → p < s.count
  pipe : ∀ p pr, s.procs p = some pr → pr.parses = true → pr.rightpipe = none
  owed : ∀ p pr, s.procs p = some pr → pr.owes = true → ∃ a, s.procs pr.parent = some a ∧ a.awaits = some p
  unsent : ∀ p pr, s.procs p = some pr → pr.owes = true → ∀ a, s.statuses p a = 0
  fresh : ∀ p, s.count ≤ p → ∀ a, s.statuses p a = 0

theorem Proc.receive_some {q q' : Proc} {res : Int} (h : q.receive res = some q') : ∃ c, q.awaits = some c ∧
    q'.awaits = none ∧ q'.parent = q.parent ∧ (q'.owes = true → q.owes = true) ∧
    (q'.parses = true → q.parses = true ∧ q'.rightpipe = q.rightpipe) := by
  unfold Proc.receive at h
  split at h
  · rename_i c hpc
    cases h
    refine ⟨c, by simp [Proc.awaits, hpc], ?_, ?_, ?_, ?_⟩ <;> split <;>
      simp [Proc.awaits, Proc.owes, Proc.parses, Proc.again, hpc]
  · rename_i c hpc
    cases h
    refine ⟨c, by simp [Proc.awaits, hpc], ?_, ?_, ?_, ?_⟩ <;> split <;>
      simp [Proc.awaits, Proc.owes, Proc.parses, Proc.again, hpc]
  · rename_i c hpc
    cases h
    refine ⟨c, by simp [Proc.awaits, hpc], ?_, ?_, ?_, ?_⟩ <;> simp [Proc.awaits, Proc.owes, Proc.parses, hpc]
  · rename_i c todo hpc
    cases h
    refine ⟨c, by simp [Proc.awaits, hpc], ?_, ?_, ?_, ?_⟩ <;> split <;> simp [Proc.awaits, Proc.owes, Proc.parses, hpc]
  · cases h

theorem Shell.statuses_post (s : Shell) (p a b c : Nat) (res : Int) :
    (s.post (p, a, res)).statuses b c = s.statuses b c + if p = b ∧ a = c then 1 else 0 := by
  unfold Shell.statuses Shell.post
  rw [List.filter_append, List.length_append]
  split <;> simp_all

namespace Owed

theorem start (line : List Char) : Owed (Shell.start line) := by
  have hall : ∀ p pr, (Shell.start line).procs p = some pr → p < 2 ∧ pr.owes = false ∧ pr.rightpipe = none := by
    intro p pr h
    unfold Shell.start at h
    dsimp only at h
    split at h
    · cases h
      exact ⟨by omega, rfl, rfl⟩
    · split at h
      · cases h
        exact ⟨by omega, rfl, rfl⟩
      · cases h
  exact ⟨fun p pr h => (hall p pr h).1, fun p pr h _ => (hall p pr h).2.2,
    fun p pr h ho => by simp [(hall p pr h).2.1] at ho, fun _ _ _ _ _ => rfl, fun _ _ _ => rfl⟩

variable {s s' : Shell} {p : Nat} {pr : Proc}

theorem set_goes (h : Owed s) (hpr : s.procs p = some pr) {pr' : Proc} (ha : pr.awaits = none ∨ pr'.awaits = pr.awaits)
    (hg : Goes pr pr') : Owed (s.set p pr') := by
  have hcases : ∀ q x, (s.set p pr').procs q = some x → (q = p ∧ x = pr') ∨ (q ≠ p ∧ s.procs q = some x) := by
    intro q x hx
    by_cases hq : q = p
    · subst hq
      exact .inl ⟨rfl, by simpa using hx.symm⟩
    · exact .inr ⟨hq, by rwa [s.set_ne _ hq] at hx⟩
  refine ⟨fun q x hx => ?_, fun q x hx hp => ?_, fun q x hx ho => ?_, fun q x hx ho => ?_, h.fresh⟩
  · rcases hcases q x hx with ⟨rfl, -⟩ | ⟨-, hx⟩
    · exact h.lt _ _ hpr
    · exact h.lt _ _ hx
  · rcases hcases q x hx with ⟨rfl, rfl⟩ | ⟨-, hx⟩
    · rw [(hg.parses hp).2]
      exact h.pipe _ _ hpr (hg.parses hp).1
    · exact h.pipe _ _ hx hp
  · obtain ⟨a, hpa, haq⟩ : ∃ a, s.procs x.parent = some a ∧ a.awaits = some q := by
      rcases hcases q x hx with ⟨rfl, rfl⟩ | ⟨-, hx⟩
      · rw [hg.parent]
        exact h.owed _ _ hpr (hg.owes ho)
      · exact h.owed _ _ hx ho
    by_cases hp : x.parent = p
    · rw [hp, hpr] at hpa
      cases hpa
      rcases ha with ha | ha
      · rw [ha] at haq
        cases haq
      · exact ⟨pr', by rw [hp, s.set_same], ha.trans haq⟩
    · exact ⟨a, by rw [s.set_ne _ hp, hpa], haq⟩
  · rcases hcases q x hx with ⟨rfl, rfl⟩ | ⟨-, hx⟩
    · exact h.unsent _ _ hpr (hg.owes ho)
    · exact h.unsent _ _ hx ho

/-- A new process; when it owes a message, its parent is about to wait for it. -/
theorem makes (h : Owed s) (hpr : s.procs p = some pr) (ha : pr.awaits = none) {child pr' : Proc} (hg : Goes pr pr')
    (hc : child.parent = p) (hr : child.parses = true → child.rightpipe = none)
    (hw : pr'.awaits = none ∧ child.owes = false ∨ pr'.awaits = some s.count) : Owed ((s.add child).set p pr') := by
  have hp : p ≠ s.count := Nat.ne_of_lt (h.lt p pr hpr)
  have hcases : ∀ q x, ((s.add child).set p pr').procs q = some x →
      (q = s.count ∧ x = child) ∨ (q ≠ s.count ∧ (s.set p pr').procs q = some x) := by
    intro q x hx
    by_cases hq : q = s.count
    · subst hq
      rw [(s.add child).set_ne _ hp.symm, s.add_same] at hx
      exact .inl ⟨rfl, by simpa using hx.symm⟩
    · refine .inr ⟨hq, ?_⟩
      by_cases hqp : q = p
      · subst hqp
        simpa using hx
      · rw [(s.add child).set_ne _ hqp, s.add_ne _ hq] at hx
        rw [s.set_ne _ hqp]
        exact hx
  have hset := h.set_goes hpr (.inl ha) hg
  refine ⟨fun q x hx => ?_, fun q x hx hps => ?_, fun q x hx ho => ?_, fun q x hx ho => ?_, fun q hq => ?_⟩
  · rcases hcases q x hx with ⟨rfl, -⟩ | ⟨-, hx⟩
    · exact Nat.lt_succ_self _
    · exact Nat.lt_succ_of_lt (hset.lt _ _ hx)
  · rcases hcases q x hx with ⟨rfl, rfl⟩ | ⟨-, hx⟩
    · exact hr hps
    · exact hset.pipe _ _ hx hps
  · rcases hcases q x hx with ⟨rfl, rfl⟩ | ⟨-, hx⟩
    · refine ⟨pr', by rw [hc]; simp, ?_⟩
      rcases hw with ⟨-, hn⟩ | hw
      · rw [hn] at ho
        cases ho
      · exact hw
    · obtain ⟨a, hpa, haq⟩ := hset.owed _ _ hx ho
      refine ⟨a, ?_, haq⟩
      by_cases hpp : x.parent = p
      · rw [hpp] at hpa ⊢
        simpa using hpa
      · rw [s.set_ne _ hpp] at hpa
        rw [(s.add child).set_ne _ hpp, s.add_ne _ (Nat.ne_of_lt (h.lt _ _ hpa))]
        exact hpa
  · rcases hcases q x hx with ⟨rfl, rfl⟩ | ⟨-, hx⟩
    · exact h.fresh _ (Nat.le_refl _)
    · exact hset.unsent _ _ hx ho
  · exact h.fresh q (Nat.le_of_succ_le hq)

theorem log (h : Owed s) (argv : Cmd) : Owed (s.log argv) :=
  ⟨h.lt, h.pipe, h.owed, h.unsent, h.fresh⟩

theorem awaited (h : Owed s) (hpr : s.procs p = some pr) {q q' : Proc} {res : Int} {after : Pc}
    (hp : pr.pc = .forward res ∧ pr.cond = true ∧ after = .waitRight ∨ pr.pc = .report res ∧ after = .exit)
    (hq : s.procs pr.parent = some q) (hres : q.receive res = some q') :
    pr.owes = true ∧ pr.awaits = none ∧ pr.parent ≠ p ∧ q.awaits = some p := by
  obtain ⟨c, hqc, -⟩ := Proc.receive_some hres
  have hpn : pr.awaits = none := by rcases hp with ⟨h, -⟩ | ⟨h, -⟩ <;> simp [Proc.awaits, h]
  have hpo : pr.owes = true := by rcases hp with ⟨h, hc, -⟩ | ⟨h, -⟩ <;> simp [Proc.owes, *]
  refine ⟨hpo, hpn, fun he => ?_, ?_⟩
  · rw [he, hpr] at hq
    cases hq
    rw [hpn] at hqc
    cases hqc
  · obtain ⟨a, hpa, haw⟩ := h.owed _ _ hpr hpo
    rw [hq] at hpa
    cases hpa
    exact haw

/-- A message is received: the sender owes it no more, and the receiver waits no more. -/
theorem sends (h : Owed s) (hpr : s.procs p = some pr) {q q' : Proc} {res : Int} {after : Pc}
    (hp : pr.pc = .forward res ∧ pr.cond = true ∧ after = .waitRight ∨ pr.pc = .report res ∧ after = .exit)
    (hq : s.procs pr.parent = some q) (hres : q.receive res = some q') :
    Owed (((s.set pr.parent q').set p { pr with pc := after }).post (p, pr.parent, res)) := by
  obtain ⟨-, -, -, hqp, hqo, hqr⟩ := Proc.receive_some hres
  obtain ⟨hpo, hpn, hne, hqc⟩ := h.awaited hpr hp hq hres
  have hafter : ({ pr with pc := after } : Proc).owes = false ∧ ({ pr with pc := after } : Proc).parses = false := by
    rcases hp with ⟨-, -, rfl⟩ | ⟨-, rfl⟩ <;> exact ⟨rfl, rfl⟩
  have hcases : ∀ r x, ((s.set pr.parent q').set p { pr with pc := after }).procs r = some x →
      (r = p ∧ x = { pr with pc := after }) ∨ (r = pr.parent ∧ x = q') ∨
        (r ≠ p ∧ r ≠ pr.parent ∧ s.procs r = some x) := by
    intro r x hx
    by_cases hr : r = p
    · subst hr
      exact .inl ⟨rfl, by simpa using hx.symm⟩
    · rw [Shell.set_ne _ _ hr] at hx
      by_cases hr' : r = pr.parent
      · subst hr'
        exact .inr (.inl ⟨rfl, by simpa using hx.symm⟩)
      · rw [Shell.set_ne _ _ hr'] at hx
        exact .inr (.inr ⟨hr, hr', hx⟩)
  refine ⟨fun r x hx => ?_, fun r x hx hps => ?_, fun r x hx ho => ?_, fun r x hx ho a => ?_, fun r hr a => ?_⟩
  · rcases hcases r x hx with ⟨rfl, -⟩ | ⟨rfl, -⟩ | ⟨-, -, hx⟩
    · exact h.lt _ _ hpr
    · exact h.lt _ _ hq
    · exact h.lt _ _ hx
  · rcases hcases r x hx with ⟨rfl, rfl⟩ | ⟨rfl, rfl⟩ | ⟨-, -, hx⟩
    · rw [hafter.2] at hps
      cases hps
    · rw [(hqr hps).2]
      exact h.pipe _ _ hq (hqr hps).1
    · exact h.pipe _ _ hx hps
  · obtain ⟨hrc, y, hyr, hyo, hyp⟩ : r ≠ p ∧ ∃ y, s.procs r = some y ∧ y.owes = true ∧ x.parent = y.parent := by
      rcases hcases r x hx with ⟨rfl, rfl⟩ | ⟨rfl, rfl⟩ | ⟨hrc, -, hx⟩
      · rw [hafter.1] at ho
        cases ho
      · exact ⟨hne, q, hq, hqo ho, hqp⟩
      · exact ⟨hrc, x, hx, ho, rfl⟩
    obtain ⟨a, hpa, haw⟩ := h.owed _ _ hyr hyo
    rw [← hyp] at hpa
    refine ⟨a, ?_, haw⟩
    rw [Shell.post_procs, Shell.set_ne _ _ (fun he => ?_), Shell.set_ne _ _ (fun he => ?_)]
    · exact hpa
    · rw [he, hq] at hpa
      cases hpa
      rw [hqc] at haw
      exact hrc (Option.some.inj haw).symm
    · rw [he, hpr] at hpa
      cases hpa
      rw [hpn] at haw
      cases haw
  · have hrc : r ≠ p ∧ s.statuses r a = 0 := by
      rcases hcases r x hx with ⟨rfl, rfl⟩ | ⟨rfl, rfl⟩ | ⟨hrc, -, hx⟩
      · rw [hafter.1] at ho
        cases ho
      · exact ⟨hne, h.unsent _ _ hq (hqo ho) a⟩
      · exact ⟨hrc, h.unsent _ _ hx ho a⟩
    rw [Shell.statuses_post, if_neg (fun hc => hrc.1 hc.1.symm)]
    exact hrc.2
  · have hrc : p ≠ r := fun he => by
      have := h.lt _ _ hpr
      rw [he] at this
      exact absurd hr (Nat.not_le_of_lt this)
    rw [Shell.statuses_post, if_neg (fun hc => hrc hc.1)]
    exact h.fresh r hr a

/-- **Every step keeps `Owed`.** -/
theorem step {W : World} (h : Owed s) (hs : s.step W p = some s') : Owed s' := by
  obtain ⟨pr, hpr, hm⟩ := moved_step (h.pipe p) hs
  cases hm with
  | goes pr' ha hg => exact h.set_goes hpr (.inr ha) hg
  | makes child pr' ha hg hc hr hw => exact h.makes hpr ha hg hc hr hw
  | spawns program pr' argv ha hg hc hr hw =>
    exact (h.makes hpr ha hg hc (fun h => by simp [hr] at h) (.inr hw)).log argv
  | sends q q' res after hp hq hres => exact h.sends hpr hp hq hres

theorem reached {W : World} {line : List Char} (h : Shell.Reached W line s) : Owed s :=
  Run.invariant Owed (fun _ h => by rw [h]; exact start line) (fun _ _ _ hi _ hs => hi.step hs) s h

end Owed

/-! ## What a step of another process leaves alone -/

namespace Moved

variable {s s' : Shell} {p : Nat} {pr : Proc}

theorem still (hm : Moved s p pr s') (h : Owed s) (hpr : s.procs p = some pr) {r : Nat} {x : Proc}
    (hx : s.procs r = some x) (hne : r ≠ p) (hw : x.awaits ≠ some p) : s'.procs r = some x := by
  have hr : r ≠ s.count := Nat.ne_of_lt (h.lt _ _ hx)
  cases hm with
  | goes pr' => rw [s.set_ne _ hne, hx]
  | makes child => rw [Shell.set_ne _ _ hne, s.add_ne _ hr, hx]
  | spawns program => rw [Shell.log_procs, Shell.set_ne _ _ hne, s.add_ne _ hr, hx]
  | sends q q' res after hp hq hres =>
    have hrq : r ≠ pr.parent := fun he => by
      rw [he, hq] at hx
      cases hx
      exact hw (h.awaited hpr hp hq hres).2.2.2
    rw [Shell.post_procs, Shell.set_ne _ _ hne, Shell.set_ne _ _ hrq, hx]

theorem awaits_ne (hm : Moved s p pr s') (h : Owed s) (hpr : s.procs p = some pr) {b r : Nat} {x x' : Proc}
    (hb : b < s.count) (hx : s.procs r = some x) (hw : x.awaits ≠ some b) (hx' : s'.procs r = some x') :
    x'.awaits ≠ some b := by
  by_cases hrp : r = p
  · subst hrp
    cases hm with
    | goes pr' ha =>
      rw [s.set_same] at hx'
      cases hx'
      rw [ha, Option.some.inj (hpr.symm.trans hx)]
      exact hw
    | makes child pr' ha hg hc hr hw =>
      rw [Shell.set_same] at hx'
      cases hx'
      rcases hw with ⟨hn, -⟩ | hn <;> simp [hn]
      omega
    | spawns program pr' argv ha hg hc hr hw =>
      rw [Shell.log_procs, Shell.set_same] at hx'
      cases hx'
      simp [hw]
      omega
    | sends q q' res after hp =>
      rw [Shell.post_procs, Shell.set_same] at hx'
      cases hx'
      rcases hp with ⟨-, -, rfl⟩ | ⟨-, rfl⟩ <;> simp [Proc.awaits]
  · by_cases hwp : x.awaits = some p
    · cases hm with
      | sends q q' res after hp hq hres =>
        rw [Shell.post_procs, Shell.set_ne _ _ hrp] at hx'
        by_cases hrq : r = pr.parent
        · subst hrq
          rw [Shell.set_same] at hx'
          cases hx'
          obtain ⟨-, -, hn, -⟩ := Proc.receive_some hres
          simp [hn]
        · rw [Shell.set_ne _ _ hrq, hx] at hx'
          cases hx'
          exact hw
      | goes pr' =>
        rw [s.set_ne _ hrp, hx] at hx'
        cases hx'
        exact hw
      | makes child =>
        rw [Shell.set_ne _ _ hrp, s.add_ne _ (Nat.ne_of_lt (h.lt _ _ hx)), hx] at hx'
        cases hx'
        exact hw
      | spawns program =>
        rw [Shell.log_procs, Shell.set_ne _ _ hrp, s.add_ne _ (Nat.ne_of_lt (h.lt _ _ hx)), hx] at hx'
        cases hx'
        exact hw
    · rw [hm.still h hpr hx hrp hwp] at hx'
      cases hx'
      exact hw

theorem others (hm : Moved s p pr s') (h : Owed s) (hf : ∀ res, pr.pc ≠ .forward res) (hr : ∀ res, pr.pc ≠ .report res)
    {r : Nat} {x : Proc} (hx : s.procs r = some x) (hne : r ≠ p) : s'.procs r = some x := by
  have hc : r ≠ s.count := Nat.ne_of_lt (h.lt _ _ hx)
  cases hm with
  | goes pr' => rw [s.set_ne _ hne, hx]
  | makes child => rw [Shell.set_ne _ _ hne, s.add_ne _ hc, hx]
  | spawns program => rw [Shell.log_procs, Shell.set_ne _ _ hne, s.add_ne _ hc, hx]
  | sends q q' res after hp =>
    rcases hp with ⟨hp, -⟩ | ⟨hp, -⟩
    · exact absurd hp (hf res)
    · exact absurd hp (hr res)

theorem keeps (hm : Moved s p pr s') (h : Owed s) {r : Nat} {x : Proc} (hx : s.procs r = some x) :
    ∃ x', s'.procs r = some x' := by
  by_cases hne : r = p
  · subst hne
    cases hm with
    | goes pr' => exact ⟨_, Shell.set_same _ _ _⟩
    | makes child pr' => exact ⟨_, Shell.set_same _ _ _⟩
    | spawns program pr' => exact ⟨_, Shell.set_same _ _ _⟩
    | sends q q' res after => exact ⟨_, Shell.set_same _ _ _⟩
  · have hc : r ≠ s.count := Nat.ne_of_lt (h.lt _ _ hx)
    cases hm with
    | goes pr' => exact ⟨x, by rw [s.set_ne _ hne, hx]⟩
    | makes child => exact ⟨x, by rw [Shell.set_ne _ _ hne, s.add_ne _ hc, hx]⟩
    | spawns program => exact ⟨x, by rw [Shell.log_procs, Shell.set_ne _ _ hne, s.add_ne _ hc, hx]⟩
    | sends q q' res after =>
      rw [Shell.post_procs, Shell.set_ne _ _ hne]
      by_cases hrq : r = pr.parent
      · exact ⟨q', by rw [hrq, Shell.set_same]⟩
      · exact ⟨x, by rw [Shell.set_ne _ _ hrq, hx]⟩

theorem waits (hm : Moved s p pr s') (h : Owed s) (hpr : s.procs p = some pr) {r c : Nat} {x : Proc}
    (hx : s.procs r = some x) (hw : x.awaits = some c) (hc : c ≠ p) :
    ∃ x', s'.procs r = some x' ∧ x'.awaits = some c := by
  by_cases hrp : r = p
  · subst hrp
    obtain rfl : x = pr := Option.some.inj (hx.symm.trans hpr)
    have hno : x.awaits ≠ none := fun hn => by
      rw [hn] at hw
      cases hw
    cases hm with
    | goes pr' ha => exact ⟨pr', s.set_same _ _, ha.trans hw⟩
    | makes _ _ ha => exact absurd ha hno
    | spawns _ _ _ ha => exact absurd ha hno
    | sends _ _ _ _ hp => rcases hp with ⟨hp, -⟩ | ⟨hp, -⟩ <;> simp [Proc.awaits, hp] at hw
  · exact ⟨x, hm.still h hpr hx hrp (by rw [hw]; exact fun he => hc (Option.some.inj he)), hw⟩

theorem statuses (hm : Moved s p pr s') {b : Nat} (hne : b ≠ p) (a : Nat) : s'.statuses b a = s.statuses b a := by
  cases hm with
  | goes | makes | spawns => rfl
  | sends q q' res after => rw [Shell.statuses_post, if_neg (fun h => hne h.1.symm)]; rfl

theorem count_le (hm : Moved s p pr s') : s.count ≤ s'.count := by
  cases hm <;> simp

end Moved

/-! ## The commands that deliver -/

/-- What `echo` makes of its arguments from `i` on, when `n` may be to come; `none` when it gives up. -/
def expandArgs (W : World) : Nat → Nat → Cmd → Option Cmd
  | 0, _, argv => some argv
  | n + 1, i, argv =>
    match argv[i]? with
    | none => some argv
    | some w =>
      if w.text.head? = some '"' then expandArgs W n (i + 1) (stripQuote argv i)
      else if w.text.head? = some '`' then
        if !W.pipes argv || !W.forks argv then none
        else (W.output argv i).bind fun out => expandArgs W n (i + 1) (putOutput argv i out)
      else expandArgs W n (i + 1) argv

/-- The arguments as they come to `spawn`. -/
def expand (W : World) (argv : Cmd) : Option Cmd :=
  if argv.prog = echo then expandArgs W argv.length 1 argv else some argv

/-- It is none of the commands that `runcmd` answers itself, and it can be spawned. -/
structure Starts (W : World) (c : Cmd) : Prop where
  history : c.prog ≠ history
  jobs : c.prog ≠ jobs
  named : ¬((c.prog = kill ∨ c.prog = fg) ∧ c.length = 1)
  spawns : W.spawns c = true

/-- The status that the program sends, when it sends one. -/
def World.status (W : World) (c : Cmd) : Int :=
  match W.ends c with
  | .returns res => res
  | .exits => 0
  | .panics => -1

/-- **The files are closed in time, or the status is the last reply**: none is open, or one, which is empty, or which
is given up at the status. -/
def Settled (W : World) (c : Cmd) : Prop := W.files c = [] ∨ ∃ n, W.files c = [n] ∧ (n = 0 ∨ W.status c < 0)

/-- It is spawned, and its program returns from `main` or panics. -/
def Answers (W : World) (argv c : Cmd) : Prop :=
  argv ≠ [] ∧ argv.length < maxArgs ∧ expand W argv = some c ∧ Starts W c ∧ W.ends c ≠ .exits

/-- **The command sends its status.** -/
def Delivers (W : World) (argv : Cmd) : Prop := ∃ c, Answers W argv c ∧ Settled W c

theorem Answers.delivers_iff {W : World} {argv c : Cmd} (h : Answers W argv c) : Delivers W argv ↔ Settled W c := by
  refine ⟨fun ⟨c', hc', hset⟩ => ?_, fun hset => ⟨c, h, hset⟩⟩
  cases h.2.2.1.symm.trans hc'.2.2.1
  exact hset

theorem settled_iff (W : World) (c : Cmd) : Settled W c ↔ closed (W.status c) (requests (W.files c)) = [] := by
  unfold Settled requests
  cases hf : W.files c with
  | nil => simp [closed]
  | cons n files =>
    cases files with
    | nil =>
      by_cases hn : n = 0
      · simp [closed, hn]
      · simp [closed, hn]
    | cons m files => simp [closed]; split <;> simp

theorem closed_closed {st : Int} {todo : List Nat} (h : closed st todo = []) (r : Int) :
    closed st (closed r todo) = [] := by
  cases todo with
  | nil => rfl
  | cons n todo =>
    by_cases hn : n ≤ 1 ∨ st < 0
    · have hnil : todo = [] := (if_pos hn).symm.trans h
      by_cases hr : n ≤ 1 ∨ r < 0
      · simp [closed, hr, hnil]
      · have hst : st < 0 := hn.resolve_left fun hle => hr (.inl hle)
        simp [closed, hr, hst, hnil]
    · cases (if_neg hn).symm.trans h

/-- What a process between `runcmd` and `spawn` is going to spawn. -/
def Proc.pending (W : World) (pr : Proc) : Option Cmd :=
  match pr.pc with
  | .run => expand W pr.argv
  | .args i => expandArgs W (pr.argv.length + 1 - i) i pr.argv
  | .output i =>
    (W.output pr.argv i).bind fun out => expandArgs W (pr.argv.length - i) (i + 1) (putOutput pr.argv i out)
  | .spawn => some pr.argv
  | _ => none

/-- It is between `runcmd` and `spawn`. -/
def Proc.before (pr : Proc) : Prop :=
  pr.pc = .run ∨ (∃ i, pr.pc = .args i) ∨ (∃ i, pr.pc = .output i) ∨ pr.pc = .spawn

/-- It has left its command. -/
def Proc.leaves (pr : Proc) : Prop := pr.pc = .waitRight ∨ pr.pc = .exit ∨ pr.pc = .gone ∨ pr.pc = .fault

@[simp] theorem length_stripQuote (argv : Cmd) (i : Nat) : (stripQuote argv i).length = argv.length := by
  simp [stripQuote]

@[simp] theorem length_putOutput (argv : Cmd) (i : Nat) (out : List Char) :
    (putOutput argv i out).length = argv.length := by
  simp [putOutput]

/-- What is left of the way to `spawn`. -/
def Proc.way (pr : Proc) : Nat :=
  match pr.pc with
  | .run => 2 * pr.argv.length + 20
  | .args i => 2 * (pr.argv.length - i) + 10
  | .output i => 2 * (pr.argv.length - (i + 1)) + 11
  | _ => 8

/-- **A step before `spawn`** keeps the command that will be spawned and gets nearer to it, spawns it, or gives up. -/
inductive Nears (W : World) (s : Shell) (b : Nat) (pr : Proc) (s' : Shell) : Prop where
  | nearer (pr' : Proc) : s'.procs b = some pr' → pr'.parent = pr.parent → pr'.rightpipe = pr.rightpipe →
      pr'.cond = pr.cond → pr'.before → pr'.pending W = pr.pending W → pr'.way < pr.way → Nears W s b pr s'
  | spawned (x : Proc) : pr.pending W = some pr.argv → Starts W pr.argv →
      s'.procs b = some { pr with pc := .closes s.count (requests (W.files pr.argv)) } → s'.procs s.count = some x →
      x.parent = b → x.pc = .main → x.argv = pr.argv → Nears W s b pr s'
  | givesUp (pc : Pc) : s'.procs b = some { pr with pc := pc } → ({ pr with pc := pc } : Proc).leaves →
      (∀ c, pr.pending W = some c → ¬Starts W c) → Nears W s b pr s'

theorem nears_step {W : World} {s s' : Shell} {b : Nat} {pr : Proc} (h : Owed s) (hpr : s.procs b = some pr)
    (hb : pr.before) (hs : s.step W b = some s') : Nears W s b pr s' := by
  have hne : s.count ≠ b := Nat.ne_of_gt (h.lt _ _ hpr)
  unfold Shell.step at hs
  rw [hpr, Option.bind_some] at hs
  rcases hb with hpc | ⟨i, hpc⟩ | ⟨i, hpc⟩ | hpc
  · simp only [hpc, Option.some.injEq] at hs
    subst hs
    refine .nearer _ (Shell.set_same _ _ _) rfl rfl rfl ?_ ?_ ?_
    · by_cases he : pr.argv.prog = echo <;> simp [Proc.before, he]
    · by_cases he : pr.argv.prog = echo <;> simp [Proc.pending, expand, hpc, he]
    · by_cases he : pr.argv.prog = echo <;> simp [Proc.way, hpc, he]
      omega
  · simp only [hpc, Option.some.injEq] at hs
    subst hs
    unfold Shell.echoArgs
    cases hw : pr.argv[i]? with
    | none =>
      refine .nearer _ (Shell.set_same _ _ _) rfl rfl rfl (.inr (.inr (.inr rfl))) ?_ ?_
      · simp only [Proc.pending, hpc]
        cases pr.argv.length + 1 - i <;> simp [expandArgs, hw]
      · simp [Proc.way, hpc]
    | some w =>
      have hi : i < pr.argv.length := (List.getElem?_eq_some_iff.1 hw).1
      have hn : pr.argv.length + 1 - i = (pr.argv.length - i) + 1 := by omega
      have hn' : pr.argv.length + 1 - (i + 1) = pr.argv.length - i := by omega
      dsimp only
      split
      · rename_i hq
        refine .nearer _ (Shell.set_same _ _ _) rfl rfl rfl (.inr (.inl ⟨_, rfl⟩)) ?_ ?_
        · simp [Proc.pending, hpc, hn, hn', expandArgs, hw, hq]
        · simp only [Proc.way, hpc, length_stripQuote]
          omega
      · rename_i hq
        split
        · rename_i hbq
          split
          · rename_i hf
            refine .givesUp .exit (Shell.set_same _ _ _) (.inr (.inl rfl)) (fun c hc => ?_)
            simp [Proc.pending, hpc, hn, expandArgs, hw, hbq] at hc
            simp_all
          · rename_i hf
            refine .nearer _ (Shell.set_same _ _ _) rfl rfl rfl (.inr (.inr (.inl ⟨_, rfl⟩))) ?_ ?_
            · simp only [Proc.pending, hpc, hn, expandArgs, hw, hbq]
              simp_all
            · simp only [Proc.way, hpc]
              omega
        · rename_i hbq
          refine .nearer _ (Shell.set_same _ _ _) rfl rfl rfl (.inr (.inl ⟨_, rfl⟩)) ?_ ?_
          · simp [Proc.pending, hpc, hn, hn', expandArgs, hw, hq, hbq]
          · simp only [Proc.way, hpc]
            omega
  · simp only [hpc, Option.some.injEq] at hs
    subst hs
    cases ho : W.output pr.argv i with
    | none =>
      refine .givesUp .exit (Shell.set_same _ _ _) (.inr (.inl rfl)) (fun c hc => ?_)
      simp [Proc.pending, hpc, ho] at hc
    | some out =>
      refine .nearer _ (Shell.set_same _ _ _) rfl rfl rfl (.inr (.inl ⟨_, rfl⟩)) ?_ ?_
      · simp [Proc.pending, hpc, ho]
      · simp only [Proc.way, hpc, length_putOutput]
        omega
  · simp only [hpc, Option.some.injEq] at hs
    subst hs
    have hpend : pr.pending W = some pr.argv := by simp [Proc.pending, hpc]
    unfold Shell.runcmd
    split
    · rename_i hh
      refine .givesUp .exit (Shell.set_same _ _ _) (.inr (.inl rfl)) (fun c hc hans => ?_)
      rw [hpend] at hc
      cases hc
      exact hans.history hh
    · split
      · rename_i hj
        refine .givesUp .waitRight (Shell.set_same _ _ _) (.inl rfl) (fun c hc hans => ?_)
        rw [hpend] at hc
        cases hc
        exact hans.jobs hj
      · split
        · rename_i hk
          refine .givesUp .fault (Shell.set_same _ _ _) (.inr (.inr (.inr rfl))) (fun c hc hans => ?_)
          rw [hpend] at hc
          cases hc
          exact hans.named hk
        · split
          · rename_i hh hj hk hw
            refine .spawned { pr with parent := b, pc := .main, cond := false, back := false } hpend ⟨hh, hj, hk, hw⟩
              (Shell.set_same _ _ _) ?_ rfl rfl rfl
            rw [Shell.log_procs, Shell.set_ne _ _ hne, s.add_same]
          · rename_i hw
            refine .givesUp .waitRight (Shell.set_same _ _ _) (.inl rfl) (fun c hc hans => ?_)
            rw [hpend] at hc
            cases hc
            exact hw hans.spawns

/-! ## From the fork to the end -/

/-- `a` has forked `b` to run a command on the left. -/
structure Forked (s : Shell) (b a : Nat) (pr q : Proc) : Prop where
  proc : s.procs b = some pr
  parent : pr.parent = a
  rightpipe : pr.rightpipe = none
  cond : pr.cond = true
  parser : s.procs a = some q
  ne : a ≠ b

/-- **How far `b` is with the command `argv`.**  The status is still to come, is on its way, has come, or never will. -/
inductive Stage (W : World) (argv : Cmd) (s : Shell) (b a : Nat) (pr q : Proc) : Prop where
  | before : q.awaits = some b → pr.before → argv ≠ [] → argv.length < maxArgs → pr.pending W = expand W argv →
      Stage W argv s b a pr q
  | spawned (c : Nat) (x : Proc) : q.awaits = some b →
      (pr.pc = .status c ∨ ∃ todo, pr.pc = .closing c todo ∧
        (Settled W pr.argv → closed (W.status pr.argv) todo = [])) →
      s.procs c = some x → x.parent = b → argv ≠ [] → argv.length < maxArgs →
        expand W argv = some pr.argv → Starts W pr.argv →
      (x.pc = .main ∧ x.argv = pr.argv ∨ x.pc = .report (W.status pr.argv) ∧ W.ends pr.argv ≠ .exits ∨
        x.leaves ∧ W.ends pr.argv = .exits) → Stage W argv s b a pr q
  | passes (c : Cmd) : q.awaits = some b →
      ((∃ res, pr.pc = .forward res) ∨ ∃ todo, pr.pc = .late todo) → Answers W argv c →
      Stage W argv s b a pr q
  | sent (c : Cmd) : q.awaits ≠ some b → pr.leaves → pr.pc ≠ .fault → Answers W argv c → s.statuses b a = 1 →
      Stage W argv s b a pr q
  | silent : q.awaits = some b → pr.leaves → (∀ c, ¬Answers W argv c) → s.statuses b a = 0 → Stage W argv s b a pr q
  | jammed : q.awaits = some b → pr.pc = .jammed → ¬Delivers W argv → s.statuses b a = 0 → Stage W argv s b a pr q

/-- `Forked` and `Stage` at the records that are there. -/
def Underway (W : World) (argv : Cmd) (b a : Nat) (s : Shell) : Prop :=
  ∃ pr q, Forked s b a pr q ∧ Stage W argv s b a pr q

theorem Proc.before.awaits {pr : Proc} (h : pr.before) : pr.awaits = none := by
  rcases h with h | ⟨i, h⟩ | ⟨i, h⟩ | h <;> simp [Proc.awaits, h]

theorem Proc.before.owes {pr : Proc} (h : pr.before) : pr.owes = pr.cond := by
  rcases h with h | ⟨i, h⟩ | ⟨i, h⟩ | h <;> simp [Proc.owes, h]

theorem Proc.before.sends {pr : Proc} (h : pr.before) : (∀ res, pr.pc ≠ .forward res) ∧ ∀ res, pr.pc ≠ .report res := by
  rcases h with h | ⟨i, h⟩ | ⟨i, h⟩ | h <;> simp [h]

theorem Proc.leaves.awaits {pr : Proc} (h : pr.leaves) : pr.awaits = none := by
  rcases h with h | h | h | h <;> simp [Proc.awaits, h]

theorem Proc.leaves.sends {pr : Proc} (h : pr.leaves) : (∀ res, pr.pc ≠ .forward res) ∧ ∀ res, pr.pc ≠ .report res := by
  rcases h with h | h | h | h <;> simp [h]

theorem leaves_step {W : World} {s s' : Shell} {p : Nat} {pr : Proc} (hpr : s.procs p = some pr) (h : pr.leaves)
    (hs : s.step W p = some s') : ∃ pc, s' = s.set p { pr with pc := pc } ∧ (pc = .exit ∨ pc = .gone) := by
  unfold Shell.step at hs
  rw [hpr, Option.bind_some] at hs
  rcases h with h | h | h | h
  · simp only [h, Option.ite_none_right_eq_some, Option.some.injEq] at hs
    exact ⟨.exit, hs.2.symm, .inl rfl⟩
  · simp only [h, Option.some.injEq] at hs
    exact ⟨.gone, hs.symm, .inr rfl⟩
  · simp [h] at hs
  · simp [h] at hs

section Underway

variable {W : World} {argv : Cmd} {b a p : Nat} {s s' : Shell} {pr q : Proc}

theorem Stage.statuses (hf : Forked s b a pr q) (ho : Owed s) (hst : Stage W argv s b a pr q) :
    s.statuses b a ≤ 1 ∧ (s.statuses b a = 1 → pr.leaves ∧ ∃ c, Answers W argv c) ∧
      (pr.pc = .gone → Delivers W argv → s.statuses b a = 1 ∧ q.awaits ≠ some b) := by
  have hnone : pr.owes = true → pr.pc ≠ .gone → s.statuses b a ≤ 1 ∧
      (s.statuses b a = 1 → pr.leaves ∧ ∃ c, Answers W argv c) ∧
      (pr.pc = .gone → Delivers W argv → s.statuses b a = 1 ∧ q.awaits ≠ some b) := by
    intro howes hgone
    rw [ho.unsent b pr hf.proc howes]
    exact ⟨Nat.zero_le 1, nofun, fun hg => absurd hg hgone⟩
  cases hst with
  | before _ hb =>
    refine hnone (by rw [hb.owes, hf.cond]) fun hg => ?_
    rcases hb with h | ⟨i, h⟩ | ⟨i, h⟩ | h <;> simp [hg] at h
  | spawned c x _ hpc =>
    rcases hpc with hpc | ⟨todo, hpc, -⟩
    · exact hnone (by simp [Proc.owes, hpc, hf.cond]) (by simp [hpc])
    · exact hnone (by simp [Proc.owes, hpc, hf.cond]) (by simp [hpc])
  | passes c _ hpc =>
    rcases hpc with ⟨res, hpc⟩ | ⟨todo, hpc⟩
    · exact hnone (by simp [Proc.owes, hpc, hf.cond]) (by simp [hpc])
    · exact hnone (by simp [Proc.owes, hpc, hf.cond]) (by simp [hpc])
  | sent c hq hl _ hans h1 => exact ⟨Nat.le_of_eq h1, fun _ => ⟨hl, c, hans⟩, fun _ _ => ⟨h1, hq⟩⟩
  | silent _ _ hno h0 =>
    rw [h0]
    exact ⟨Nat.zero_le 1, nofun, fun _ ⟨c, hc, _⟩ => absurd hc (hno c)⟩
  | jammed _ hpc _ h0 =>
    rw [h0]
    exact ⟨Nat.zero_le 1, nofun, fun hg => by simp [hg] at hpc⟩

theorem underway_own (ho : Owed s) (hf : Forked s b a pr q) (hst : Stage W argv s b a pr q)
    (hs : s.step W b = some s') : Underway W argv b a s' := by
  obtain ⟨pr₀, hpr₀, hm⟩ := moved_step (ho.pipe b) hs
  obtain rfl : pr₀ = pr := by simpa using hpr₀.symm.trans hf.proc
  -- `b` goes on, and `a` stays
  have hgoes : ∀ pc, (∀ t : Shell, t = s.set b { pr₀ with pc := pc } → Stage W argv t b a { pr₀ with pc := pc } q) →
      Underway W argv b a (s.set b { pr₀ with pc := pc }) := fun pc h =>
    ⟨_, q, ⟨Shell.set_same _ _ _, hf.parent, hf.rightpipe, hf.cond, by rw [s.set_ne _ hf.ne, hf.parser], hf.ne⟩,
      h _ rfl⟩
  cases hst with
  | before hq hb hnil hlen hpend =>
    have hq' := hm.others ho hb.sends.1 hb.sends.2 hf.parser hf.ne
    have h0 : s'.statuses b a = 0 := by
      cases hm with
      | goes | makes | spawns => exact ho.unsent b _ hf.proc (by rw [hb.owes, hf.cond]) a
      | sends _ _ res _ hp =>
        rcases hp with ⟨hp, -⟩ | ⟨hp, -⟩
        · exact absurd hp (hb.sends.1 res)
        · exact absurd hp (hb.sends.2 res)
    cases nears_step ho hf.proc hb hs with
    | nearer pr' hpr' hp hr hc hb' hpend' =>
      exact ⟨pr', q, ⟨hpr', hp.trans hf.parent, hr.trans hf.rightpipe, hc.trans hf.cond, hq', hf.ne⟩,
        .before hq hb' hnil hlen (hpend'.trans hpend)⟩
    | spawned x hown hstarts hpr' hx hxp hxm hxa =>
      refine ⟨_, q, ⟨hpr', hf.parent, hf.rightpipe, hf.cond, hq', hf.ne⟩,
        .spawned s.count x hq ?_ hx hxp hnil hlen (hpend.symm.trans hown) hstarts (.inl ⟨hxm, hxa⟩)⟩
      unfold Pc.closes
      split
      · exact .inl rfl
      · exact .inr ⟨_, rfl, (settled_iff W pr₀.argv).1⟩
    | givesUp pc hpr' hl hno =>
      refine ⟨_, q, ⟨hpr', hf.parent, hf.rightpipe, hf.cond, hq', hf.ne⟩, .silent hq hl (fun c hc => ?_) h0⟩
      exact hno c (hpend.trans hc.2.2.1) hc.2.2.2.1
  | spawned c x hq hpc hx hxp hnil hlen hexp hstarts hxs =>
    have hne : c ≠ b := fun he => by
      rw [he, hf.proc] at hx
      cases hx
      rcases hpc with hpc | ⟨todo, hpc, -⟩ <;> rcases hxs with ⟨h, -⟩ | ⟨h, -⟩ | ⟨h | h | h | h, -⟩ <;> simp [hpc] at h
    unfold Shell.step at hs
    rw [hf.proc, Option.bind_some] at hs
    rcases hpc with hpc | ⟨todo, hpc, hsettled⟩
    · simp [hpc] at hs
    · simp only [hpc, Option.some.injEq] at hs
      subst hs
      refine hgoes _ fun t ht => .spawned c x hq ?_ (by rw [ht, s.set_ne _ hne, hx]) hxp hnil hlen hexp hstarts hxs
      unfold Pc.closes
      split
      · exact .inl rfl
      · exact .inr ⟨_, rfl, fun hset => closed_closed (hsettled hset) _⟩
  | passes c hq hpc hans =>
    unfold Shell.step at hs
    rw [hf.proc, Option.bind_some] at hs
    rcases hpc with ⟨res, hpc⟩ | ⟨todo, hpc⟩
    · simp only [hpc, hf.cond, if_true] at hs
      unfold Shell.ipcSend at hs
      obtain ⟨q', hq', rfl⟩ := Option.map_eq_some_iff.1 hs
      rw [hf.parent, hf.parser, Option.bind_some] at hq'
      obtain ⟨-, -, hn, -⟩ := Proc.receive_some hq'
      refine ⟨_, q', ⟨Shell.set_same _ _ _, hf.parent, hf.rightpipe, hf.cond, ?_, hf.ne⟩,
        .sent c ?_ (.inl rfl) nofun hans ?_⟩
      · rw [Shell.post_procs, Shell.set_ne _ _ hf.ne, hf.parent, Shell.set_same]
      · simp [hn]
      · have h0 := ho.unsent b _ hf.proc (by simp [Proc.owes, hpc, hf.cond]) a
        rw [Shell.statuses_post, if_pos ⟨rfl, hf.parent⟩]
        exact congrArg (· + 1) h0
    · simp only [hpc, Option.some.injEq] at hs
      subst hs
      exact hgoes _ fun t _ => .passes c hq (.inl ⟨_, rfl⟩) hans
  | sent c hq hl hnf hans h1 =>
    obtain ⟨pc, rfl, hpc⟩ := leaves_step hf.proc hl hs
    refine hgoes pc fun t ht => .sent c hq (.inr (hpc.imp_right .inl)) ?_ hans (by rw [ht]; exact h1)
    rcases hpc with rfl | rfl <;> nofun
  | silent hq hl hno h0 =>
    obtain ⟨pc, rfl, hpc⟩ := leaves_step hf.proc hl hs
    exact hgoes pc fun t ht => .silent hq (.inr (hpc.imp_right .inl)) hno (by rw [ht]; exact h0)
  | jammed _ hpc =>
    unfold Shell.step at hs
    rw [hf.proc, Option.bind_some] at hs
    simp [hpc] at hs

theorem underway_program (ho : Owed s) (hf : Forked s b a pr q) {c : Nat} {x : Proc} (hq : q.awaits = some b)
    (hpc : pr.pc = .status c ∨ ∃ todo, pr.pc = .closing c todo ∧
      (Settled W pr.argv → closed (W.status pr.argv) todo = []))
    (hx : s.procs c = some x) (hxp : x.parent = b) (hnil : argv ≠ []) (hlen : argv.length < maxArgs)
    (hexp : expand W argv = some pr.argv) (hstarts : Starts W pr.argv)
    (hst : x.pc = .main ∧ x.argv = pr.argv ∨ x.pc = .report (W.status pr.argv) ∧ W.ends pr.argv ≠ .exits ∨ x.leaves ∧
      W.ends pr.argv = .exits)
    (hs : s.step W c = some s') : Underway W argv b a s' := by
  have hxn : x.awaits = none := by
    rcases hst with ⟨h, -⟩ | ⟨h, -⟩ | ⟨h, -⟩
    · simp [Proc.awaits, h]
    · simp [Proc.awaits, h]
    · exact h.awaits
  have hcb : b ≠ c := fun he => by
    rw [← he, hf.proc] at hx
    cases hx
    rcases hpc with hpc | ⟨todo, hpc, -⟩ <;> simp [Proc.awaits, hpc] at hxn
  have hca : a ≠ c := fun he => by
    rw [← he, hf.parser] at hx
    cases hx
    rw [hxn] at hq
    cases hq
  -- when the program only moves on, `b` and `a` stay
  have hmoves : ∀ x', (x'.pc = .main ∧ x'.argv = pr.argv ∨ x'.pc = .report (W.status pr.argv) ∧
    W.ends pr.argv ≠ .exits ∨
      x'.leaves ∧ W.ends pr.argv = .exits) → x'.parent = b → Underway W argv b a (s.set c x') := fun x' h' hp' =>
    ⟨pr, q, ⟨by rw [s.set_ne _ hcb, hf.proc], hf.parent, hf.rightpipe,
      hf.cond, by rw [s.set_ne _ hca, hf.parser], hf.ne⟩,
      .spawned c x' hq hpc (Shell.set_same _ _ _) hp' hnil hlen hexp hstarts h'⟩
  rcases hst with ⟨hm, hxa⟩ | ⟨hr, hends⟩ | ⟨hl, hends⟩
  · unfold Shell.step at hs
    rw [hx, Option.bind_some] at hs
    simp only [hm, Option.some.injEq] at hs
    subst hs
    refine hmoves _ ?_ hxp
    rw [hxa]
    unfold World.status
    cases he : W.ends pr.argv with
    | returns res => exact .inr (.inl ⟨rfl, nofun⟩)
    | panics => exact .inr (.inl ⟨rfl, nofun⟩)
    | exits => exact .inr (.inr ⟨.inr (.inl rfl), rfl⟩)
  · have hans : Answers W argv pr.argv := ⟨hnil, hlen, hexp, hstarts, hends⟩
    unfold Shell.step at hs
    rw [hx, Option.bind_some] at hs
    simp only [hr] at hs
    unfold Shell.ipcSend at hs
    obtain ⟨pr', hpr', rfl⟩ := Option.map_eq_some_iff.1 hs
    rw [hxp, hf.proc, Option.bind_some] at hpr'
    -- `b` has received it
    have hreceived : ∀ pc, pr' = { pr with pc := pc } →
        ∀ t, t = ((s.set x.parent pr').set c { x with pc := .exit }).post
        (c, x.parent, W.status pr.argv) → Forked t b a { pr with pc := pc } q ∧ t.statuses b a = 0 := by
      rintro pc rfl t rfl
      refine ⟨⟨?_, hf.parent, hf.rightpipe, hf.cond, ?_, hf.ne⟩, ?_⟩
      · rw [Shell.post_procs, Shell.set_ne _ _ hcb, hxp, Shell.set_same]
      · rw [Shell.post_procs, Shell.set_ne _ _ hca, hxp, Shell.set_ne _ _ hf.ne, hf.parser]
      · rw [Shell.statuses_post, if_neg fun he => hcb he.1.symm]
        refine ho.unsent b pr hf.proc ?_ a
        rcases hpc with hpc | ⟨todo, hpc, -⟩ <;> simp [Proc.owes, hpc, hf.cond]
    rcases hpc with hpc | ⟨todo, hpc, hsettled⟩
    · simp only [Proc.receive, hpc, Option.some.injEq] at hpr'
      obtain ⟨hfk, -⟩ := hreceived _ hpr'.symm _ rfl
      exact ⟨_, q, hfk, .passes _ hq (.inl ⟨_, rfl⟩) hans⟩
    · simp only [Proc.receive, hpc, Option.some.injEq] at hpr'
      by_cases hc : closed (W.status pr.argv) todo = []
      · rw [if_pos hc] at hpr'
        obtain ⟨hfk, -⟩ := hreceived _ hpr'.symm _ rfl
        exact ⟨_, q, hfk, .passes _ hq (.inr ⟨_, rfl⟩) hans⟩
      · rw [if_neg hc] at hpr'
        obtain ⟨hfk, h0⟩ := hreceived _ hpr'.symm _ rfl
        exact ⟨_, q, hfk, .jammed hq rfl (fun hd => hc (hsettled (hans.delivers_iff.1 hd))) h0⟩
  · obtain ⟨pc, rfl, hpc'⟩ := leaves_step hx hl hs
    exact hmoves _ (.inr (.inr ⟨.inr (hpc'.imp_right .inl), hends⟩)) hxp

theorem underway_other (ho : Owed s) (hf : Forked s b a pr q) (hst : Stage W argv s b a pr q) (hpb : b ≠ p)
    (hc : pr.awaits ≠ some p) (hs : s.step W p = some s') : Underway W argv b a s' := by
  obtain ⟨y, hy, hm⟩ := moved_step (ho.pipe p) hs
  have hpr' : s'.procs b = some pr := hm.still ho hy hf.proc hpb hc
  have hforked : ∀ q', s'.procs a = some q' → Forked s' b a pr q' := fun q' hq' =>
    ⟨hpr', hf.parent, hf.rightpipe, hf.cond, hq', hf.ne⟩
  have hst0 : s'.statuses b a = s.statuses b a := hm.statuses hpb a
  cases hst with
  | before hq hb hnil hlen hpend =>
    obtain ⟨q', hq', haw⟩ := hm.waits ho hy hf.parser hq hpb
    exact ⟨pr, q', hforked q' hq', .before haw hb hnil hlen hpend⟩
  | spawned c x hq hpc hx hxp hnil hlen hexp hstarts hxs =>
    obtain ⟨q', hq', haw⟩ := hm.waits ho hy hf.parser hq hpb
    have hcp : c ≠ p := fun h => hc (by rcases hpc with hpc | ⟨todo, hpc, -⟩ <;> simp [Proc.awaits, hpc, h])
    have hxn : x.awaits = none := by
      rcases hxs with ⟨h, -⟩ | ⟨h, -⟩ | ⟨h, -⟩
      · simp [Proc.awaits, h]
      · simp [Proc.awaits, h]
      · exact h.awaits
    exact ⟨pr, q', hforked q' hq',
      .spawned c x haw hpc (hm.still ho hy hx hcp (by simp [hxn])) hxp hnil hlen hexp hstarts hxs⟩
  | passes c hq hpc hans =>
    obtain ⟨q', hq', haw⟩ := hm.waits ho hy hf.parser hq hpb
    exact ⟨pr, q', hforked q' hq', .passes c haw hpc hans⟩
  | sent c hq hl hnf hans h1 =>
    obtain ⟨q', hq'⟩ := hm.keeps ho hf.parser
    exact ⟨pr, q', hforked q' hq',
      .sent c (hm.awaits_ne ho hy (ho.lt _ _ hf.proc) hf.parser hq hq') hl hnf hans (hst0.trans h1)⟩
  | silent hq hl hno h0 =>
    obtain ⟨q', hq', haw⟩ := hm.waits ho hy hf.parser hq hpb
    exact ⟨pr, q', hforked q' hq', .silent haw hl hno (hst0.trans h0)⟩
  | jammed hq hpc hno h0 =>
    obtain ⟨q', hq', haw⟩ := hm.waits ho hy hf.parser hq hpb
    exact ⟨pr, q', hforked q' hq', .jammed haw hpc hno (hst0.trans h0)⟩

/-- **Every step, of whichever process, keeps `b` on its way.** -/
theorem underway_step (ho : Owed s) (hu : Underway W argv b a s) (hs : s.step W p = some s') :
    Underway W argv b a s' := by
  obtain ⟨pr, q, hf, hst⟩ := hu
  by_cases hpb : p = b
  · subst hpb
    exact underway_own ho hf hst hs
  · by_cases hc : pr.awaits = some p
    · cases hst with
      | spawned c x hq hpc hx hxp hnil hlen hexp hstarts hxs =>
        obtain rfl : c = p := by rcases hpc with h | ⟨todo, h, -⟩ <;> simpa [Proc.awaits, h] using hc
        exact underway_program ho hf hq hpc hx hxp hnil hlen hexp hstarts hxs hs
      | before _ hb => simp [hb.awaits] at hc
      | passes _ _ hpc => rcases hpc with ⟨res, hpc⟩ | ⟨todo, hpc⟩ <;> simp [Proc.awaits, hpc] at hc
      | sent _ _ hl => simp [hl.awaits] at hc
      | silent _ hl => simp [hl.awaits] at hc
      | jammed _ hpc => simp [Proc.awaits, hpc] at hc
    · exact underway_other ho hf hst (fun h => hpb h.symm) hc hs

/-! ### `b` gets to its end -/

/-- What `close_all` has still to do. -/
def weight : List Nat → Nat
  | [] => 0
  | n :: todo => n + 1 + weight todo

theorem weight_closed {todo : List Nat} (r : Int) (h : todo ≠ []) : weight (closed r todo) < weight todo := by
  cases todo with
  | nil => exact absurd rfl h
  | cons n todo =>
    by_cases hn : n ≤ 1 ∨ r < 0
    · simp [closed, weight, hn]
    · simp only [closed, weight, hn, if_false]
      omega

/-- What `b` and its program have still to do. -/
def Shell.left (W : World) (s : Shell) (b : Nat) : Nat :=
  ((s.procs b).map fun pr =>
    match pr.pc with
    | .closing _ todo => weight todo + 8
    | .status c => if (s.procs c).any (·.pc == .main) then 7 else 6
    | .late _ => 6
    | .forward _ => 5
    | .waitRight => 2
    | .exit => 1
    | .gone => 0
    | _ => pr.way + 1 + weight (requests (((pr.pending W).map W.files).getD []))).getD 0

theorem left_before {pr : Proc} (hpr : s.procs b = some pr) (h : pr.before) :
    s.left W b = pr.way + 1 + weight (requests (((pr.pending W).map W.files).getD [])) ∧ 8 ≤ pr.way := by
  rcases h with h | ⟨i, h⟩ | ⟨i, h⟩ | h <;> simp [Shell.left, hpr, Proc.way, h]

theorem left_closes {pr : Proc} {c : Nat} {todo : List Nat} (hpr : s.procs b = some { pr with pc := .closes c todo }) :
    s.left W b ≤ if todo = [] then 7 else weight todo + 8 := by
  unfold Shell.left
  rw [hpr]
  unfold Pc.closes
  split
  · simp only [Option.map_some, Option.getD_some]
    split <;> omega
  · simp

theorem Proc.before.runs {pr : Proc} (hpr : s.procs b = some pr) (h : pr.before) : ∃ s', s.step W b = some s' := by
  unfold Shell.step
  rw [hpr, Option.bind_some]
  rcases h with h | ⟨i, h⟩ | ⟨i, h⟩ | h <;> simp only [h] <;> exact ⟨_, rfl⟩

theorem Proc.receive_of_awaits {q : Proc} {c : Nat} (h : q.awaits = some c) (res : Int) :
    ∃ q', q.receive res = some q' := by
  unfold Proc.awaits at h
  split at h
  · rename_i hpc
    exact ⟨_, by simp only [Proc.receive, hpc]; rfl⟩
  · rename_i hpc
    exact ⟨_, by simp only [Proc.receive, hpc]; rfl⟩
  · rename_i hpc
    exact ⟨_, by simp only [Proc.receive, hpc]; rfl⟩
  · rename_i hpc
    exact ⟨_, by simp only [Proc.receive, hpc]; rfl⟩
  · cases h

/-- A step before `spawn` brings `b` nearer to its end, where it does not give up. -/
theorem Nears.left (hn : Nears W s b pr s') (hpr : s.procs b = some pr) (hb : pr.before) {c : Cmd}
    (hc : pr.pending W = some c) (hstarts : Starts W c) : s'.left W b < s.left W b := by
  obtain ⟨hl, h8⟩ := left_before (W := W) hpr hb
  rw [hl]
  cases hn with
  | nearer pr' hpr' _ _ _ hb' hpend hlt =>
    rw [(left_before hpr' hb').1, hpend]
    omega
  | spawned x hown _ hpr' =>
    have hle := left_closes (W := W) hpr'
    rw [hown, Option.map_some, Option.getD_some]
    split at hle <;> omega
  | givesUp pc _ _ hno => exact absurd hstarts (hno c hc)

/-- **While the status is to come, somebody has a step that brings `b` nearer to its end.** -/
theorem progress (ho : Owed s) (hf : Forked s b a pr q) (hst : Stage W argv s b a pr q) (hd : Delivers W argv)
    (hg : pr.pc ≠ .gone) : ∃ p s', s.step W p = some s' ∧ s'.left W b < s.left W b := by
  cases hst with
  | before hq hb _ _ hpend =>
    obtain ⟨c, hans, -⟩ := hd
    obtain ⟨s', hs⟩ := hb.runs (W := W) hf.proc
    exact ⟨b, s', hs, (nears_step ho hf.proc hb hs).left hf.proc hb (hpend.trans hans.2.2.1) hans.2.2.2.1⟩
  | spawned c x hq hpc hx hxp hnil hlen hexp _ hxs =>
    rcases hpc with hpc | ⟨todo, hpc, -⟩
    · have hcb : b ≠ c := fun he => by
        rw [← he, hf.proc] at hx
        cases hx
        rcases hxs with ⟨h, -⟩ | ⟨h, -⟩ | ⟨h | h | h | h, -⟩ <;> simp [hpc] at h
      refine ⟨c, ?_⟩
      rcases hxs with ⟨hm, -⟩ | ⟨hr, -⟩ | ⟨-, hends⟩
      · refine ⟨_, by unfold Shell.step; rw [hx, Option.bind_some]; simp only [hm]; rfl, ?_⟩
        have h7 : s.left W b = 7 := by simp [Shell.left, hf.proc, hpc, hx, hm]
        have h6 : ∀ x' : Proc, x'.pc ≠ .main → (s.set c x').left W b = 6 := fun x' hx' => by
          simp [Shell.left, s.set_ne _ hcb, hf.proc, hpc, hx']
        rw [h6 _ (by cases W.ends x.argv <;> nofun), h7]
        omega
      · have hrec : pr.receive (W.status pr.argv) = some { pr with pc := .forward (W.status pr.argv) } := by
          simp [Proc.receive, hpc]
        refine ⟨((s.set b { pr with pc := .forward (W.status pr.argv) }).set c { x with pc := .exit }).post
          (c, b, W.status pr.argv), ?_, ?_⟩
        · unfold Shell.step
          rw [hx, Option.bind_some]
          simp only [hr]
          unfold Shell.ipcSend
          rw [hxp, hf.proc, Option.bind_some, hrec]
          rfl
        have h6 : s.left W b = 6 := by simp [Shell.left, hf.proc, hpc, hx, hr]
        have h5 : (((s.set b { pr with pc := .forward (W.status pr.argv) }).set c { x with pc := .exit }).post
            (c, b, W.status pr.argv)).left W b = 5 := by
          simp [Shell.left, Shell.set_ne _ _ hcb]
        rw [h5, h6]
        omega
      · obtain ⟨c', hans, -⟩ := hd
        cases hexp.symm.trans hans.2.2.1
        exact absurd hends hans.2.2.2.2
    · refine ⟨b, s.set b { pr with pc := .closes c (closed (W.replies pr.argv todo) todo) }, ?_, ?_⟩
      · unfold Shell.step
        rw [hf.proc, Option.bind_some]
        simp only [hpc]
      · have hl : s.left W b = weight todo + 8 := by simp [Shell.left, hf.proc, hpc]
        have hle := left_closes (W := W)
            (s.set_same b { pr with pc := .closes c (closed (W.replies pr.argv todo) todo) })
        rw [hl]
        split at hle
        · omega
        · rename_i hne
          have hlt := weight_closed (W.replies pr.argv todo) fun hnil : todo = [] => hne (by rw [hnil]; rfl)
          omega
  | passes c hq hpc _ =>
    rcases hpc with ⟨res, hpc⟩ | ⟨todo, hpc⟩
    · obtain ⟨q', hq'⟩ := Proc.receive_of_awaits hq res
      refine ⟨b, ((s.set a q').set b { pr with pc := .waitRight }).post (b, a, res), ?_, ?_⟩
      · unfold Shell.step
        rw [hf.proc, Option.bind_some]
        simp only [hpc, hf.cond, if_true]
        unfold Shell.ipcSend
        rw [hf.parent, hf.parser, Option.bind_some, hq']
        simp [hf.cond]
      have h5 : s.left W b = 5 := by simp [Shell.left, hf.proc, hpc]
      have h2 : (((s.set a q').set b { pr with pc := .waitRight }).post (b, a, res)).left W b =
          2 := by simp [Shell.left]
      rw [h2, h5]
      omega
    · refine ⟨b, s.set b { pr with pc := .forward (W.replies pr.argv todo) }, ?_, ?_⟩
      · unfold Shell.step
        rw [hf.proc, Option.bind_some]
        simp only [hpc]
      · simp [Shell.left, hf.proc, hpc]
  | sent c _ hl hnf _ _ =>
    rcases hl with h | h | h | h
    · refine ⟨b, s.set b { pr with pc := .exit }, ?_, ?_⟩
      · unfold Shell.step
        rw [hf.proc, Option.bind_some]
        simp [h, hf.rightpipe]
      · simp [Shell.left, hf.proc, h]
    · refine ⟨b, s.set b { pr with pc := .gone }, ?_, ?_⟩
      · unfold Shell.step
        rw [hf.proc, Option.bind_some]
        simp [h]
      · simp [Shell.left, hf.proc, h]
    · exact absurd h hg
    · exact absurd h hnf
  | silent _ _ hno _ =>
    obtain ⟨c, hans, -⟩ := hd
    exact absurd hans (hno c)
  | jammed _ _ hno _ => exact absurd hd hno

/-- **It can always get to its end**, from wherever it is. -/
theorem finishes (hd : Delivers W argv) : ∀ (n : Nat) (s : Shell), Owed s → Underway W argv b a s → s.left W b ≤ n →
    ∃ u, Shell.After W s u ∧ Owed u ∧ Underway W argv b a u ∧ ∃ pr, u.procs b = some pr ∧ pr.pc = .gone := by
  intro n
  induction n with
  | zero =>
    intro s ho hu hn
    obtain ⟨pr, q, hf, hst⟩ := hu
    by_cases hg : pr.pc = .gone
    · exact ⟨s, .start s rfl, ho, ⟨pr, q, hf, hst⟩, pr, hf.proc, hg⟩
    · obtain ⟨p, s', -, hlt⟩ := progress ho hf hst hd hg
      omega
  | succ n ih =>
    intro s ho hu hn
    obtain ⟨pr, q, hf, hst⟩ := hu
    by_cases hg : pr.pc = .gone
    · exact ⟨s, .start s rfl, ho, ⟨pr, q, hf, hst⟩, pr, hf.proc, hg⟩
    · obtain ⟨p, s', hs, hlt⟩ := progress ho hf hst hd hg
      obtain ⟨u, hau, hrest⟩ := ih s' (ho.step hs) (underway_step ho ⟨pr, q, hf, hst⟩ hs) (by omega)
      exact ⟨u, Run.trans (.next s p s' (.start s rfl) trivial hs) hau, hrest⟩

/-! ### `b` is jammed -/

theorem gets_to_close {c : Cmd} (hans : Answers W argv c) :
    ∀ (n : Nat) (s : Shell) (pr q : Proc), Owed s → Forked s b a pr q →
    q.awaits = some b → pr.before → pr.pending W = some c → s.left W b ≤ n →
    ∃ u pr q p x, Shell.After W s u ∧ Forked u b a pr q ∧ pr.argv = c ∧ pr.pc = .closes p (requests (W.files c)) ∧
      u.procs p = some x ∧ x.parent = b ∧ x.pc = .main ∧ x.argv = c := by
  intro n
  induction n with
  | zero =>
    intro s pr q _ hf _ hb _ hn
    have hl := left_before (W := W) hf.proc hb
    omega
  | succ n ih =>
    intro s pr q ho hf hq hb hpend hn
    obtain ⟨s', hs⟩ := hb.runs (W := W) hf.proc
    obtain ⟨y, hy, hm⟩ := moved_step (ho.pipe b) hs
    obtain rfl : y = pr := Option.some.inj (hy.symm.trans hf.proc)
    have hq' := hm.others ho hb.sends.1 hb.sends.2 hf.parser hf.ne
    have hnears := nears_step ho hf.proc hb hs
    have hlt := hnears.left hf.proc hb hpend hans.2.2.2.1
    cases hnears with
    | nearer pr' hpr' hp hr hc hb' hpend' =>
      obtain ⟨u, pr₁, q₁, p, x, hau, hrest⟩ := ih s' pr' q (ho.step hs)
        ⟨hpr', hp.trans hf.parent, hr.trans hf.rightpipe, hc.trans hf.cond, hq', hf.ne⟩ hq hb'
        (hpend'.trans hpend) (by omega)
      exact ⟨u, pr₁, q₁, p, x, Run.trans (.next s b s' (.start s rfl) trivial hs) hau, hrest⟩
    | spawned x hown _ hpr' hx hxp hxm hxa =>
      obtain rfl : y.argv = c := Option.some.inj (hown.symm.trans hpend)
      exact ⟨s', _, q, s.count, x, .next s b s' (.start s rfl) trivial hs,
        ⟨hpr', hf.parent, hf.rightpipe, hf.cond, hq', hf.ne⟩,
        rfl, rfl, hx, hxp, hxm, hxa⟩
    | givesUp pc _ _ hno => exact absurd hans.2.2.2.1 (hno c hpend)

/-- **The program ends before the first reply**, and its status is taken for it: there is a request left. -/
theorem jams {c : Cmd} (hans : Answers W argv c) (hno : ¬Settled W c) (ho : Owed s) (hf : Forked s b a pr q)
    (hq : q.awaits = some b) (hb : pr.before) (hpend : pr.pending W = some c) :
    ∃ u, Shell.After W s u ∧ ∃ pr, u.procs b = some pr ∧ pr.pc = .jammed := by
  obtain ⟨u, pr, q, p, x, hau, hfu, rfl, hpc, hx, hxp, hxm, hxa⟩ :=
    gets_to_close hans _ s pr q ho hf hq hb hpend (Nat.le_refl _)
  have hleft : closed (W.status pr.argv) (requests (W.files pr.argv)) ≠ [] := mt (settled_iff W pr.argv).2 hno
  have hclosing : pr.pc = .closing p (requests (W.files pr.argv)) := by
    rw [hpc]
    exact if_neg fun hnil => hleft (by rw [hnil]; rfl)
  have hpb : b ≠ p := fun he => by
    rw [← he, hfu.proc] at hx
    cases hx
    simp [hclosing] at hxm
  have hmain : u.step W p = some (u.set p { x with pc := .report (W.status pr.argv) }) := by
    unfold Shell.step
    rw [hx, Option.bind_some]
    simp only [hxm, hxa]
    unfold World.status
    cases he : W.ends pr.argv with
    | returns res => rfl
    | panics => rfl
    | exits => exact absurd he hans.2.2.2.2
  have hsend : (u.set p { x with pc := .report (W.status pr.argv) }).step W p = some
      ((((u.set p { x with pc := .report (W.status pr.argv) }).set b { pr with pc := .jammed }).set p
        { x with pc := .exit }).post (p, b, W.status pr.argv)) := by
    unfold Shell.step
    rw [Shell.set_same, Option.bind_some]
    unfold Shell.ipcSend
    dsimp only
    rw [hxp, Shell.set_ne _ _ hpb, hfu.proc, Option.bind_some]
    simp [Proc.receive, hclosing, hleft]
  refine ⟨_, .next _ p _ (.next u p _ hau trivial hmain) trivial hsend, { pr with pc := .jammed }, ?_, rfl⟩
  rw [Shell.post_procs, Shell.set_ne _ _ hpb, Shell.set_same]

theorem jammed_after (ho : Owed s) (hpr : s.procs b = some pr) (hpc : pr.pc = .jammed) {t : Shell}
    (h : Shell.After W s t) :
    Owed t ∧ t.procs b = some pr := by
  refine Run.invariant (fun t => Owed t ∧ t.procs b = some pr) (fun t ht => by rw [ht]; exact ⟨ho, hpr⟩)
    (fun t p t' ⟨ho, hpr⟩ _ hs => ⟨ho.step hs, ?_⟩) t h
  obtain ⟨y, hy, hm⟩ := moved_step (ho.pipe p) hs
  refine hm.still ho hy hpr (fun he => ?_) (by simp [Proc.awaits, hpc])
  unfold Shell.step at hs
  rw [← he, hpr, Option.bind_some] at hs
  simp [hpc] at hs

end Underway

/-! ## The claim of the two cases -/

/-- **The status is delivered**: whatever is run after the fork, `b` sends no second status to `a`, has sent one when it
is destroyed, and can still get there, which answers the receive of `a`. -/
def StatusDelivered (W : World) (b a : Nat) (s : Shell) : Prop :=
  ∀ t, Shell.After W s t → t.statuses b a ≤ 1 ∧
    (∀ pr, t.procs b = some pr → pr.pc = .gone → t.statuses b a = 1) ∧
    ∃ u, Shell.After W t u ∧ u.statuses b a = 1 ∧ (∃ pr, u.procs b = some pr ∧ pr.pc = .gone) ∧
      ∀ q, u.procs a = some q → q.awaits ≠ some b

theorem underway_fork {W : World} {s s' : Shell} {a : Nat} {pr : Proc} (ho : Owed s) (hpr : s.procs a = some pr)
    (hpc : pr.pc = .parse) (htok : pr.scan.nc = .or ∨ pr.scan.nc = .and) (hfork : W.forks pr.argv = true)
    (hs : s.step W a = some s') : Owed s' ∧ ∃ x q, Forked s' s.count a x q ∧ Stage W pr.argv s' s.count a x q ∧
      ∀ c, Answers W pr.argv c → q.awaits = some s.count ∧ x.before ∧ x.pending W = some c := by
  refine ⟨ho.step hs, ?_⟩
  have hne : a ≠ s.count := Nat.ne_of_lt (ho.lt _ _ hpr)
  have hrp := ho.pipe _ _ hpr (by simp [Proc.parses, hpc])
  let child : Proc := { pr with parent := a, cond := true, back := false, scan := pr.scan.next }
  obtain ⟨q, hq, rfl⟩ : ∃ q : Proc, q.awaits = some s.count ∧ s' = (s.add child.returned).set a q := by
    unfold Shell.step at hs
    rw [hpr, Option.bind_some] at hs
    simp only [hpc, Option.some.injEq] at hs
    subst hs
    unfold Shell.parsecmd
    rcases htok with h | h <;> simp only [h, hfork]
    · exact ⟨_, rfl, rfl⟩
    · exact ⟨_, rfl, rfl⟩
  have hproc : ((s.add child.returned).set a q).procs s.count = some child.returned := by
    rw [Shell.set_ne _ _ hne.symm, s.add_same]
  have hfk : Forked ((s.add child.returned).set a q) s.count a child.returned q :=
    ⟨hproc, by simp [child], by rw [child.returned_pc.1]; exact hrp, by rw [child.returned_pc.1],
      Shell.set_same _ _ _, hne⟩
  refine ⟨_, q, hfk, ?_⟩
  by_cases hnil : pr.argv = []
  · have hret : child.returned.pc = .exit := by simp [Proc.returned, child, hnil]
    have hno : ∀ c, ¬Answers W pr.argv c := fun c hc => hc.1 hnil
    exact ⟨.silent hq (.inr (.inl hret)) hno (ho.fresh _ (Nat.le_refl _) _), fun c hc => absurd hc (hno c)⟩
  · by_cases hlen : maxArgs ≤ pr.argv.length
    · have hret : child.returned.pc = .fault := by simp [Proc.returned, child, hnil, hlen]
      have hno : ∀ c, ¬Answers W pr.argv c := fun c hc => absurd hc.2.1 (Nat.not_lt.2 hlen)
      exact ⟨.silent hq (.inr (.inr (.inr hret))) hno (ho.fresh _ (Nat.le_refl _) _), fun c hc => absurd hc (hno c)⟩
    · have hret : child.returned = { child with pc := .run } := by simp [Proc.returned, child, hnil, hlen]
      have hrun : child.returned.before := .inl (by rw [hret])
      have hpend : child.returned.pending W = expand W pr.argv := by rw [hret]; rfl
      exact ⟨.before hq hrun hnil (Nat.not_le.1 hlen) hpend, fun c hc => ⟨hq, hrun, hpend.trans hc.2.2.1⟩⟩

theorem underway_after {W : World} {s : Shell} {argv : Cmd} {b a : Nat} (ho : Owed s) (hu : Underway W argv b a s) :
    ∀ t, Shell.After W s t → Owed t ∧ Underway W argv b a t :=
  Run.invariant _ (fun t ht => by rw [ht]; exact ⟨ho, hu⟩)
    (fun t p t' ⟨ho, hu⟩ _ hst => ⟨ho.step hst, underway_step ho hu hst⟩)

theorem StatusDelivered.answers {W : World} {s : Shell} {argv : Cmd} {b a : Nat} (h : StatusDelivered W b a s)
    (ho : Owed s) (hu : Underway W argv b a s) : ∃ c, Answers W argv c := by
  obtain ⟨-, -, u, hau, h1, -, -⟩ := h s (.start s rfl)
  obtain ⟨hou, x, q, hf, hst⟩ := underway_after ho hu u hau
  exact ((hst.statuses hf hou).2.1 h1).2

/-- Every call succeeds, no file is open, and every program returns 0. -/
def World.calm : World :=
  ⟨fun _ _ => true, fun _ => true, fun _ => true, fun _ => true, fun _ => .returns 0, fun _ _ => some [],
    fun _ => [], fun _ _ => 0⟩

/-- `a` is about to fork for the one-word command `c` on the left. -/
def Shell.atFork (c : List Char) (s : Shell) : Bool :=
  (s.procs 1).any fun pr => pr.pc == .parse && pr.scan.nc == .and && pr.argv == [⟨.line 0, c⟩]

theorem exists_atFork (line c : List Char)
    (h : ((some (Shell.start line)).bind (exec (Shell.step .calm) (fun _ _ => true) [1])).any (·.atFork c) = true) :
    ∃ s s' pr, Shell.Reached .calm line s ∧ s.procs 1 = some pr ∧ pr.pc = .parse ∧
    (pr.scan.nc = .or ∨ pr.scan.nc = .and) ∧
      pr.argv = [⟨.line 0, c⟩] ∧ s.step .calm 1 = some s' := by
  obtain ⟨s, hs, hp⟩ := @Run.exists_of_exec Shell Nat (· = Shell.start line) (Shell.step .calm) (fun _ _ => True)
    (fun _ _ => true) (fun _ _ _ => trivial) [1] (some (Shell.start line))
    (fun _ h => (Option.some.inj h).symm) (·.atFork c) h
  obtain ⟨pr, hpr, hx⟩ := (Option.any_eq_true _ _).1 hp
  simp only [Bool.and_eq_true, beq_iff_eq] at hx
  refine ⟨s, s.parsecmd .calm 1 pr, pr, hs, hpr, hx.1.1, .inr hx.1.2, hx.2, ?_⟩
  unfold Shell.step
  rw [hpr, Option.bind_some]
  simp [hx.1.1]

end Mos.Sh
