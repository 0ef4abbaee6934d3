import Mathlib.Data.List.Nodup
import Mathlib.Data.List.Pairwise
import Mos.Redirections
/-!
# RedirectScope — whose redirections a program has

`Spot` follows the process that parses the line, with the redirections it has read; `Serves` the child it waits for, and
`Ready` every process that is still to spawn its command.  In a list that is `Confined` the descriptors of each are
those of its own command.
-/
namespace Mos.Sh

/-! ## What holds in every state -/

/-- The process is between `parsecmd` and `spawn` with the command `C`. -/
def Under (pr : Proc) (C : Cmd) : Prop :=
  ∃ i, (pr.pc = .run ∧ i = 1 ∨ pr.pc = .args i ∧ 1 ≤ i ∨ pr.pc = .spawn) ∧ Alike i pr.argv C ∧
    pr.argv.head? = C.head? ∧ C ≠ [] ∧ C.length < maxArgs

/-- It has spawned its program, and has a status to have or to send. -/
def Pc.spawned : Pc → Bool
  | .closing _ _ | .status _ | .late _ | .jammed | .forward _ => true
  | _ => false

theorem Pc.closes_spawned (c : Nat) (todo : List Nat) : (Pc.closes c todo).spawned = true := by
  unfold Pc.closes
  split <;> rfl

/-- The child `b` that runs the command `C` for the parser. -/
def Serves (s : Shell) (b : Nat) (C : Cmd) : Prop :=
  b ≠ 1 ∧ ∃ y, s.procs b = some y ∧ (Under y C ∨ y.pc.spawned = true ∧ Runs C ∨
    (y.pc = .waitRight ∨ y.pc = .exit ∨ y.pc = .gone) ∧ ¬Faults C ∨ y.pc = .fault)

/-- **Where the parser is**: `F` are its descriptors. -/
inductive Spot (T : Fds) (cs : List Command) (s : Shell) (F : Fds) (q : Proc) : Prop where
  | parse (past c x done todo : Command) (rest : Commands) : q.pc = .parse → c ∈ cs → c ++ x = done ++ todo →
      Plain (wordsOf (Command.tokens (done ++ todo))) → (∀ z ∈ rest, z.2 ∈ cs) → q.argv = done.words →
      done.words.length ≤ maxArgs → Reads q.scan (todo.tokens ++ rest.tokens) → F = Command.wiring T (past ++ done) →
        Confined past (some (c, x)) rest →
      Spot T cs s F q
  | left (b : Nat) (C : Cmd) (past d : Command) (rest : Commands) : q.pc = .waitLeft b → Serves s b C → d ∈ cs →
      (∀ z ∈ rest, z.2 ∈ cs) → Reads q.scan (d.tokens ++ rest.tokens) → F = Command.wiring T past →
      (¬Faults C → Confined past (some (d, [])) rest) → Spot T cs s F q
  | or (b : Nat) (C : Cmd) (past d : Command) (rest : Commands) : q.pc = .answerOr b → Serves s b C → d ∈ cs →
      (∀ z ∈ rest, z.2 ∈ cs) → Reads q.scan (d.tokens ++ rest.tokens) → F = Command.wiring T past →
      (Runs C → Confined past none rest ∧ Confined past (some (d, [])) rest) → Spot T cs s F q
  | and (b : Nat) (past c x d : Command) (rest : Commands) : q.pc = .answerAnd b → Serves s b (Command.words (c ++ x)) →
      c ∈ cs → d ∈ cs → (∀ z ∈ rest, z.2 ∈ cs) → Plain (wordsOf (Command.tokens (c ++ x))) →
      q.argv = Command.words (c ++ x) → Reads q.scan (d.tokens ++ rest.tokens) →
        F = Command.wiring T (past ++ (c ++ x)) →
      (Runs (Command.words (c ++ x)) → Confined (past ++ (c ++ x)) (some (d, [])) rest ∧
        Confined past (some (c, x ++ d.skipped)) rest) → Spot T cs s F q
  | skipOr (past : Command) (ts : List Token) (rest : Commands) : q.pc = .skipOr →
      (∀ t ∈ ts, ∀ op : Sep, t ≠ .sym op.tok) →
      (∀ z ∈ rest, z.2 ∈ cs) → Reads q.scan (ts ++ rest.tokens) → F = Command.wiring T past → Confined past none rest →
      Spot T cs s F q
  | skipAnd (past c x d : Command) (rest : Commands) : q.pc = .skipAnd → c ∈ cs → d ∈ cs → (∀ z ∈ rest, z.2 ∈ cs) →
      Plain (wordsOf (Command.tokens (c ++ x))) → q.argv = Command.words (c ++ x) → q.argv.length ≤ maxArgs →
      Reads q.scan (d.tokens ++ rest.tokens) → F = Command.wiring T (past ++ (c ++ x)) →
      Confined past (some (c, x ++ d.skipped)) rest → Spot T cs s F q
  | out : q.parses = false → Spot T cs s F q

/-- A process that is to spawn a program has the descriptors of its command: `F` are its descriptors. -/
def Ready (T : Fds) (cs : List Command) (F : Fds) (pr : Proc) : Prop :=
  (∀ i, pr.pc ≠ .output i) ∧ (pr.pc = .run ∨ (∃ i, pr.pc = .args i) ∨ pr.pc = .spawn → ∃ c ∈ cs, ∃ x,
    Under pr (Command.words (c ++ x)) ∧ (Runs (Command.words (c ++ x)) → ∀ n < 2, F n = (c.target n).or (T n)))

/-- **The invariant.** -/
structure Wired.Inv (T : Fds) (cs : List Command) (t : Wired) : Prop where
  spot : ∃ q, t.shell.procs 1 = some q ∧ Spot T cs t.shell (t.fds 1) q
  only : ∀ r pr, r ≠ 1 → t.shell.procs r = some pr → pr.parses = false
  ready : ∀ r pr, t.shell.procs r = some pr → Ready T cs (t.fds r) pr
  right : t.Scoped T cs

theorem Serves.frame {s s' : Shell} {b : Nat} {C : Cmd} (h : Serves s b C) (hb : s'.procs b = s.procs b) :
    Serves s' b C := by
  obtain ⟨h1, y, hy, hpc⟩ := h
  exact ⟨h1, y, hb.trans hy, hpc⟩

theorem Spot.frame {T : Fds} {cs : List Command} {s s' : Shell} {F : Fds} {q : Proc} (h : Spot T cs s F q)
    (hs : ∀ b C, Serves s b C → Serves s' b C) : Spot T cs s' F q := by
  cases h with
  | parse past c x done todo rest => exact .parse past c x done todo rest ‹_› ‹_› ‹_› ‹_› ‹_› ‹_› ‹_› ‹_› ‹_› ‹_›
  | left b C past d rest hpc hb => exact .left b C past d rest hpc (hs b C hb) ‹_› ‹_› ‹_› ‹_› ‹_›
  | or b C past d rest hpc hb => exact .or b C past d rest hpc (hs b C hb) ‹_› ‹_› ‹_› ‹_› ‹_›
  | and b past c x d rest hpc hb => exact .and b past c x d rest hpc (hs b _ hb) ‹_› ‹_› ‹_› ‹_› ‹_› ‹_› ‹_› ‹_›
  | skipOr past ts rest => exact .skipOr past ts rest ‹_› ‹_› ‹_› ‹_› ‹_› ‹_›
  | skipAnd past c x d rest => exact .skipAnd past c x d rest ‹_› ‹_› ‹_› ‹_› ‹_› ‹_› ‹_› ‹_› ‹_› ‹_›
  | out h => exact .out h

theorem ready_of_pc {T : Fds} {cs : List Command} {F : Fds} {pr : Proc} (ho : ∀ i, pr.pc ≠ .output i)
    (hr : pr.pc ≠ .run) (ha : ∀ i, pr.pc ≠ .args i) (hs : pr.pc ≠ .spawn) : Ready T cs F pr :=
  ⟨ho, fun h => by
    rcases h with h | ⟨i, h⟩ | h
    · exact absurd h hr
    · exact absurd h (ha i)
    · exact absurd h hs⟩

section

variable {T : Fds} {cs : List Command} {p : Nat} {pr : Proc}

theorem returned_cases {pr : Proc} {C : Cmd} (ha : pr.argv = C) (hn : C ≠ []) (hp : Plain C) :
    pr.returned.pc = .fault ∧ Faults C ∨ pr.returned = { pr with pc := .run } ∧ Under pr.returned C := by
  by_cases hl : maxArgs ≤ C.length
  · exact .inl ⟨by simp [Proc.returned, ha, hn, hl], .inl hl⟩
  · have hr : pr.returned = { pr with pc := .run } := by simp [Proc.returned, ha, hn, hl]
    refine .inr ⟨hr, 1, .inl ⟨by rw [hr], rfl⟩, ?_, ?_, hn, Nat.not_le.1 hl⟩
    · rw [hr, ha]
      exact .refl hp
    · rw [hr, ha]

theorem Under.pc_cases {C : Cmd} (h : Under pr C) : pr.pc = .run ∨ (∃ i, pr.pc = .args i) ∨ pr.pc = .spawn := by
  obtain ⟨i, hpc, -⟩ := h
  rcases hpc with ⟨h, -⟩ | ⟨h, -⟩ | h
  · exact .inl h
  · exact .inr (.inl ⟨i, h⟩)
  · exact .inr (.inr h)

theorem Under.parses {C : Cmd} (h : Under pr C) : pr.parses = false := by
  rcases h.pc_cases with h | ⟨i, h⟩ | h <;> simp [Proc.parses, h]

theorem Under.output {C : Cmd} (h : Under pr C) (i : Nat) : pr.pc ≠ .output i := by
  rcases h.pc_cases with h | ⟨i, h⟩ | h <;> simp [h]

theorem Under.alike {C D : Cmd} (h : Under pr C) (h' : Under pr D) : Runs C ↔ Runs D := by
  obtain ⟨i, -, ha, -, hn, hl⟩ := h
  obtain ⟨j, -, hb, -, hn', hl'⟩ := h'
  rw [runs_iff_of_alike ha hn hl, runs_iff_of_alike hb hn' hl']

theorem Under.faults {C D : Cmd} (h : Under pr C) (h' : Under pr D) : Faults C ↔ Faults D := by
  obtain ⟨i, -, ha, -, hn, hl⟩ := h
  obtain ⟨j, -, hb, -, hn', hl'⟩ := h'
  unfold Faults
  rw [← ha.prog, ← hb.prog, ← ha.length, ← hb.length]

theorem serves_under {s : Shell} {C D : Cmd} (hpr : s.procs p = some pr) (hu : Under pr C) (hs : Serves s p D) :
    Under pr D := by
  obtain ⟨-, y, hy, h⟩ := hs
  cases hpr.symm.trans hy
  have hpc := hu.pc_cases
  rcases h with h | ⟨h, -⟩ | ⟨h | h | h, -⟩ | h
  · exact h
  · rcases hpc with hpc | ⟨i, hpc⟩ | hpc <;> rw [hpc] at h <;> cases h
  all_goals rw [h] at hpc; rcases hpc with hpc | ⟨i, hpc⟩ | hpc <;> cases hpc

theorem Under.at_run {C : Cmd} (h : Under pr C) (hpc : pr.pc = .run) :
    Alike 1 pr.argv C ∧ pr.argv.head? = C.head? ∧ C ≠ [] ∧ C.length < maxArgs := by
  obtain ⟨i, hi, h⟩ := h
  rcases hi with ⟨-, rfl⟩ | ⟨hi, -⟩ | hi
  · exact h
  · cases hpc.symm.trans hi
  · cases hpc.symm.trans hi

theorem Under.at_args {C : Cmd} {i : Nat} (h : Under pr C) (hpc : pr.pc = .args i) :
    1 ≤ i ∧ Alike i pr.argv C ∧ pr.argv.head? = C.head? ∧ C ≠ [] ∧ C.length < maxArgs := by
  obtain ⟨j, hj, h⟩ := h
  rcases hj with ⟨hj, -⟩ | ⟨hj, hle⟩ | hj
  · cases hpc.symm.trans hj
  · obtain rfl : i = j := Pc.args.inj (hpc.symm.trans hj)
    exact ⟨hle, h⟩
  · cases hpc.symm.trans hj

theorem quiet_of_spawned (h : pr.pc.spawned = true) (F : Fds) : Ready T cs F pr ∧ pr.parses = false := by
  have hne : ∀ pc, pr.pc = pc → pc.spawned = true := fun pc hpc => hpc ▸ h
  refine ⟨ready_of_pc (fun i hc => ?_) (fun hc => ?_) (fun i hc => ?_) fun hc => ?_, ?_⟩
  · cases hne _ hc
  · cases hne _ hc
  · cases hne _ hc
  · cases hne _ hc
  · unfold Proc.parses
    cases hpc : pr.pc with
    | parse | waitLeft | answerOr | answerAnd | skipOr | skipAnd => cases hne _ hpc
    | _ => rfl

theorem quiet_of_pc {pc : Pc} (hpc : pc = .waitRight ∨ pc = .exit ∨ pc = .gone ∨ pc = .prompt ∨ pc = .fault ∨
    (∃ res, pc = .report res) ∨ pc.spawned = true) (h : pr.pc = pc) (F : Fds) :
    Ready T cs F pr ∧ pr.parses = false := by
  rcases hpc with rfl | rfl | rfl | rfl | rfl | ⟨res, rfl⟩ | hsp
  rotate_right
  · exact quiet_of_spawned (h ▸ hsp) F
  all_goals exact ⟨ready_of_pc (by simp [h]) (by simp [h]) (by simp [h]) (by simp [h]), by simp [Proc.parses, h]⟩

theorem Serves.later {s s' : Shell} {D : Cmd} {pr' : Proc} (h : Serves s p D) (hpr : s.procs p = some pr)
    (hp' : s'.procs p = some pr') (hpc : ((∃ res, pr.pc = .forward res) ∧ pr'.pc = .waitRight) ∨
      (pr.pc = .waitRight ∧ pr'.pc = .exit) ∨ (pr.pc = .exit ∧ pr'.pc = .gone) ∨
      (pr.pc.spawned = true ∧ pr'.pc.spawned = true) ∨ pr.pc = .main ∨ (∃ res, pr.pc = .report res) ∨
      ∃ c, pr.pc = .waitLine c) : Serves s' p D := by
  obtain ⟨h1, y, hy, h⟩ := h
  cases hpr.symm.trans hy
  have hu : ∀ {pc : Pc}, pr.pc = pc → pc ≠ .run → (∀ i, pc ≠ .args i) → pc ≠ .spawn → ¬Under pr D := by
    intro pc hpc hr ha hs hu
    rcases hu.pc_cases with h | ⟨i, h⟩ | h
    · exact hr (hpc.symm.trans h)
    · exact ha i (hpc.symm.trans h)
    · exact hs (hpc.symm.trans h)
  refine ⟨h1, pr', hp', ?_⟩
  rcases hpc with ⟨⟨res, hpc⟩, hpc'⟩ | ⟨hpc, hpc'⟩ | ⟨hpc, hpc'⟩ | ⟨hpc, hpc'⟩ | hpc | ⟨res, hpc⟩ | ⟨c, hpc⟩
  case inr.inr.inr.inl =>
    rcases h with h | ⟨-, h⟩ | ⟨h | h | h, -⟩ | h
    · rcases h.pc_cases with h | ⟨i, h⟩ | h <;> rw [h] at hpc <;> cases hpc
    · exact .inr (.inl ⟨hpc', h⟩)
    all_goals rw [h] at hpc; cases hpc
  all_goals have h := h.resolve_left (hu hpc (by simp) (by simp) (by simp)); simp only [hpc, Pc.spawned, reduceCtorEq,
    Bool.false_eq_true, false_or, or_false, or_self, false_and, or_true, true_and] at h
  · exact .inr (.inr (.inl ⟨.inl hpc', h.not_faults⟩))
  · exact .inr (.inr (.inl ⟨.inr (.inl hpc'), h⟩))
  · exact .inr (.inr (.inl ⟨.inr (.inr hpc'), h⟩))

theorem sep_tokens (d : Command) : ∀ t ∈ d.tokens, ∀ op : Sep, t ≠ .sym op.tok := by
  intro t ht op
  obtain ⟨x, -, hx⟩ := List.mem_flatMap.1 ht
  cases x with
  | word w =>
    obtain rfl := List.mem_singleton.1 hx
    nofun
  | redir r w =>
    rcases List.mem_cons.1 hx with rfl | hx
    · cases r <;> cases op <;> decide
    · obtain rfl := List.mem_singleton.1 hx
      nofun

theorem Spot.receive {s s' : Shell} {F : Fds} {q q' : Proc} {res : Int} (h : Spot T cs s F q) (hcs : Proper cs)
    (hpr : s.procs p = some pr) (hsend : (∃ r, pr.pc = .forward r) ∨ ∃ r, pr.pc = .report r) (hq : q.awaits = some p)
    (hres : q.receive res = some q') (hparse : q.parses = true) : Spot T cs s' F q' := by
  have hruns : ∀ {C}, Serves s p C → Runs C := by
    rintro C ⟨-, y, hy, h⟩
    cases hpr.symm.trans hy
    rcases h with h | ⟨-, hr⟩ | ⟨h, -⟩ | h
    · rcases h.pc_cases with h | ⟨i, h⟩ | h <;> rcases hsend with ⟨r, hr⟩ | ⟨r, hr⟩ <;> simp [hr] at h
    · exact hr
    · rcases hsend with ⟨r, hr⟩ | ⟨r, hr⟩ <;> simp [hr] at h
    · rcases hsend with ⟨r, hr⟩ | ⟨r, hr⟩ <;> simp [hr] at h
  unfold Proc.receive at hres
  cases h with
  | parse _ _ _ _ _ _ hpc | left _ _ _ _ _ hpc | skipOr _ _ _ hpc | skipAnd _ _ _ _ _ hpc =>
    rw [Proc.awaits, hpc] at hq
    cases hq
  | or b C past d rest hpc hb hd hrest hreads hF hconf =>
    rw [Proc.awaits, hpc] at hq
    cases hq
    obtain ⟨hskip, hrun⟩ := hconf (hruns hb)
    rw [hpc] at hres
    simp only [Option.some.injEq] at hres
    split at hres
    · subst hres
      exact .skipOr past d.tokens rest rfl (sep_tokens d) hrest hreads hF hskip
    · subst hres
      exact .parse past d [] [] d rest rfl hd (List.append_nil d) (hcs d hd).2 hrest rfl (Nat.zero_le _) hreads
        (by rw [List.append_nil]; exact hF) hrun
  | and b past c x d rest hpc hb hc hd hrest hpl hargv hreads hF hconf =>
    rw [Proc.awaits, hpc] at hq
    cases hq
    obtain ⟨hrun, hjoin⟩ := hconf (hruns hb)
    rw [hpc] at hres
    simp only [Option.some.injEq] at hres
    split at hres
    · subst hres
      exact .parse (past ++ (c ++ x)) d [] [] d rest rfl hd (List.append_nil d) (hcs d hd).2 hrest rfl
        (Nat.zero_le _) hreads
        (by rw [List.append_nil]; exact hF) hrun
    · subst hres
      exact .skipAnd past c x d rest rfl hc hd hrest hpl hargv
        (by rw [hargv]; exact Nat.le_of_lt (hruns hb).2.1) hreads hF
        hjoin
  | out h =>
    rw [hparse] at h
    cases h

end

namespace Wired

variable {W : World} {T : Fds} {cs : List Command} {t t' : Wired} {p : Nat} {pr : Proc}

theorem step_eq (h : t.step W p = some t') : ∃ pr, t.shell.procs p = some pr ∧ t.shell.step W p = some t'.shell ∧
    t.tables W p pr = some t'.fds ∧ t'.started = t.starts W p pr := by
  obtain ⟨pr, hpr, h⟩ := Option.bind_eq_some_iff.1 h
  obtain ⟨s, hs, h⟩ := Option.bind_eq_some_iff.1 h
  obtain ⟨fds, hf, rfl⟩ := Option.map_eq_some_iff.1 h
  exact ⟨pr, hpr, hs, hf, rfl⟩

/-- **A process that goes on by itself**, with the others as they were. -/
theorem Inv.set (h : t.Inv T cs) {pr' : Proc} (hs : t'.shell = t.shell.set p pr')
    (hf : ∀ r, r ≠ p → t'.fds r = t.fds r) (hx : t'.Scoped T cs) (hready : Ready T cs (t'.fds p) pr')
    (hparse : p ≠ 1 → pr'.parses = false)
    (hserves : p ≠ 1 → ∀ C, Serves t.shell p C → Serves t'.shell p C)
    (hspot : p = 1 → Spot T cs t'.shell (t'.fds 1) pr') : t'.Inv T cs := by
  have hother : ∀ r, r ≠ p → t'.shell.procs r = t.shell.procs r := fun r hr => by rw [hs, Shell.set_ne _ _ hr]
  have hself : t'.shell.procs p = some pr' := by rw [hs, Shell.set_same]
  refine ⟨?_, fun r x hr1 hx => ?_, fun r x hx => ?_, hx⟩
  · by_cases hp : p = 1
    · exact ⟨pr', hp ▸ hself, hspot hp⟩
    · obtain ⟨q, hq, hsp⟩ := h.spot
      refine ⟨q, (hother 1 (Ne.symm hp)).trans hq, ?_⟩
      rw [hf 1 (Ne.symm hp)]
      refine hsp.frame fun b C hb => ?_
      by_cases hbp : b = p
      · exact hbp ▸ hserves hp C (hbp ▸ hb)
      · exact hb.frame (hother b hbp)
  · by_cases hrp : r = p
    · subst hrp
      cases hself.symm.trans hx
      exact hparse hr1
    · exact h.only r x hr1 ((hother r hrp).symm.trans hx)
  · by_cases hrp : r = p
    · subst hrp
      cases hself.symm.trans hx
      exact hready
    · rw [hf r hrp]
      exact h.ready r x ((hother r hrp).symm.trans hx)

/-- **A process that makes another**: at an operator, or to run a program. -/
theorem Inv.add (h : t.Inv T cs) (ho : Owed t.shell) (hpr : t.shell.procs p = some pr) {child pr' : Proc}
    (hs : t'.shell.procs = ((t.shell.add child).set p pr').procs)
    (hf : ∀ r, r ≠ p → r ≠ t.shell.count → t'.fds r = t.fds r) (hx : t'.Scoped T cs)
    (hready : Ready T cs (t'.fds p) pr') (hchild : Ready T cs (t'.fds t.shell.count) child) (hcp : child.parses = false)
    (hparse : p ≠ 1 → pr'.parses = false)
    (hserves : p ≠ 1 → ∀ C, Serves t.shell p C → Serves t'.shell p C)
    (hspot : p = 1 → Spot T cs t'.shell (t'.fds 1) pr') : t'.Inv T cs := by
  have hpc : p ≠ t.shell.count := Nat.ne_of_lt (ho.lt _ _ hpr)
  have hother : ∀ r, r ≠ p → r ≠ t.shell.count → t'.shell.procs r = t.shell.procs r := fun r hr hrc => by
    rw [hs, Shell.set_ne _ _ hr, Shell.add_ne _ _ hrc]
  have hself : t'.shell.procs p = some pr' := by rw [hs, Shell.set_same]
  have hnew : t'.shell.procs t.shell.count = some child := by rw [hs, Shell.set_ne _ _ hpc.symm, Shell.add_same]
  have h1c : 1 ≠ t.shell.count := by
    obtain ⟨q, hq, -⟩ := h.spot
    exact Nat.ne_of_lt (ho.lt _ _ hq)
  refine ⟨?_, fun r x hr1 hx => ?_, fun r x hx => ?_, hx⟩
  · by_cases hp : p = 1
    · exact ⟨pr', hp ▸ hself, hspot hp⟩
    · obtain ⟨q, hq, hsp⟩ := h.spot
      refine ⟨q, (hother 1 (Ne.symm hp) h1c).trans hq, ?_⟩
      rw [hf 1 (Ne.symm hp) h1c]
      refine hsp.frame fun b C hb => ?_
      by_cases hbp : b = p
      · exact hbp ▸ hserves hp C (hbp ▸ hb)
      · obtain ⟨-, y, hy, -⟩ := id hb
        exact hb.frame (hother b hbp (Nat.ne_of_lt (ho.lt _ _ hy)))
  · by_cases hrp : r = p
    · subst hrp
      cases hself.symm.trans hx
      exact hparse hr1
    · by_cases hrc : r = t.shell.count
      · subst hrc
        cases hnew.symm.trans hx
        exact hcp
      · exact h.only r x hr1 ((hother r hrp hrc).symm.trans hx)
  · by_cases hrp : r = p
    · subst hrp
      cases hself.symm.trans hx
      exact hready
    · by_cases hrc : r = t.shell.count
      · subst hrc
        cases hnew.symm.trans hx
        exact hchild
      · rw [hf r hrp hrc]
        exact h.ready r x ((hother r hrp hrc).symm.trans hx)

theorem forked_self (t : Wired) (p : Nat) (F G : Fds) : t.forked p F G p = F := by simp [forked]

theorem forked_new {t : Wired} {p : Nat} (h : p ≠ t.shell.count) (F G : Fds) : t.forked p F G t.shell.count = G := by
  simp [forked, h.symm]

theorem forked_ne {t : Wired} {p r : Nat} (hp : r ≠ p) (hc : r ≠ t.shell.count) (F G : Fds) :
    t.forked p F G r = t.fds r := by
  simp [forked, hp, hc]

/-! ### Between `parsecmd` and `spawn` -/

/-- **A step of a process under way to `spawn`.** -/
theorem under_step {C : Cmd} (hpr : t.shell.procs p = some pr) (hu : Under pr C) (hs : t.step W p = some t') :
    (∃ pr', t'.shell = t.shell.set p pr' ∧ (∀ D, Under pr D → Under pr' D) ∧ t'.fds = t.fds ∧ t'.started = t.started) ∨
    (∃ pc, t'.shell = t.shell.set p { pr with pc := pc } ∧ (pc = .exit ∨ pc = .waitRight) ∧ ¬Faults C ∧
      (∀ r, r ≠ p → t'.fds r = t.fds r) ∧ t'.started = t.started) ∨
    (t'.shell = t.shell.set p { pr with pc := .fault } ∧ (∀ r, r ≠ p → t'.fds r = t.fds r) ∧ t'.started = t.started) ∨
    ∃ child, t'.shell.procs =
      ((t.shell.add child).set p { pr with pc := .closes t.shell.count (requests (W.files pr.argv)) }).procs ∧
      child.pc = .main ∧ Runs C ∧ t'.fds = t.forked p (fun _ => none) (t.fds p) ∧ t'.started = t.started ++
        [(pr.argv, t.fds p)] ∧
      pr.argv.head? = C.head? := by
  obtain ⟨i, hpc, hal, hhead, hn, hl⟩ := id hu
  obtain ⟨x, hx, hshell, hfds, hst⟩ := step_eq hs
  cases hpr.symm.trans hx
  unfold Shell.step at hshell
  rw [hpr, Option.bind_some] at hshell
  unfold tables at hfds
  unfold starts at hst
  rcases hpc with ⟨hpc, rfl⟩ | ⟨hpc, hi⟩ | hpc
  · simp only [hpc, Option.some.injEq] at hshell hfds
    refine .inl ⟨_, hshell.symm, fun D hD => ?_, hfds.symm, ?_⟩
    · obtain ⟨hal, hhead, hn, hl⟩ := hD.at_run hpc
      by_cases he : pr.argv.prog = echo
      · exact ⟨1, .inr (.inl ⟨by simp [he], Nat.le_refl _⟩), hal, hhead, hn, hl⟩
      · exact ⟨1, .inr (.inr (by simp [he])), hal, hhead, hn, hl⟩
    · rw [hst, if_neg (by simp [hpc])]
  · simp only [hpc, Option.some.injEq] at hshell hfds
    have hstart : t'.started = t.started := by rw [hst, if_neg (by simp [hpc])]
    have hplain : ∀ w, pr.argv[i]? = some w → w.text.head? ≠ some '`' := fun w hw => hal.plain i w (Nat.le_refl _) hw
    have hbq : ¬((pr.argv[i]?.bind fun w => w.text.head?) = some '`' ∧ W.pipes pr.argv ∧ W.forks pr.argv) := by
      rintro ⟨hq, -⟩
      obtain ⟨w, hw, hc⟩ := Option.bind_eq_some_iff.1 hq
      exact hplain w hw hc
    rw [if_neg hbq] at hfds
    unfold Shell.echoArgs at hshell
    cases hw : pr.argv[i]? with
    | none =>
      rw [hw] at hshell
      refine .inl ⟨_, hshell.symm, fun D hD => ?_, hfds.symm, hstart⟩
      obtain ⟨-, hal, hhead, hn, hl⟩ := hD.at_args hpc
      exact ⟨i, .inr (.inr rfl), hal, hhead, hn, hl⟩
    | some w =>
      rw [hw] at hshell
      dsimp only at hshell
      split at hshell
      · refine .inl ⟨_, hshell.symm, fun D hD => ?_, hfds.symm, hstart⟩
        obtain ⟨-, hal, hhead, hn, hl⟩ := hD.at_args hpc
        refine ⟨i + 1, .inr (.inl ⟨rfl, by omega⟩), hal.stripQuote hi, ?_, hn, hl⟩
        have h0 : i ≠ 0 := by omega
        rw [← hhead]
        simp [stripQuote, List.head?_eq_getElem?, h0]
      · rw [if_neg (hplain w hw)] at hshell
        refine .inl ⟨_, hshell.symm, fun D hD => ?_, hfds.symm, hstart⟩
        obtain ⟨-, hal, hhead, hn, hl⟩ := hD.at_args hpc
        exact ⟨i + 1, .inr (.inl ⟨rfl, by omega⟩), hal.mono (by omega), hhead, hn, hl⟩
  · simp only [hpc, Option.some.injEq] at hshell hfds
    simp only [hpc, true_and] at hst
    have hruns := runs_iff_of_alike hal hn hl
    have hfault : (pr.argv.prog = kill ∨ pr.argv.prog = fg) ∧ pr.argv.length = 1 ↔ Faults C := by
      rw [hal.prog, hal.length]
      exact ⟨.inr, fun h => h.resolve_left (by omega)⟩
    have hclosed : ¬spawns W pr → (∀ r, r ≠ p → t'.fds r = t.fds r) ∧ t'.started = t.started := by
      intro hno
      rw [if_neg hno] at hfds hst
      exact ⟨fun r hr => by rw [← hfds, Function.update_of_ne hr], hst⟩
    unfold Shell.runcmd at hshell
    by_cases hh : pr.argv.prog = history
    · rw [if_pos hh] at hshell
      have hc := hclosed fun h => h.1 hh
      refine .inr (.inl ⟨.exit, hshell.symm, .inl rfl, fun hf => ?_, hc.1, hc.2⟩)
      have := (hfault.2 hf).1
      rw [hh] at this
      revert this
      decide
    · rw [if_neg hh] at hshell
      by_cases hj : pr.argv.prog = jobs
      · rw [if_pos hj] at hshell
        have hc := hclosed fun h => h.2.1 hj
        refine .inr (.inl ⟨.waitRight, hshell.symm, .inr rfl, fun hf => ?_, hc.1, hc.2⟩)
        have := (hfault.2 hf).1
        rw [hj] at this
        revert this
        decide
      · rw [if_neg hj] at hshell
        by_cases hk : (pr.argv.prog = kill ∨ pr.argv.prog = fg) ∧ pr.argv.length = 1
        · rw [if_pos hk] at hshell
          have hc := hclosed fun h => h.2.2.1 hk
          exact .inr (.inr (.inl ⟨hshell.symm, hc.1, hc.2⟩))
        · rw [if_neg hk] at hshell
          have hr : Runs C := hruns.2 ⟨hh, hj, hk⟩
          by_cases hsp : W.spawns pr.argv = true
          · rw [if_pos hsp] at hshell
            have hyes : spawns W pr := ⟨hh, hj, hk, hsp⟩
            rw [if_pos hyes] at hfds hst
            refine .inr (.inr (.inr ⟨{ pr with parent := p, pc := .main, cond := false, back := false }, ?_, rfl,
              hr, hfds.symm, hst,
              hhead⟩))
            rw [← hshell, Shell.log_procs]
          · rw [if_neg hsp] at hshell
            have hc := hclosed fun h => hsp h.2.2.2
            exact .inr (.inl ⟨.waitRight, hshell.symm, .inr rfl, hr.not_faults, hc.1, hc.2⟩)

theorem Inv.under (h : t.Inv T cs) (ho : Owed t.shell) (hpr : t.shell.procs p = some pr)
    (hpc : pr.pc = .run ∨ (∃ i, pr.pc = .args i) ∨ pr.pc = .spawn) (hcs : Proper cs) (hd : Distinct cs)
    (hs : t.step W p = some t') : t'.Inv T cs := by
  obtain ⟨c, hc, x, hu, hkeep⟩ := (h.ready p pr hpr).2 hpc
  have hserves : ∀ {pr' : Proc}, t'.shell.procs p = some pr' → (∀ D, Under pr D → (Under pr' D ∨
      pr'.pc.spawned = true ∧ Runs D ∨
      (pr'.pc = .waitRight ∨ pr'.pc = .exit ∨ pr'.pc = .gone) ∧ ¬Faults D ∨ pr'.pc = .fault)) →
      ∀ D, Serves t.shell p D →
      Serves t'.shell p D :=
    fun hp' hall D hD => ⟨hD.1, _, hp', hall D (serves_under hpr hu hD)⟩
  have hdone : ∀ {pc : Pc}, pc = .exit ∨ pc = .waitRight ∨ pc = .fault ∨ pc.spawned = true → ∀ (F : Fds),
      Ready T cs F { pr with pc := pc } ∧ ({ pr with pc := pc } : Proc).parses = false := by
    intro pc hpc F
    refine quiet_of_pc ?_ rfl F
    rcases hpc with h | h | h | h <;> simp [h]
  rcases under_step hpr hu hs with ⟨pr', hsh, hu', hfds, hst⟩ | ⟨pc, hsh, hpc', hnf, hfds, hst⟩ | ⟨hsh, hfds, hst⟩ |
    ⟨child, hsh, hchild, hr, hfds, hst, hhead⟩
  · refine h.set hsh (fun r _ => by rw [hfds]) (by unfold Scoped; rw [hst]; exact h.right) ?_
      (fun _ => (hu' _ hu).parses) (fun _ => hserves (by rw [hsh, Shell.set_same]) fun D hD => .inl (hu' D hD))
      (fun _ => .out ((hu' _ hu).parses))
    refine ⟨(hu' _ hu).output, fun _ => ⟨c, hc, x, hu' _ hu, ?_⟩⟩
    rw [hfds]
    exact hkeep
  · have hd' := @hdone pc (by rcases hpc' with h | h <;> simp [h]) (t'.fds p)
    refine h.set hsh hfds (by unfold Scoped; rw [hst]; exact h.right) hd'.1 (fun _ => hd'.2)
      (fun _ => hserves (by rw [hsh, Shell.set_same]) fun D hD => .inr (.inr (.inl ⟨?_, ?_⟩))) (fun _ => .out hd'.2)
    · rcases hpc' with h | h <;> simp [h]
    · rwa [hD.faults hu]
  · have hd' := @hdone .fault (by simp) (t'.fds p)
    exact h.set hsh hfds (by unfold Scoped; rw [hst]; exact h.right) hd'.1 (fun _ => hd'.2)
      (fun _ => hserves (by rw [hsh, Shell.set_same]) fun D hD => .inr (.inr (.inr rfl))) (fun _ => .out hd'.2)
  · have hd' := @hdone (.closes t.shell.count (requests (W.files pr.argv)))
        (.inr (.inr (.inr (Pc.closes_spawned _ _)))) (t'.fds p)
    refine h.add ho hpr hsh (fun r hr hrc => by rw [hfds, forked_ne hr hrc]) ?_ hd'.1
      (ready_of_pc (by simp [hchild]) (by simp [hchild]) (by simp [hchild]) (by simp [hchild]))
      (by simp [Proc.parses, hchild]) (fun _ => hd'.2)
      (fun _ => hserves (by rw [hsh, Shell.set_same]) fun D hD => .inr (.inl ⟨Pc.closes_spawned _ _, ?_⟩))
      (fun _ => .out hd'.2)
    · -- the program that is spawned
      intro y hy d hdc hyd
      rw [hst] at hy
      rcases List.mem_append.1 hy with hy | hy
      · exact h.right y hy d hdc hyd
      · obtain rfl := List.mem_singleton.1 hy
        obtain ⟨w, ws, hw⟩ := List.exists_cons_of_ne_nil (hcs c hc).1
        have hcd : c = d := by
          refine hd c hc d hdc ?_
          rw [← hyd, hhead, Command.words_append, hw]
          rfl
        rw [← hcd]
        exact hkeep hr
    · rwa [hD.alike hu]

/-! ### After `spawn` -/

theorem Inv.goes (h : t.Inv T cs) (hpr : t.shell.procs p = some pr) {pc : Pc}
    (hsh : t'.shell = t.shell.set p { pr with pc := pc }) (hfds : t'.fds = t.fds) (hst : t'.started = t.started)
    (hpc : ((∃ res, pr.pc = .forward res) ∧ pc = .waitRight) ∨ (pr.pc = .waitRight ∧ pc = .exit) ∨
      (pr.pc = .exit ∧ pc = .gone) ∨ (pr.pc = .main ∧ (pc = .exit ∨ ∃ res, pc = .report res)) ∨
      (∃ c, pr.pc = .waitLine c ∧ pc = .prompt) ∨ (pr.pc.spawned = true ∧ pc.spawned = true)) : t'.Inv T cs := by
  have hquiet := @quiet_of_pc T cs { pr with pc := pc } pc (by
    rcases hpc with ⟨-, rfl⟩ | ⟨-, rfl⟩ | ⟨-, rfl⟩ | ⟨-, rfl | ⟨res, rfl⟩⟩ | ⟨c, -, rfl⟩ | ⟨-, h⟩ <;>
        simp [*]) rfl (t'.fds p)
  refine h.set hsh (fun r _ => by rw [hfds]) (by unfold Scoped; rw [hst]; exact h.right) hquiet.1 (fun _ => hquiet.2)
    (fun _ D hD => hD.later hpr (by rw [hsh, Shell.set_same]) ?_) (fun _ => .out hquiet.2)
  rcases hpc with ⟨h, h'⟩ | ⟨h, h'⟩ | ⟨h, h'⟩ | ⟨h, -⟩ | ⟨c, h, -⟩ | ⟨h, h'⟩
  · exact .inl ⟨h, h'⟩
  · exact .inr (.inl ⟨h, h'⟩)
  · exact .inr (.inr (.inl ⟨h, h'⟩))
  · exact .inr (.inr (.inr (.inr (.inl h))))
  · exact .inr (.inr (.inr (.inr (.inr (.inr ⟨c, h⟩)))))
  · exact .inr (.inr (.inr (.inl ⟨h, h'⟩)))

/-- **A message is received.** -/
theorem Inv.sends (h : t.Inv T cs) (ho : Owed t.shell) (hcs : Proper cs) (hpr : t.shell.procs p = some pr) {q q' : Proc}
    {res : Int} {after : Pc}
    (hp : pr.pc = .forward res ∧ pr.cond = true ∧ after = .waitRight ∨ pr.pc = .report res ∧ after = .exit)
    (hq : t.shell.procs pr.parent = some q) (hres : q.receive res = some q')
    (hsh : t'.shell = ((t.shell.set pr.parent q').set p { pr with pc := after }).post (p, pr.parent, res))
    (hfds : t'.fds = t.fds) (hst : t'.started = t.started) : t'.Inv T cs := by
  obtain ⟨-, -, hne, hqw⟩ := ho.awaited hpr hp hq hres
  have hsend : (∃ r, pr.pc = .forward r) ∨ ∃ r, pr.pc = .report r := by
    rcases hp with ⟨h, -⟩ | ⟨h, -⟩
    · exact .inl ⟨_, h⟩
    · exact .inr ⟨_, h⟩
  have hright : ∀ {u : Wired}, u.started = t.started → u.Scoped T cs := fun hu => by
    unfold Scoped
    rw [hu]
    exact h.right
  -- the receiver goes on first
  have h₁ : Inv T cs ⟨t.shell.set pr.parent q', t.fds, t.started⟩ := by
    by_cases hparse : q.parses = true
    · have ha1 : pr.parent = 1 := by
        by_contra hc
        rw [h.only _ _ hc hq] at hparse
        cases hparse
      obtain ⟨x, hx, hspot⟩ := h.spot
      rw [ha1] at hq
      cases hq.symm.trans hx
      obtain ⟨c, -, hnw, -, hqo, -⟩ := Proc.receive_some hres
      refine h.set rfl (fun _ _ => rfl) (hright rfl) ?_ (fun hc => absurd ha1 hc) (fun hc => absurd ha1 hc)
        (fun _ => hspot.receive hcs hpr hsend hqw hres hparse)
      have hpc' : q'.parses = true := by
        unfold Proc.receive at hres
        unfold Proc.parses at hparse
        split at hres
        · cases hres
          split <;> rfl
        · cases hres
          split <;> rfl
        · rename_i hpc
          rw [hpc] at hparse
          cases hparse
        · rename_i hpc
          rw [hpc] at hparse
          cases hparse
        · cases hres
      unfold Proc.parses at hpc'
      refine ready_of_pc (fun i hpc => ?_) (fun hpc => ?_) (fun i hpc => ?_) (fun hpc => ?_) <;>
        rw [hpc] at hpc' <;> cases hpc'
    · obtain ⟨hfrom, pc, hto, rfl⟩ : q.pc.spawned = true ∧ ∃ pc, pc.spawned = true ∧ q' = { q with pc := pc } := by
        unfold Proc.receive at hres
        unfold Proc.parses at hparse
        split at hres
        · rename_i hpc
          rw [hpc] at hparse
          exact absurd rfl hparse
        · rename_i hpc
          rw [hpc] at hparse
          exact absurd rfl hparse
        · rename_i b hpc
          exact ⟨by rw [hpc]; rfl, _, rfl, (Option.some.inj hres).symm⟩
        · rename_i b todo hpc
          refine ⟨by rw [hpc]; rfl, _, ?_, (Option.some.inj hres).symm⟩
          split <;> rfl
        · cases hres
      have hquiet := @quiet_of_pc T cs { q with pc := pc } pc (by simp [hto]) rfl (t.fds pr.parent)
      exact h.set rfl (fun _ _ => rfl) (hright rfl) hquiet.1 (fun _ => hquiet.2)
        (fun _ D hD => hD.later hq (Shell.set_same _ _ _) (.inr (.inr (.inr (.inl ⟨hfrom, hto⟩)))))
        (fun _ => .out hquiet.2)
  have hpr₁ : (t.shell.set pr.parent q').procs p = some pr := by rw [Shell.set_ne _ _ (Ne.symm hne), hpr]
  have hquiet := @quiet_of_pc T cs { pr with pc := after } after (by
    rcases hp with ⟨-, -, rfl⟩ | ⟨-, rfl⟩ <;> simp) rfl (t.fds p)
  have h₂ : Inv T cs ⟨(t.shell.set pr.parent q').set p { pr with pc := after }, t.fds, t.started⟩ := by
    refine h₁.set rfl (fun _ _ => rfl) (hright rfl) hquiet.1 (fun _ => hquiet.2)
      (fun _ D hD => hD.later hpr₁ (Shell.set_same _ _ _) ?_) (fun _ => .out hquiet.2)
    rcases hp with ⟨hf, -, ha⟩ | ⟨hr, -⟩
    · exact .inl ⟨⟨_, hf⟩, ha⟩
    · exact .inr (.inr (.inr (.inr (.inr (.inl ⟨_, hr⟩)))))
  obtain ⟨s', fds', st'⟩ := t'
  dsimp only at hsh hfds hst
  subst hsh hfds hst
  obtain ⟨q₁, hq₁, hspot⟩ := h₂.spot
  exact ⟨⟨q₁, hq₁, hspot.frame fun b C hb => hb.frame rfl⟩, h₂.only, h₂.ready, h₂.right⟩

/-! ### The parser -/

theorem ready_returned {past c x : Command} {F : Fds} {pr : Proc} (hc : c ∈ cs) (hcs : Proper cs)
    (hpl : Plain (wordsOf (Command.tokens (c ++ x)))) (ha : pr.argv = Command.words (c ++ x))
    (hF : F = Command.wiring T (past ++ (c ++ x))) (hk : Runs (Command.words (c ++ x)) → Keeps past c x) :
    Ready T cs F pr.returned ∧ (pr.returned.pc = .fault ∨ Under pr.returned (Command.words (c ++ x))) := by
  have hn : Command.words (c ++ x) ≠ [] := by
    rw [Command.words_append]
    exact List.append_ne_nil_of_left_ne_nil (hcs c hc).1 _
  rcases returned_cases ha hn (words_plain hpl) with ⟨hf, -⟩ | ⟨-, hu⟩
  · exact ⟨(quiet_of_pc (.inr (.inr (.inr (.inr (.inl rfl))))) hf F).1, .inl hf⟩
  · refine ⟨⟨hu.output, fun _ => ⟨c, hc, x, hu, fun hr n hlt => ?_⟩⟩, .inr hu⟩
    rw [hF, Command.wiring_keeps (hk hr) n hlt]

/-- **The parser forks** at an operator: the child runs the command. -/
theorem Inv.forks (h : t.Inv T cs) (ho : Owed t.shell) (hcs : Proper cs) {q child pr' : Proc} {past c x : Command}
    (hq : t.shell.procs 1 = some q) (hsh : t'.shell = (t.shell.add child.returned).set 1 pr')
    (hfds : t'.fds = t.forked 1 (t.fds 1) (t.fds 1)) (hst : t'.started = t.started) (hc : c ∈ cs)
    (hpl : Plain (wordsOf (Command.tokens (c ++ x)))) (ha : child.argv = Command.words (c ++ x))
    (hF : t.fds 1 = Command.wiring T (past ++ (c ++ x))) (hk : Runs (Command.words (c ++ x)) → Keeps past c x)
    (hpc : pr'.parses = true)
    (hspot : Serves t'.shell t.shell.count (Command.words (c ++ x)) → Spot T cs t'.shell (t.fds 1) pr') :
    t'.Inv T cs := by
  have hne : 1 ≠ t.shell.count := Nat.ne_of_lt (ho.lt _ _ hq)
  have hready := ready_returned (T := T) hc hcs hpl ha hF hk
  have hpc' : Ready T cs (t'.fds 1) pr' := by
    unfold Proc.parses at hpc
    refine ready_of_pc (fun i h => ?_) (fun h => ?_) (fun i h => ?_) (fun h => ?_) <;> rw [h] at hpc <;> cases hpc
  refine h.add ho hq (by rw [hsh]) (fun r hr hrc => by rw [hfds, forked_ne hr hrc])
    (by unfold Scoped; rw [hst]; exact h.right)
    hpc' ?_ (Proc.returned_parses _) (fun h => absurd rfl h) (fun h => absurd rfl h) (fun _ => ?_)
  · rw [hfds, forked_new hne]
    exact hready.1
  · rw [hfds, forked_self]
    refine hspot ⟨hne.symm, child.returned, ?_, hready.2.elim (fun h => .inr (.inr (.inr h))) .inl⟩
    rw [hsh, Shell.set_ne _ _ hne.symm, Shell.add_same]

theorem Inv.parser (h : t.Inv T cs) {pr' : Proc} (hsh : t'.shell = t.shell.set 1 pr')
    (hf : ∀ r, r ≠ 1 → t'.fds r = t.fds r) (hst : t'.started = t.started) (hready : Ready T cs (t'.fds 1) pr')
    (hspot : Spot T cs t'.shell (t'.fds 1) pr') : t'.Inv T cs :=
  h.set hsh hf (by unfold Scoped; rw [hst]; exact h.right) hready (fun h => absurd rfl h)
    (fun h => absurd rfl h) fun _ => hspot

theorem ready_of_parses {F : Fds} (h : pr.parses = true) : Ready T cs F pr := by
  unfold Proc.parses at h
  refine ready_of_pc (fun i hpc => ?_) (fun hpc => ?_) (fun i hpc => ?_) (fun hpc => ?_) <;> rw [hpc] at h <;> cases h

theorem quiet_exit (h : pr.pc = .exit) (F : Fds) : Ready T cs F pr ∧ pr.parses = false :=
  quiet_of_pc (.inr (.inl rfl)) h F

theorem parsecmd_redir {s : Shell} {r : Redir} (h : pr.scan.nc = r.tok) : s.parsecmd W p pr =
    s.set p (Proc.redirect W { pr with cond := false, back := false, scan := pr.scan.next } r.tok) := by
  unfold Shell.parsecmd
  rw [h]
  cases r <;> rfl

theorem tables_redir {r : Redir} (hpc : pr.pc = .parse) (h : pr.scan.nc = r.tok) : t.tables W p pr =
    if pr.scan.next.nc = .word ∧ W.redirects r.tok pr.scan.next.np1
    then ((t.fds p).redirect r.tok pr.scan.next.np1).map (Function.update t.fds p) else some t.fds := by
  unfold tables
  rw [hpc, h]
  cases r <;> rfl

theorem tables_sep {op : Sep} (hpc : pr.pc = .parse) (h : pr.scan.nc = op.tok) :
    t.tables W p pr = some (if W.forks pr.argv then t.forked p (t.fds p) (t.fds p) else t.fds) := by
  unfold tables
  rw [hpc, h]
  cases op <;> rfl

/-- **A turn of `parsecmd`.** -/
theorem Inv.parsecmd (h : t.Inv T cs) (ho : Owed t.shell) (hcs : Proper cs) (hT : ∀ n < 2, T n ≠ none) {q : Proc}
    (hq : t.shell.procs 1 = some q) (hpc : q.pc = .parse) (hs : t.step W 1 = some t') : t'.Inv T cs := by
  obtain ⟨q₀, hq₀, hspot⟩ := h.spot
  cases hq.symm.trans hq₀
  obtain ⟨pr, hpr, hshell, hfds, hst⟩ := step_eq hs
  cases hq.symm.trans hpr
  cases hspot with
  | left _ _ _ _ _ h' | or _ _ _ _ _ h' | and _ _ _ _ _ _ h' | skipOr _ _ _ h' | skipAnd _ _ _ _ _ h' =>
    cases hpc.symm.trans h'
  | out h' =>
    unfold Proc.parses at h'
    rw [hpc] at h'
    cases h'
  | parse past c x done todo rest _ hc hcx hpl hrest hargv hlen hreads hF hconf =>
    have hstart : t'.started = t.started := by
      rw [hst]
      unfold starts
      rw [if_neg (by simp [hpc])]
    unfold Shell.step at hshell
    rw [hq, Option.bind_some] at hshell
    simp only [hpc, Option.some.injEq] at hshell
    have hexit : ∀ {q' : Proc}, q'.pc = .exit → t.shell.set 1 q' = t'.shell → t'.fds = t.fds → t'.Inv T cs := by
      intro q' hx hsh hf
      have hx := @quiet_exit T cs _ hx (t'.fds 1)
      exact h.parser hsh.symm (fun r _ => by rw [hf]) hstart hx.1 (.out hx.2)
    cases todo with
    | cons item todo =>
      cases item with
      | word w =>
        rw [Command.tokens_word] at hreads
        obtain ⟨hnc, hw, hr⟩ := Reads.word hreads
        have hfds : t'.fds = t.fds := by
          unfold tables at hfds
          rw [hpc, hnc] at hfds
          exact (Option.some.inj hfds).symm
        unfold Shell.parsecmd at hshell
        simp only [hnc] at hshell
        split at hshell
        · exact hexit rfl hshell hfds
        · rename_i hmax
          refine h.parser hshell.symm (fun r _ => by rw [hfds]) hstart (ready_of_parses (by simp [Proc.parses, hpc])) ?_
          refine .parse past c x (done ++ [.word w]) todo rest hpc hc (by rw [hcx]; simp) ?_ hrest ?_ ?_ hr ?_ hconf
          · rwa [List.append_assoc]
          · simp only [Command.words_append, hargv, hw]
            rfl
          · rw [Command.words_append, ← hargv, List.length_append]
            exact Nat.not_le.1 hmax
          · rw [hfds, hF, ← List.append_assoc, Command.wiring_append T (past ++ done), Command.wiring_word]
      | redir r w =>
        rw [Command.tokens_redir] at hreads
        obtain ⟨hnc, hr⟩ := Reads.sym hreads
        obtain ⟨hnw, hw, hr⟩ := Reads.word hr
        rw [parsecmd_redir hnc] at hshell
        rw [tables_redir hpc hnc] at hfds
        unfold Proc.redirect at hshell
        dsimp only at hshell
        by_cases hok : q.scan.next.nc = .word ∧ W.redirects r.tok q.scan.next.np1
        · rw [if_pos hok] at hshell hfds
          obtain ⟨F', hF', hfds⟩ := Option.map_eq_some_iff.1 hfds
          have hopen : ∀ n < 2, t.fds 1 n ≠ none := by
            rw [hF]
            exact Command.wiring_open hT _
          have hF₁ : t'.fds 1 = Command.wiring T (past ++ (done ++ [.redir r w])) := by
            rw [← hfds, Function.update_self, Fds.redirect_eq hopen hF', hF, ← List.append_assoc,
              Command.wiring_append T (past ++ done), Command.wiring_redir, hw]
          refine h.parser hshell.symm (fun n hn => by rw [← hfds, Function.update_of_ne hn]) hstart
            (ready_of_parses (by simp [Proc.parses, hpc])) ?_
          refine .parse past c x (done ++ [.redir r w]) todo rest hpc hc (by rw [hcx]; simp) ?_ hrest ?_ ?_ hr hF₁ hconf
          · rwa [List.append_assoc]
          · rw [Command.words_append, ← hargv]
            exact (List.append_nil _).symm
          · rw [Command.words_append]
            exact (List.append_nil _).symm ▸ hlen
        · rw [if_neg hok] at hshell hfds
          exact hexit rfl hshell (Option.some.inj hfds).symm
    | nil =>
      rw [List.append_nil] at hcx hpl
      subst hcx
      cases rest with
      | nil =>
        have hnc : q.scan.nc = .eof := hreads
        have hfds : t'.fds = t.fds := by
          unfold tables at hfds
          rw [hpc, hnc] at hfds
          exact (Option.some.inj hfds).symm
        unfold Shell.parsecmd at hshell
        simp only [hnc] at hshell
        have hready := @ready_returned T cs past _ _ (t'.fds 1)
            { q with cond := false, back := false, scan := q.scan.next } hc hcs hpl
          hargv (by rw [hfds, hF]) hconf
        exact h.parser hshell.symm (fun r _ => by rw [hfds]) hstart hready.1 (.out (Proc.returned_parses _))
      | cons z rest =>
        obtain ⟨op, d⟩ := z
        obtain ⟨hnc, hr⟩ := Reads.sym hreads
        have hd : d ∈ cs := hrest (op, d) List.mem_cons_self
        have hrest' : ∀ z ∈ rest, z.2 ∈ cs := fun z hz => hrest z (List.mem_cons_of_mem _ hz)
        rw [tables_sep hpc hnc] at hfds
        have hfds := (Option.some.inj hfds).symm
        unfold Shell.parsecmd at hshell
        by_cases hfork : W.forks q.argv = true
        · rw [if_pos hfork] at hfds
          cases op with
          | semi =>
            simp only [hnc, Sep.tok, hfork, Bool.not_true, Bool.false_eq_true, if_false] at hshell
            exact h.forks ho hcs hq hshell.symm hfds hstart hc hpl hargv hF hconf.1 rfl fun hb =>
              .left _ _ (past ++ (c ++ x)) d rest rfl hb hd hrest' hr hF hconf.2
          | or =>
            simp only [hnc, Sep.tok, hfork, Bool.not_true, Bool.false_eq_true, if_false] at hshell
            exact h.forks ho hcs hq hshell.symm hfds hstart hc hpl hargv hF (fun hr => (hconf hr).1) rfl fun hb =>
              .or _ _ (past ++ (c ++ x)) d rest rfl hb hd hrest' hr hF fun hr => (hconf hr).2
          | and =>
            simp only [hnc, Sep.tok, hfork, Bool.not_true, Bool.false_eq_true, if_false] at hshell
            exact h.forks ho hcs hq hshell.symm hfds hstart hc hpl hargv hF (fun hr => (hconf hr).1) rfl fun hb =>
              .and _ past c x d rest rfl hb hc hd hrest' hpl hargv hr hF fun hr => (hconf hr).2
          | amp =>
            simp only [hnc, Sep.tok, hfork, Bool.not_true, Bool.false_eq_true, if_false] at hshell
            exact h.forks ho hcs hq hshell.symm hfds hstart hc hpl hargv hF hconf.1 rfl fun _ =>
              .parse (past ++ (c ++ x)) d [] [] d rest rfl hd (List.append_nil d)
                (hcs d hd).2 hrest' rfl (Nat.zero_le _) hr
                (by rw [List.append_nil]; exact hF) (hconf.2 hlen)
        · rw [if_neg hfork] at hfds
          cases op <;> simp only [hnc, Sep.tok, hfork, Bool.not_false, if_true] at hshell <;>
            exact hexit rfl hshell hfds

/-- A step outside `parsecmd` and `runcmd` leaves the descriptors as they are. -/
theorem step_quiet (hpr : t.shell.procs p = some pr) (hs : t.step W p = some t') (hp : pr.pc ≠ .parse)
    (ha : ∀ i, pr.pc ≠ .args i) (hsp : pr.pc ≠ .spawn) :
    t.shell.step W p = some t'.shell ∧ t'.fds = t.fds ∧ t'.started = t.started := by
  obtain ⟨x, hx, hshell, hfds, hst⟩ := step_eq hs
  cases hpr.symm.trans hx
  refine ⟨hshell, ?_, ?_⟩
  · unfold tables at hfds
    cases hpc : pr.pc <;> simp only [hpc, Option.some.injEq] at hfds
    case parse => exact absurd hpc hp
    case args i => exact absurd hpc (ha i)
    case spawn => exact absurd hpc hsp
    all_goals exact hfds.symm
  · rw [hst]
    exact if_neg fun h => hsp h.1

theorem Inv.waitLeft (h : t.Inv T cs) (hcs : Proper cs) {q : Proc} {b : Nat} (hq : t.shell.procs 1 = some q)
    (hpc : q.pc = .waitLeft b) (hs : t.step W 1 = some t') : t'.Inv T cs := by
  obtain ⟨q₀, hq₀, hspot⟩ := h.spot
  cases hq.symm.trans hq₀
  obtain ⟨hshell, hfds, hst⟩ := step_quiet hq hs (by simp [hpc]) (by simp [hpc]) (by simp [hpc])
  unfold Shell.step at hshell
  rw [hq, Option.bind_some] at hshell
  simp only [hpc, Option.ite_none_right_eq_some, Option.some.injEq] at hshell
  obtain ⟨hgone, hshell⟩ := hshell
  cases hspot with
  | parse _ _ _ _ _ _ h' | or _ _ _ _ _ h' | and _ _ _ _ _ _ h' | skipOr _ _ _ h' | skipAnd _ _ _ _ _ h' =>
    cases hpc.symm.trans h'
  | out h' =>
    unfold Proc.parses at h'
    rw [hpc] at h'
    cases h'
  | left b' C past d rest hpc' hb hd hrest hreads hF hconf =>
    obtain rfl : b = b' := Pc.waitLeft.inj (hpc.symm.trans hpc')
    have hnf : ¬Faults C := by
      obtain ⟨-, y, hy, h⟩ := hb
      have hyg : y.pc = .gone := by simpa [Shell.isGone, hy] using hgone
      rcases h with h | ⟨-, hr⟩ | ⟨-, hnf⟩ | h
      · rcases h.pc_cases with h | ⟨i, h⟩ | h <;> rw [hyg] at h <;> cases h
      · exact hr.not_faults
      · exact hnf
      · rw [hyg] at h
        cases h
    refine h.parser hshell.symm (fun r _ => by rw [hfds]) hst (ready_of_parses rfl) ?_
    exact .parse past d [] [] d rest rfl hd (List.append_nil d) (hcs d hd).2 hrest rfl (Nat.zero_le _) hreads
      (by rw [hfds, List.append_nil]; exact hF) (hconf hnf)

theorem Inv.skipOr (h : t.Inv T cs) (hcs : Proper cs) {q : Proc} (hq : t.shell.procs 1 = some q) (hpc : q.pc = .skipOr)
    (hs : t.step W 1 = some t') : t'.Inv T cs := by
  obtain ⟨q₀, hq₀, hspot⟩ := h.spot
  cases hq.symm.trans hq₀
  obtain ⟨hshell, hfds, hst⟩ := step_quiet hq hs (by simp [hpc]) (by simp [hpc]) (by simp [hpc])
  unfold Shell.step at hshell
  rw [hq, Option.bind_some] at hshell
  simp only [hpc, Option.some.injEq] at hshell
  cases hspot with
  | parse _ _ _ _ _ _ h' | left _ _ _ _ _ h' | or _ _ _ _ _ h' | and _ _ _ _ _ _ h' | skipAnd _ _ _ _ _ h' =>
    cases hpc.symm.trans h'
  | out h' =>
    unfold Proc.parses at h'
    rw [hpc] at h'
    cases h'
  | skipOr past ts rest _ hts hrest hreads hF hconf =>
    rw [← hfds] at hF
    -- a token that is not `&&` is skipped
    have hskip : ∀ us (rest : Commands), (∀ u ∈ us, ∀ op : Sep, u ≠ .sym op.tok) → (∀ z ∈ rest, z.2 ∈ cs) →
        Reads q.scan.next (us ++ rest.tokens) → Confined past none rest →
        t'.shell = t.shell.set 1 { q with scan := q.scan.next } → t'.Inv T cs := by
      intro us rest hus hrest hr hconf hsh
      exact h.parser hsh (fun r _ => by rw [hfds]) hst (ready_of_parses (by simp [Proc.parses, hpc]))
        (.skipOr past us rest hpc hus hrest hr hF hconf)
    unfold Proc.skipOr at hshell
    cases ts with
    | cons u us =>
      have hr : Reads q.scan.next (us ++ rest.tokens) := hreads.2.2
      have hu := hts u List.mem_cons_self
      have hne : q.scan.nc ≠ .and := by
        intro hc
        have htok := hreads.2.1
        unfold Scan.token at htok
        rw [if_neg (by simp [hc]), hc] at htok
        exact hu .and htok.symm
      refine hskip us rest (fun v hv => hts v (List.mem_cons_of_mem _ hv)) hrest hr hconf ?_
      rw [← hshell]
      split
      · rename_i he
        exact absurd he hreads.1
      · rename_i he
        exact absurd he hne
      · rfl
    | nil =>
      cases rest with
      | nil =>
        have hnc : q.scan.nc = .eof := hreads
        simp only [hnc] at hshell
        have hx := @quiet_exit T cs { q with scan := q.scan.next, pc := .exit } rfl (t'.fds 1)
        exact h.parser hshell.symm (fun r _ => by rw [hfds]) hst hx.1 (.out hx.2)
      | cons z rest =>
        obtain ⟨op, d⟩ := z
        obtain ⟨hnc, hr⟩ := Reads.sym hreads
        have hd : d ∈ cs := hrest (op, d) List.mem_cons_self
        have hrest' : ∀ z ∈ rest, z.2 ∈ cs := fun z hz => hrest z (List.mem_cons_of_mem _ hz)
        cases op with
        | and =>
          simp only [hnc, Sep.tok] at hshell
          refine h.parser hshell.symm (fun r _ => by rw [hfds]) hst (ready_of_parses rfl) ?_
          exact .parse past d [] [] d rest rfl hd (List.append_nil d) (hcs d hd).2 hrest' rfl (Nat.zero_le _) hr
            (by rw [List.append_nil]; exact hF) hconf
        | or | semi | amp =>
          simp only [hnc, Sep.tok] at hshell
          exact hskip d.tokens rest (sep_tokens d) hrest' hr hconf hshell.symm

theorem Inv.skipAnd (h : t.Inv T cs) (hcs : Proper cs) {q : Proc} (hq : t.shell.procs 1 = some q)
    (hpc : q.pc = .skipAnd) (hs : t.step W 1 = some t') : t'.Inv T cs := by
  obtain ⟨q₀, hq₀, hspot⟩ := h.spot
  cases hq.symm.trans hq₀
  obtain ⟨hshell, hfds, hst⟩ := step_quiet hq hs (by simp [hpc]) (by simp [hpc]) (by simp [hpc])
  unfold Shell.step at hshell
  rw [hq, Option.bind_some] at hshell
  simp only [hpc, Option.some.injEq] at hshell
  cases hspot with
  | parse _ _ _ _ _ _ h' | left _ _ _ _ _ h' | or _ _ _ _ _ h' | and _ _ _ _ _ _ h' | skipOr _ _ _ h' =>
    cases hpc.symm.trans h'
  | out h' =>
    unfold Proc.parses at h'
    rw [hpc] at h'
    cases h'
  | skipAnd past c x d rest _ hc hd hrest hpl hargv hlen hreads hF hconf =>
    rw [← hfds] at hF
    have hpd := (hcs d hd).2
    -- what is left of `d` is read as part of `c`
    have hjoin : ∀ d' : Command, d.skipped = d' → Reads q.scan.next (d'.tokens ++ rest.tokens) →
        Plain (wordsOf d'.tokens) →
        t'.shell = t.shell.set 1 { q with scan := q.scan.next, pc := .parse } → t'.Inv T cs := by
      rintro d' rfl hr hp hsh
      refine h.parser hsh (fun r _ => by rw [hfds]) hst (ready_of_parses rfl) ?_
      refine .parse past c (x ++ d.skipped) (c ++ x) d.skipped rest rfl hc (List.append_assoc _ _ _).symm ?_ hrest hargv
        (by rw [← hargv]; exact hlen) hr hF hconf
      rw [Command.tokens_append, wordsOf_append]
      intro w hw
      rcases List.mem_append.1 hw with hw | hw
      · exact hpl w hw
      · exact hp w hw
    unfold Proc.skipAnd at hshell
    cases d with
    | nil => exact absurd rfl (hcs [] hd).1
    | cons item d =>
      cases item with
      | word w =>
        rw [Command.tokens_word] at hreads hpd
        obtain ⟨hnc, -, hr⟩ := Reads.word hreads
        simp only [hnc] at hshell
        exact hjoin d rfl hr (fun v hv => hpd v (List.mem_cons_of_mem _ hv)) hshell.symm
      | redir r w =>
        rw [Command.tokens_redir] at hreads hpd
        obtain ⟨hnc, hr⟩ := Reads.sym hreads
        refine hjoin (.word w :: d) rfl hr hpd ?_
        rw [← hshell, hnc]
        cases r <;> rfl

/-! ### Every step -/

/-- **Every step, of whichever process, keeps the invariant.** -/
theorem Inv.step (h : t.Inv T cs) (ho : Owed t.shell) (hcs : Proper cs) (hd : Distinct cs) (hT : ∀ n < 2, T n ≠ none)
    (hs : t.step W p = some t') : t'.Inv T cs := by
  obtain ⟨pr, hpr, hshell, -⟩ := step_eq hs
  have hone : pr.parses = true → p = 1 := fun hparse => by
    by_contra hp
    rw [h.only p pr hp hpr] at hparse
    cases hparse
  have hstep := hshell
  unfold Shell.step at hshell
  rw [hpr, Option.bind_some] at hshell
  cases hpc : pr.pc with
  | parse =>
    obtain rfl := hone (by simp [Proc.parses, hpc])
    exact h.parsecmd ho hcs hT hpr hpc hs
  | waitLeft b =>
    obtain rfl := hone (by simp [Proc.parses, hpc])
    exact h.waitLeft hcs hpr hpc hs
  | skipOr =>
    obtain rfl := hone (by simp [Proc.parses, hpc])
    exact h.skipOr hcs hpr hpc hs
  | skipAnd =>
    obtain rfl := hone (by simp [Proc.parses, hpc])
    exact h.skipAnd hcs hpr hpc hs
  | run => exact h.under ho hpr (.inl hpc) hcs hd hs
  | args i => exact h.under ho hpr (.inr (.inl ⟨i, hpc⟩)) hcs hd hs
  | spawn => exact h.under ho hpr (.inr (.inr hpc)) hcs hd hs
  | output i => exact absurd hpc ((h.ready p pr hpr).1 i)
  | answerOr | answerAnd | status | jammed | gone | fault | prompt => simp [hpc] at hshell
  | closing c todo =>
    obtain ⟨-, hfds, hst⟩ := step_quiet hpr hs (by simp [hpc]) (by simp [hpc]) (by simp [hpc])
    simp only [hpc, Option.some.injEq] at hshell
    exact h.goes hpr hshell.symm hfds hst (.inr (.inr (.inr (.inr (.inr ⟨by rw [hpc]; rfl, Pc.closes_spawned _ _⟩)))))
  | late todo =>
    obtain ⟨-, hfds, hst⟩ := step_quiet hpr hs (by simp [hpc]) (by simp [hpc]) (by simp [hpc])
    simp only [hpc, Option.some.injEq] at hshell
    exact h.goes hpr hshell.symm hfds hst (.inr (.inr (.inr (.inr (.inr ⟨by rw [hpc]; rfl, rfl⟩)))))
  | forward res =>
    obtain ⟨-, hfds, hst⟩ := step_quiet hpr hs (by simp [hpc]) (by simp [hpc]) (by simp [hpc])
    simp only [hpc] at hshell
    split at hshell
    · rename_i hcond
      unfold Shell.ipcSend at hshell
      obtain ⟨q', hq', hsh⟩ := Option.map_eq_some_iff.1 hshell
      obtain ⟨q, hq, hres⟩ := Option.bind_eq_some_iff.1 hq'
      exact h.sends ho hcs hpr (.inl ⟨hpc, hcond, rfl⟩) hq hres hsh.symm hfds hst
    · exact h.goes hpr (Option.some.inj hshell).symm hfds hst (.inl ⟨⟨res, hpc⟩, rfl⟩)
  | report res =>
    obtain ⟨-, hfds, hst⟩ := step_quiet hpr hs (by simp [hpc]) (by simp [hpc]) (by simp [hpc])
    simp only [hpc] at hshell
    unfold Shell.ipcSend at hshell
    obtain ⟨q', hq', hsh⟩ := Option.map_eq_some_iff.1 hshell
    obtain ⟨q, hq, hres⟩ := Option.bind_eq_some_iff.1 hq'
    exact h.sends ho hcs hpr (.inr ⟨hpc, rfl⟩) hq hres hsh.symm hfds hst
  | waitRight =>
    obtain ⟨-, hfds, hst⟩ := step_quiet hpr hs (by simp [hpc]) (by simp [hpc]) (by simp [hpc])
    simp only [hpc, Option.ite_none_right_eq_some, Option.some.injEq] at hshell
    exact h.goes hpr hshell.2.symm hfds hst (.inr (.inl ⟨hpc, rfl⟩))
  | exit =>
    obtain ⟨-, hfds, hst⟩ := step_quiet hpr hs (by simp [hpc]) (by simp [hpc]) (by simp [hpc])
    simp only [hpc, Option.some.injEq] at hshell
    exact h.goes hpr hshell.symm hfds hst (.inr (.inr (.inl ⟨hpc, rfl⟩)))
  | main =>
    obtain ⟨-, hfds, hst⟩ := step_quiet hpr hs (by simp [hpc]) (by simp [hpc]) (by simp [hpc])
    simp only [hpc, Option.some.injEq] at hshell
    refine h.goes hpr hshell.symm hfds hst (.inr (.inr (.inr (.inl ⟨hpc, ?_⟩))))
    split
    · exact .inr ⟨_, rfl⟩
    · exact .inl rfl
    · exact .inr ⟨_, rfl⟩
  | waitLine c =>
    obtain ⟨-, hfds, hst⟩ := step_quiet hpr hs (by simp [hpc]) (by simp [hpc]) (by simp [hpc])
    simp only [hpc, Option.ite_none_right_eq_some, Option.some.injEq] at hshell
    exact h.goes hpr hshell.2.symm hfds hst (.inr (.inr (.inr (.inr (.inl ⟨c, hpc, rfl⟩)))))

theorem Inv.start {line : List Char} {c : Command} {rest : Commands} (h : IsLine line c rest)
    (hc : Confined [] (some (c, [])) rest) : (Wired.start T line).Inv T (c :: rest.map Prod.snd) := by
  have hprocs : ∀ r pr, (Wired.start T line).shell.procs r = some pr →
      r = 0 ∧ pr = ⟨0, .waitLine 1, scanLine line, [], none, false, false⟩ ∨
      r = 1 ∧ pr = ⟨0, .parse, scanLine line, [], none, false, false⟩ := by
    intro r pr hr
    unfold Wired.start Shell.start at hr
    dsimp only at hr
    split at hr
    · exact .inl ⟨‹_›, (Option.some.inj hr).symm⟩
    · split at hr
      · exact .inr ⟨‹_›, (Option.some.inj hr).symm⟩
      · cases hr
  refine ⟨⟨⟨0, .parse, scanLine line, [], none, false, false⟩, rfl, ?_⟩, fun r pr hr1 hr => ?_, fun r pr hr => ?_,
    fun x hx => (by cases hx)⟩
  · exact .parse [] c [] [] c rest rfl List.mem_cons_self (List.append_nil c) (h.proper c List.mem_cons_self).2
      (fun z hz => List.mem_cons_of_mem _ (List.mem_map_of_mem hz)) rfl (Nat.zero_le _) h.reads rfl hc
  · rcases hprocs r pr hr with ⟨-, rfl⟩ | ⟨rfl, -⟩
    · rfl
    · exact absurd rfl hr1
  · rcases hprocs r pr hr with ⟨-, rfl⟩ | ⟨-, rfl⟩
    · exact ready_of_pc (by simp) (by simp) (by simp) (by simp)
    · exact ready_of_parses rfl

end Wired

theorem wordsOf_commands (rest : Commands) :
    wordsOf rest.tokens = (rest.map Prod.snd).flatMap fun d => wordsOf d.tokens := by
  induction rest with
  | nil => rfl
  | cons z rest ih =>
    obtain ⟨op, d⟩ := z
    simp only [Commands.tokens, wordsOf, wordsOf_append, List.map_cons, List.flatMap_cons, ih]

/-- No two commands of a line have the same program: it stands in one place. -/
theorem IsLine.distinct {line : List Char} {c : Command} {rest : Commands} (h : IsLine line c rest) :
    Distinct (c :: rest.map Prod.snd) := by
  have hnd := h.reads.places_nodup rfl
  rw [wordsOf_append, wordsOf_commands,
    ← List.flatMap_cons (f := fun d => wordsOf (Command.tokens d)), List.map_flatMap,
    List.nodup_flatMap] at hnd
  intro d hd e he hhead
  by_contra hne
  have hsymm : Std.Symm (Function.onFun List.Disjoint fun d => (wordsOf (Command.tokens d)).map Word.place) :=
    ⟨fun _ _ h _ h₁ h₂ => h h₂ h₁⟩
  have hdisj := hnd.2.forall hd he hne
  obtain ⟨w, ws, hw⟩ := List.exists_cons_of_ne_nil (h.proper d hd).1
  have hwe : w ∈ e.words := by
    rw [hw] at hhead
    exact List.mem_of_mem_head? hhead.symm
  exact hdisj (List.mem_map_of_mem (mem_wordsOf (hw ▸ List.mem_cons_self))) (List.mem_map_of_mem (mem_wordsOf hwe))

/-- **The scope of redirections.** -/
theorem redirection_scope (W : World) (T : Fds) (hT : ∀ n < 2, T n ≠ none) (line : List Char) (c : Command)
    (rest : Commands) (hline : IsLine line c rest) (hc : Confined [] (some (c, [])) rest) (t : Wired)
    (h : Wired.Reached W T line t) :
    t.Scoped T (c :: rest.map Prod.snd) := by
  have hinv : Owed t.shell ∧ t.Inv T (c :: rest.map Prod.snd) := by
    refine Run.invariant (fun t : Wired => Owed t.shell ∧ t.Inv T (c :: rest.map Prod.snd)) ?_ ?_ t h
    · rintro s rfl
      exact ⟨Owed.start line, .start hline hc⟩
    · intro s p s' ⟨ho, hi⟩ _ hs
      obtain ⟨-, -, hshell, -⟩ := Wired.step_eq hs
      exact ⟨ho.step hshell, hi.step ho hline.proper hline.distinct hT hs⟩
  exact hinv.2.right

/-! ### At two lines -/

/-- Descriptors 0 and 1. -/
def console : Fds := fun n => if n < 2 then some (.shell n) else none

theorem console_open : ∀ n < 2, console n ≠ none := by decide

/-- The line is parsed by 1, its first command run by 2 as program 3, and its second one by 1, after `n` tokens. -/
theorem reached_line (line : List Char) (n : Nat) (p : Wired → Bool) (h : ((some (Wired.start console line)).bind
    (exec (Wired.step (.ofStatus fun _ => 0)) (fun _ _ => true)
      ([1, 1, 1, 2, 2, 3, 3, 2, 2, 2, 1] ++ List.replicate n 1 ++ [1, 1]))).any p = true) :
    ∃ t, Wired.Reached (.ofStatus fun _ => 0) console line t ∧ p t = true :=
  Run.exists_of_exec (fun _ _ _ => trivial) _ _ (fun _ h => (Option.some.inj h).symm) p h

/-- Both commands have a file for descriptor 1. -/
theorem redirection_scope_both : ∃ t, Wired.Reached (.ofStatus fun _ => 0) console "a>f;b>g".toList t ∧
    t.started.length = 2 ∧ t.Scoped console [[.word ⟨.line 0, ['a']⟩, .redir .greater ⟨.line 2, ['f']⟩],
      [.word ⟨.line 4, ['b']⟩, .redir .greater ⟨.line 6, ['g']⟩]] := by
  obtain ⟨t, ht, hp⟩ := reached_line "a>f;b>g".toList 3 (fun t => decide (t.started.length = 2)) (by decide +kernel)
  refine ⟨t, ht, of_decide_eq_true hp, redirection_scope (.ofStatus fun _ => 0) console console_open "a>f;b>g".toList
    [.word ⟨.line 0, ['a']⟩, .redir .greater ⟨.line 2, ['f']⟩]
    [(.semi, [.word ⟨.line 4, ['b']⟩, .redir .greater ⟨.line 6, ['g']⟩])]
    ⟨by decide +kernel, by unfold Proper Plain; decide⟩ ⟨fun _ => by decide, fun _ _ => by decide⟩ t ht⟩

/-- **`b` writes to the file of `a`.** -/
theorem redirection_scope_fails :
    ¬∀ (W : World) (T : Fds) (line : List Char) (c : Command) (rest : Commands) (t : Wired),
    (∀ n < 2, T n ≠ none) → IsLine line c rest → Wired.Reached W T line t → t.Scoped T (c :: rest.map Prod.snd) := by
  obtain ⟨t, ht, hp⟩ := reached_line "a>f;b".toList 2 (fun t => decide (t.started.map (fun x => (x.1, x.2 1)) =
    [([⟨.line 0, ['a']⟩], some (.named .greater ⟨.line 2, ['f']⟩)),
      ([⟨.line 4, ['b']⟩], some (.named .greater ⟨.line 2, ['f']⟩))]))
    (by decide +kernel)
  have hp := of_decide_eq_true hp
  intro hall
  have hscoped := hall (.ofStatus fun _ => 0) console "a>f;b".toList
      [.word ⟨.line 0, ['a']⟩, .redir .greater ⟨.line 2, ['f']⟩]
    [(.semi, [.word ⟨.line 4, ['b']⟩])] t console_open ⟨by decide +kernel, by unfold Proper Plain; decide⟩ ht
  have hmem : (([⟨.line 4, ['b']⟩] : Cmd), some (File.named .greater ⟨.line 2, ['f']⟩)) ∈
      t.started.map (fun x => (x.1, x.2 1)) := by
    rw [hp]
    decide
  obtain ⟨x, hx, he⟩ := List.mem_map.1 hmem
  obtain ⟨h1, h2⟩ := Prod.mk.inj he
  have hone := hscoped x hx [.word ⟨.line 4, ['b']⟩] (by decide) (by rw [h1]; rfl) 1 (by decide)
  rw [h2] at hone
  revert hone
  decide

end Mos.Sh
