import Mos.Lib.Turns
import Mos.Lib.Tailq
import Mos.Sched
import Mos.Isolation
/-!
# RoundRobin — `schedule` takes weighted turns

While only the timer ticks, `env_sched_list`, `curenv` and `count` are a queue that rotates: the head runs for as many
ticks as its priority says.
-/
namespace Mos

/-- The priority, as `count` takes it. -/
def Kernel.weight (k : Kernel) (e : EnvIx) : Nat := (k.envs e).envPri.toNat

/-- The state after some timer ticks. -/
def ticks : Nat → Kernel → Option Kernel
  | 0, k => some k
  | t + 1, k => (schedule k false).bind (ticks t)

/-- **The head of the list has just been selected**: every element is runnable, with a priority from 1 to 2^31 - 1. -/
structure Selected (k : Kernel) (xs : List EnvIx) : Prop where
  links : k.sched.Links xs
  running : k.curenv = xs.head?
  nonempty : xs ≠ []
  runnable : ∀ e ∈ xs, (k.envs e).envStatus = .runnable
  weight : ∀ e ∈ xs, 0 < k.weight e ∧ k.weight e < 2 ^ 31
  count : ∀ e, k.curenv = some e → k.count = k.weight e - 1

/-- A yield by the caller, the head of the list: the next one has the CPU, with a full slice. -/
def YieldsTo (k : Kernel) : Prop := ∀ e xs, k.sched.Links (e :: xs) →
  k.curenv = some e ∧ ∃ k', schedule k true = some k' ∧ Selected k' (xs ++ [e]) ∧ (k'.curenv = some e → xs = [])

/-- The queue of the scheduler, and what is left of the slice. -/
structure Turning (k : Kernel) (w : EnvIx → Nat) (s : Turn EnvIx) : Prop where
  links : k.sched.Links s.queue
  running : k.curenv = s.queue.head?
  nonempty : s.queue ≠ []
  runnable : ∀ e ∈ s.queue, (k.envs e).envStatus = .runnable
  weight : ∀ e ∈ s.queue, k.weight e = w e ∧ 0 < w e ∧ w e < 2 ^ 31
  count : k.count = s.left

namespace Turning

variable {k k' : Kernel} {w : EnvIx → Nat} {s : Turn EnvIx} {e : EnvIx} {xs : List EnvIx}

theorem toInt_pri (h : k.weight e < 2 ^ 31) : (k.envs e).envPri.toInt = k.weight e := by
  unfold Kernel.weight at h ⊢
  rw [BitVec.toInt_eq_toNat_cond, if_pos (by omega)]

/-- What `schedule` looks at does not change. -/
structure SameTurns (k k' : Kernel) : Prop where
  sched : k'.sched = k.sched
  count : k'.count = k.count
  status : ∀ x, (k'.envs x).envStatus = (k.envs x).envStatus
  pri : ∀ x, (k'.envs x).envPri = (k.envs x).envPri

theorem sameTurns_setEnv (k : Kernel) (e : EnvIx) (f : Env → Env) (hs : ∀ v, (f v).envStatus = v.envStatus)
    (hp : ∀ v, (f v).envPri = v.envPri) : SameTurns k (k.setEnv e f) := by
  refine ⟨rfl, rfl, fun x => ?_, fun x => ?_⟩
  · by_cases hx : x = e
    · subst hx
      show (Function.update k.envs x (f (k.envs x)) x).envStatus = _
      rw [Function.update_self, hs]
    · show (Function.update k.envs e (f (k.envs e)) x).envStatus = _
      rw [Function.update_of_ne hx]
  · by_cases hx : x = e
    · subst hx
      show (Function.update k.envs x (f (k.envs x)) x).envPri = _
      rw [Function.update_self, hp]
    · show (Function.update k.envs e (f (k.envs e)) x).envPri = _
      rw [Function.update_of_ne hx]

theorem sameTurns_saveTf (k : Kernel) : SameTurns k (saveTf k) := by
  unfold saveTf
  split
  · exact sameTurns_setEnv k _ _ (fun _ => rfl) (fun _ => rfl)
  · exact ⟨rfl, rfl, fun _ => rfl, fun _ => rfl⟩

theorem envRun_eq (hr : (k.envs e).envStatus = .runnable) :
    ∃ k', envRun k e = some k' ∧ SameTurns k k' ∧ k'.curenv = some e := by
  have hsave := sameTurns_saveTf k
  have hruns := sameTurns_setEnv (saveTf k) e (fun v => { v with envRuns := v.envRuns + 1 })
      (fun _ => rfl) (fun _ => rfl)
  unfold envRun
  rw [if_pos hr]
  exact ⟨_, rfl, ⟨hruns.sched.trans hsave.sched, hruns.count.trans hsave.count,
    fun x => (hruns.status x).trans (hsave.status x), fun x => (hruns.pri x).trans (hsave.pri x)⟩, rfl⟩

theorem of_run {q : Tailq EnvIx} {n : Nat} (h : Turning k w s) (hq : q.Links (e :: xs))
    (hperm : (e :: xs).Perm s.queue) :
    ∃ k', envRun { k with sched := q, count := n } e = some k' ∧ Turning k' w ⟨e :: xs, n⟩ := by
  have hmem : ∀ x ∈ e :: xs, x ∈ s.queue := fun x hx => hperm.mem_iff.1 hx
  obtain ⟨k', hk', hsame, hcur⟩ :=
    @envRun_eq { k with sched := q, count := n } e (h.runnable e (hmem e List.mem_cons_self))
  refine ⟨k', hk', hsame.sched ▸ hq, hcur, List.cons_ne_nil _ _, fun x hx => ?_, fun x hx => ?_, hsame.count⟩
  · exact (hsame.status x).trans (h.runnable x (hmem x hx))
  · have hw := h.weight x (hmem x hx)
    unfold Kernel.weight at hw ⊢
    rw [hsame.pri x]
    exact hw

/-- **The caller goes to the tail, and the head begins its turn.** -/
theorem switch (h : Turning k w s) {yield : Bool} (hy : mustSwitch k yield = true) :
    ∃ k', schedule k yield = some k' ∧ Turning k' w (s.yield w) := by
  obtain ⟨queue, n⟩ := s
  obtain ⟨e, xs, rfl⟩ := List.exists_cons_of_ne_nil h.nonempty
  have hcur : k.curenv = some e := h.running
  obtain ⟨q₁, hq₁, hl₁⟩ := Tailq.remove_links h.links (List.mem_cons_self (a := e) (l := xs))
  rw [List.erase_cons_head] at hl₁
  obtain ⟨q₂, hq₂, hl₂⟩ := Tailq.insertTail_links hl₁ (List.nodup_cons.1 h.links.1).1
  have hreq : requeue k = some q₂ := by
    unfold requeue
    simp only [hcur, hq₁, Option.bind_some]
    rw [if_pos (h.runnable e List.mem_cons_self), hq₂]
  obtain ⟨e', ys, hys⟩ := List.exists_cons_of_ne_nil (show xs ++ [e] ≠ [] by simp)
  have hyield : Turn.yield w ⟨e :: xs, n⟩ = ⟨e' :: ys, w e' - 1⟩ := by
    show Turn.start w (xs ++ [e]) = _
    rw [hys]
    rfl
  have hperm : (e' :: ys).Perm (e :: xs) := by
    rw [← hys]
    exact List.perm_append_singleton e xs
  obtain ⟨hweq, hpos, hlt⟩ := h.weight e' (hperm.mem_iff.1 List.mem_cons_self)
  have hcount : (k.envs e').envPri.toInt - 1 = ((w e' - 1 : Nat) : Int) := by
    rw [toInt_pri (hweq ▸ hlt), hweq]
    omega
  rw [hys] at hl₂
  obtain ⟨k', hk', ht⟩ := h.of_run (n := w e' - 1) hl₂ hperm
  refine ⟨k', ?_, hyield ▸ ht⟩
  unfold schedule
  rw [if_pos hy, hreq, Option.bind_some, hl₂.first_eq]
  simp only [List.head?_cons]
  rw [hcount]
  exact hk'

/-- **One tick** is one step of the queue. -/
theorem tick (h : Turning k w s) : ∃ k', schedule k false = some k' ∧ Turning k' w (s.tick w) := by
  obtain ⟨queue, n⟩ := s
  cases n with
  | zero =>
    have hcount : k.count = 0 := h.count
    refine h.switch ?_
    unfold mustSwitch
    rw [hcount]
    rfl
  | succ n =>
    obtain ⟨e, xs, rfl⟩ := List.exists_cons_of_ne_nil h.nonempty
    have hcur : k.curenv = some e := h.running
    have hcount : k.count = (n + 1 : Nat) := h.count
    have hrun := h.runnable e List.mem_cons_self
    have hstay : mustSwitch k false = false := by
      unfold mustSwitch
      simp only [hcur, hcount, hrun, ne_eq, not_true_eq_false, decide_false, Bool.or_false, Bool.false_or,
        decide_eq_false_iff_not]
      omega
    have hleft : k.count - 1 = (n : Nat) := by omega
    obtain ⟨k', hk', ht⟩ := h.of_run (n := n) h.links (List.Perm.refl _)
    refine ⟨k', ?_, ht⟩
    unfold schedule
    rw [hstay, if_neg Bool.false_ne_true]
    split
    · rename_i hnone
      rw [hcur] at hnone
      cases hnone
    · rename_i e' he'
      obtain rfl := Option.some.inj (hcur.symm.trans he')
      rw [hleft]
      exact hk'

/-- **Any number of ticks.** -/
theorem ticks : ∀ (t : Nat) {k : Kernel} {s : Turn EnvIx}, Turning k w s →
    ∃ k', Mos.ticks t k = some k' ∧ Turning k' w ((Turn.tick w)^[t] s)
  | 0, k, s, h => ⟨k, rfl, h⟩
  | t + 1, k, s, h => by
    obtain ⟨k₁, hk₁, h₁⟩ := h.tick
    obtain ⟨k', hk', h'⟩ := ticks t h₁
    refine ⟨k', ?_, h'⟩
    rw [Mos.ticks, hk₁, Option.bind_some]
    exact hk'

theorem of_selected (h : Selected k xs) : Turning k k.weight (Turn.start k.weight xs) := by
  obtain ⟨e, xs, rfl⟩ := List.exists_cons_of_ne_nil h.nonempty
  have hcur : k.curenv = some e := h.running
  refine ⟨h.links, h.running, h.nonempty, h.runnable, fun x hx => ⟨rfl, h.weight x hx⟩, ?_⟩
  have hpos := (h.weight e List.mem_cons_self).1
  rw [h.count e hcur]
  show _ = ((k.weight e - 1 : Nat) : Int)
  omega

theorem selected (h : Turning k w (Turn.start w xs)) (hxs : xs ≠ []) : Selected k xs := by
  obtain ⟨e, xs, rfl⟩ := List.exists_cons_of_ne_nil hxs
  refine ⟨h.links, h.running, hxs, h.runnable, fun x hx => ?_, fun e' he' => ?_⟩
  · obtain ⟨heq, hpos, hlt⟩ := h.weight x hx
    exact ⟨heq ▸ hpos, heq ▸ hlt⟩
  · obtain rfl : e = e' := Option.some.inj (h.running.symm.trans he')
    obtain ⟨heq, hpos, -⟩ := h.weight e List.mem_cons_self
    rw [h.count, heq]
    show ((w e - 1 : Nat) : Int) = _
    omega

theorem yieldsTo (h : Turning k w s) : YieldsTo k := by
  intro e xs hl
  obtain ⟨queue, n⟩ := s
  obtain rfl : queue = e :: xs := Tailq.Links.unique h.links hl
  refine ⟨h.running, ?_⟩
  obtain ⟨k', hk', ht⟩ := @Turning.switch _ _ _ h true rfl
  have hsel : Selected k' (xs ++ [e]) := selected ht (by simp)
  refine ⟨k', hk', hsel, fun hc => ?_⟩
  cases xs with
  | nil => rfl
  | cons x xs =>
    have hx : k'.curenv = some x := hsel.running
    obtain rfl : x = e := Option.some.inj (hx.symm.trans hc)
    exact absurd List.mem_cons_self (List.nodup_cons.1 hl.1).1

end Turning

/-- **Weighted round robin**: after any number of ticks the CPU is with the environment that the repeated block has
there, after whole rounds the list is in its first order, and at any point a yield goes to the next environment. -/
theorem weighted_round_robin (k : Kernel) (xs : List EnvIx) (h : Selected k xs) (t : Nat) : ∃ k', ticks t k = some k' ∧
    k'.curenv = (Turn.turns k.weight xs)[t % (xs.map k.weight).sum]? ∧
    ((xs.map k.weight).sum ∣ t → k'.sched.Links xs) ∧ YieldsTo k' := by
  have hpos : ∀ e ∈ xs, 0 < k.weight e := fun e he => (h.weight e he).1
  obtain ⟨k', hk', ht⟩ := (Turning.of_selected h).ticks t
  refine ⟨k', hk', ht.running.trans (Turn.head_iterate_round hpos h.nonempty t), ?_, ht.yieldsTo⟩
  rintro ⟨n, rfl⟩
  rw [Turn.iterate_round xs hpos] at ht
  exact (ht.selected h.nonempty).links

/-! ## The small machine -/

/-- The links of a list, one by one. -/
def linksB (q : Tailq EnvIx) : Cell EnvIx → List EnvIx → Bool
  | c, [] => decide (q.load c = none ∧ q.last = some c)
  | c, x :: xs => decide (q.load c = some x ∧ q.prev x = some c) && linksB q (.next x) xs

theorem seg_of_linksB {q : Tailq EnvIx} : ∀ {c : Cell EnvIx} {xs : List EnvIx}, linksB q c xs = true → q.Seg c xs
  | c, [], h => by
    rw [linksB, decide_eq_true_eq] at h
    exact h
  | c, x :: xs, h => by
    rw [linksB, Bool.and_eq_true, decide_eq_true_eq] at h
    exact ⟨h.1.1, h.1.2, seg_of_linksB h.2⟩

/-- Two environments with priorities 1 and 2, the second one just selected: after five ticks the first one runs
again. -/
theorem weighted_round_robin_two : ∃ k k', Selected k [1, 0] ∧ ticks 5 k = some k' ∧ k'.curenv = some 0 := by
  have hsmall : ((mipsInit smallBoard [emptyProgram, { emptyProgram with priority := 2 }]).bind
      (fun k => schedule k false)).any (fun k => linksB k.sched .head [1, 0] && decide (k.curenv = some 1) &&
      decide ((k.envs 0).envStatus = .runnable ∧ (k.envs 1).envStatus = .runnable) &&
      decide (k.weight 0 = 1 ∧ k.weight 1 = 2 ∧ k.count = 1)) = true := by decide +kernel
  obtain ⟨k, -, hk⟩ := (Option.any_eq_true _ _).1 hsmall
  simp only [Bool.and_eq_true, decide_eq_true_eq] at hk
  obtain ⟨⟨⟨hlinks, hcur⟩, hrun⟩, h0, h1, hcount⟩ := hk
  have hsel : Selected k [1, 0] := by
    refine ⟨⟨by decide, seg_of_linksB hlinks⟩, hcur, List.cons_ne_nil _ _, fun e he => ?_,
      fun e he => ?_, fun e he => ?_⟩
    · rcases List.mem_cons.1 he with rfl | he
      · exact hrun.2
      · rw [List.mem_singleton.1 he]
        exact hrun.1
    · rcases List.mem_cons.1 he with rfl | he
      · rw [h1]
        decide
      · rw [List.mem_singleton.1 he, h0]
        decide
    · obtain rfl := Option.some.inj (hcur.symm.trans he)
      rw [hcount, h1]
      rfl
  obtain ⟨k', hk', hwho, -, -⟩ := weighted_round_robin k [1, 0] hsel 5
  refine ⟨k, k', hsel, hk', hwho.trans ?_⟩
  have hsum : ([1, 0].map k.weight).sum = 3 := by simp [h0, h1]
  have hturns : Turn.turns k.weight [1, 0] = [1, 1, 0] := by
    simp only [Turn.turns, List.flatMap_cons, List.flatMap_nil, h0, h1]
    rfl
  rw [hsum, hturns]
  rfl

end Mos
