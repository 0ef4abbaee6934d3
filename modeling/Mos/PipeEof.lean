import Mathlib.Data.List.TakeDrop
import Mos.PipeFifo
/-!
# PipeEof — when `read` says that the pipe is at its end

`PipeRun` is the pipe's two processes under a scheduler that preempts anywhere: `_pipe_is_closed` is the four loads it
makes, repeated while `env_runs` moves.  `pipe_read` tests the positions first and asks `_pipe_is_closed` then; what
happens in between decides whether its 0 is the end of the file.
-/
namespace Mos

namespace PipeSt

/-! ## What a step can do -/

/-- What only grows, and who can put. -/
structure Grows (s s' : PipeSt) : Prop where
  returned : s.returned <+: s'.returned
  fd : ∀ p e, s'.maps.fd p e = true → s.maps.fd p e = true
  put : s'.put = s.put ∨ ∃ wbuf i w, s.wr = .store wbuf i w

/-- The step of the reader that ends its `read` with nothing. -/
def Ending (s : PipeSt) (n w : Word) : Prop := s.rd = .check n [] w ∧ s.maps.pipeIsClosed .reader .rd = true

namespace Grows

variable {s s' : PipeSt}

theorem keeps (hr : s.returned <+: s'.returned) (hm : s'.maps.fd = s.maps.fd) (hp : s'.put = s.put) :
    s.Grows s' :=
  ⟨hr, fun p e h => by rw [← hm]; exact h, .inl hp⟩

theorem setFd (p : Who) (e : End) (hr : s'.returned = s.returned) (hm : s'.maps = s.maps.setFd p e false)
    (hp : s'.put = s.put) : s.Grows s' := by
  refine ⟨hr ▸ List.prefix_refl _, fun q e' h => ?_, .inl hp⟩
  rw [hm, Ends.setFd_fd] at h
  split at h
  · cases h
  · exact h

end Grows

theorem readReturn_grows (s : PipeSt) (n : Word) (rbuf : List Byte) : s.Grows (s.readReturn n rbuf) :=
  .keeps (List.prefix_append _ _) rfl rfl

theorem readLoop_grows (s : PipeSt) (n : Word) (rbuf : List Byte) : s.Grows (s.readLoop n rbuf) := by
  unfold readLoop
  split
  · exact .keeps (List.prefix_refl _) rfl rfl
  · exact readReturn_grows s n rbuf

theorem readStep_grows {s s' : PipeSt} (hs : s.readStep = some s') : s.Grows s' := by
  unfold readStep at hs
  split at hs
  case h_3 =>
    split at hs
    · split at hs
      · cases hs
        exact readReturn_grows _ _ _
      · cases hs
        exact .keeps (List.prefix_refl _) rfl rfl
    · cases hs
      exact .keeps (List.prefix_refl _) rfl rfl
  case h_9 n rbuf r hpc =>
    cases hs
    have hg := readLoop_grows { s with pipe := { s.pipe with rpos := r + 1 } } n rbuf
    exact ⟨hg.returned, hg.fd, hg.put⟩
  case h_11 e hpc =>
    cases hs
    exact .setFd .reader e rfl rfl rfl
  all_goals cases hs
  all_goals exact .keeps (List.prefix_refl _) rfl rfl

theorem writeStep_grows {s s' : PipeSt} (hs : s.writeStep = some s') : s.Grows s' := by
  unfold writeStep at hs
  split at hs
  case h_3 => split at hs <;> cases hs <;> exact .keeps (List.prefix_refl _) rfl rfl
  case h_7 =>
    obtain ⟨b, -, rfl⟩ := Option.map_eq_some_iff.1 hs
    exact .keeps (List.prefix_refl _) rfl rfl
  case h_9 wbuf i w hpc =>
    cases hs
    rw [writeLoop_eq]
    exact ⟨List.prefix_refl _, fun p e h => h, .inr ⟨wbuf, i, w, hpc⟩⟩
  case h_11 e hpc =>
    cases hs
    exact .setFd .writer e rfl rfl rfl
  all_goals cases hs
  all_goals exact .keeps (List.prefix_refl _) rfl rfl

theorem step_grows {s s' : PipeSt} {a : PipeAct} (hs : s.step a = some s') : s.Grows s' := by
  cases a with
  | run p =>
    cases p with
    | reader =>
      simp only [step] at hs
      split at hs
      · cases hs
        unfold readAnswer
        split
        · exact readReturn_grows _ _ _
        · exact .keeps (List.prefix_refl _) rfl rfl
      · exact readStep_grows hs
    | writer =>
      simp only [step] at hs
      split at hs
      · cases hs
        unfold writeAnswer
        split <;> exact .keeps (List.prefix_refl _) rfl rfl
      · exact writeStep_grows hs
  | call c =>
    cases c with
    | read n =>
      simp only [step, call] at hs
      split at hs
      · split at hs
        · cases hs
          exact readLoop_grows _ _ _
        · cases hs
      · cases hs
    | write wbuf =>
      simp only [step, call] at hs
      split at hs
      · split at hs
        · cases hs
          rw [writeLoop_eq]
          exact .keeps (List.prefix_refl _) rfl rfl
        · cases hs
      · cases hs
    | close p e =>
      cases p <;> simp only [step, call] at hs <;> split at hs
      · split at hs
        · cases hs
          exact .setFd .reader e rfl rfl rfl
        · cases hs
      · cases hs
      · split at hs
        · cases hs
          exact .setFd .writer e rfl rfl rfl
        · cases hs
      · cases hs

theorem readReturn_eof {s : PipeSt} {n : Word} {rbuf : List Byte} (h : n = 0 ∨ rbuf ≠ []) :
    (s.readReturn n rbuf).eof = s.eof := by
  unfold readReturn
  rcases h with rfl | h
  · simp
  · simp [h]

theorem readLoop_eof {s : PipeSt} {n : Word} {rbuf : List Byte} (h : rbuf.length ≤ n.toNat) :
    (s.readLoop n rbuf).eof = s.eof := by
  unfold readLoop
  split
  · rfl
  · rename_i hlt
    refine readReturn_eof ?_
    by_cases hb : rbuf = []
    · left
      subst hb
      rw [BitVec.lt_def] at hlt
      apply BitVec.eq_of_toNat_eq
      simpa [count] using hlt
    · exact .inr hb

theorem readStep_eof {s s' : PipeSt} (h : s.PipeInv) (hs : s.readStep = some s') : s'.eof = s.eof := by
  obtain ⟨r, hdata⟩ := h.data
  have hat := hdata.reader
  unfold ReaderAt at hat
  unfold readStep at hs
  split at hs
  case h_3 n rbuf r' hpc =>
    split at hs
    · split at hs
      · rename_i hi
        cases hs
        refine readReturn_eof (.inr ?_)
        rintro rfl
        simp [count] at hi
      · cases hs
        rfl
    · cases hs
      rfl
  case h_9 n rbuf r' hpc =>
    rw [hpc] at hat
    cases hs
    rw [readLoop_eof hat.1.2.1]
  all_goals cases hs <;> rfl

theorem writeStep_eof {s s' : PipeSt} (hs : s.writeStep = some s') : s'.eof = s.eof := by
  unfold writeStep at hs
  split at hs
  case h_3 => split at hs <;> cases hs <;> rfl
  case h_7 =>
    obtain ⟨b, -, rfl⟩ := Option.map_eq_some_iff.1 hs
    rfl
  case h_9 =>
    cases hs
    rw [writeLoop_eq]
  all_goals cases hs <;> rfl

/-- **Only a `read` that has nothing and finds the pipe closed says it is at its end.** -/
theorem step_eof {s s' : PipeSt} {a : PipeAct} (h : s.PipeInv) (hs : s.step a = some s') (he : s'.eof = true) :
    s.eof = true ∨ ∃ n w, a = .run .reader ∧ s.Ending n w ∧ s' = s.readReturn n [] := by
  cases a with
  | run p =>
    cases p with
    | reader =>
      simp only [step] at hs
      split at hs
      · rename_i n rbuf w hpc
        cases hs
        unfold readAnswer at he ⊢
        split at he
        · rename_i hclosed
          rw [if_pos hclosed]
          by_cases hb : rbuf = []
          · subst hb
            exact .inr ⟨n, w, rfl, ⟨hpc, hclosed⟩, rfl⟩
          · rw [readReturn_eof (.inr hb)] at he
            exact .inl he
        · exact .inl he
      · rw [readStep_eof h hs] at he
        exact .inl he
    | writer =>
      simp only [step] at hs
      split at hs
      · cases hs
        unfold writeAnswer at he
        split at he <;> exact .inl he
      · rw [writeStep_eof hs] at he
        exact .inl he
  | call c =>
    left
    cases c with
    | read n =>
      simp only [step, call] at hs
      split at hs
      · split at hs
        · cases hs
          rwa [readLoop_eof (Nat.zero_le _)] at he
        · cases hs
      · cases hs
    | write wbuf =>
      simp only [step, call] at hs
      split at hs
      · split at hs
        · cases hs
          rwa [writeLoop_eq] at he
        · cases hs
      · cases hs
    | close p e =>
      cases p <;> simp only [step, call] at hs <;> split at hs
      · split at hs
        · cases hs; exact he
        · cases hs
      · cases hs
      · split at hs
        · cases hs; exact he
        · cases hs
      · cases hs

/-! ## The end of the file -/

/-- **The end is not early**: once a `read` of at least one byte has returned 0, all that was ever put is returned. -/
def EofRight (s : PipeSt) : Prop := s.eof = true → s.returned = s.put

/-- The reader's positions are those of now, and have not wrapped around. -/
def Current (s : PipeSt) (w : Word) : Prop := w = s.pipe.wpos ∧ s.put.length < 2 ^ 32

/-- Once the end was seen, everything is returned and nobody can put more. -/
def EofInv (s : PipeSt) : Prop := s.eof = true → s.returned = s.put ∧ ∀ p, s.maps.fd p .wr = false

/-- **A `read` that ends has got everything exactly when what it tested is current.** -/
theorem ending_iff {s : PipeSt} {n w : Word} (h : s.PipeInv) (he : s.Ending n w) :
    s.returned = s.put ↔ s.Current w := by
  obtain ⟨r, hdata⟩ := h.data
  have hat := hdata.reader
  unfold ReaderAt at hat
  rw [he.1] at hat
  obtain ⟨⟨hret, -⟩, hge, w₀, hw₀, hr, rfl⟩ := hat
  rw [List.append_nil] at hret
  have hle := hdata.le
  have hlt := hdata.lt
  rw [hdata.rpos, ge_iff_le, BitVec.le_def, BitVec.toNat_ofNat, BitVec.toNat_ofNat, Nat.mod_eq_of_lt hlt] at hge
  have hall : s.returned = s.put ↔ s.put.length ≤ r := by
    rw [hret]
    exact List.take_eq_self_iff s.put
  rw [hall]
  constructor
  · intro hput
    have : w₀ = s.put.length := by omega
    exact ⟨by rw [hdata.wpos, this], by omega⟩
  · rintro ⟨hw, hput⟩
    have hnat : w₀ % 2 ^ 32 = s.put.length % 2 ^ 32 := by
      rw [hdata.wpos] at hw
      simpa using congrArg BitVec.toNat hw
    omega

theorem eofInv_step {s s' : PipeSt} {a : PipeAct} (h : s.PipeInv) (hinv : s.EofInv) (hs : s.step a = some s')
    (hsafe : ∀ n w, a = .run .reader → s.Ending n w → s.Current w) : s'.EofInv := by
  intro he
  have hg := step_grows hs
  rcases step_eof h hs he with hold | ⟨n, w, rfl, hend, rfl⟩
  · obtain ⟨hret, hfd⟩ := hinv hold
    have hnowr : ∀ p, s'.maps.fd p .wr = false := fun p => Bool.eq_false_iff.2 (fun hc => by
      have := hg.fd p .wr hc
      rw [hfd p] at this
      cases this)
    refine ⟨?_, hnowr⟩
    have hput : s'.put = s.put := by
      rcases hg.put with hp | ⟨wbuf, i, w, hwr⟩
      · exact hp
      · have hends := h.ends.writer
        rw [hwr] at hends
        have hmapped : s.maps.fd .writer .wr = true := hends
        rw [hfd .writer] at hmapped
        cases hmapped
    obtain ⟨r', hdata'⟩ := (h.step hs).data
    have hpre : s'.returned <+: s'.put := (List.prefix_append _ _).trans (got_put hdata')
    rw [hput] at hpre ⊢
    exact hpre.eq_of_length_le (hret ▸ hg.returned.length_le)
  · have hret := (ending_iff h hend).2 (hsafe n w rfl hend)
    refine ⟨?_, fun p => ?_⟩
    · show s.returned ++ [] = s.put
      rw [List.append_nil]
      exact hret
    · have hat := h.ends.reader
      rw [hend.1] at hat
      exact not_other_of_closed h.ends.data hat hend.2 p

end PipeSt

/-! ## Preemption -/

/-- Where a process is in `_pipe_is_closed`: what it has loaded into `runs`, `fd_ref` and `pipe_ref`. -/
inductive AskPc where
  | start
  | fdRef (runs : Word)
  | pipeRef (runs : Word) (fdRef : Nat)
  | again (runs : Word) (fdRef pipeRef : Nat)
deriving DecidableEq

/-- The end that a process asks about. -/
def Who.end : Who → End
  | .reader => .rd
  | .writer => .wr

/-- Who makes the call. -/
def PipeSt.Call.who : PipeSt.Call → Who
  | .read _ => .reader
  | .write _ => .writer
  | .close p _ => p

/-- Whose step it is. -/
def PipeAct.who : PipeAct → Who
  | .call c => c.who
  | .run p => p

/-- What `p` does with the answer, when it is in `_pipe_is_closed`. -/
def PipeSt.asks (s : PipeSt) : Who → Option (Bool → PipeSt)
  | .reader =>
    match s.rd with
    | .check n rbuf _ => some (s.readAnswer n rbuf)
    | _ => none
  | .writer =>
    match s.wr with
    | .check wbuf i => some (s.writeAnswer wbuf i)
    | _ => none

/-- The two processes, which of them runs, and how often each was run. -/
structure PipeRun where
  st : PipeSt
  cur : Who
  envRuns : Who → Word
  ask : Who → AskPc

inductive RunAct where
  | call (c : PipeSt.Call)
  /-- The next load, store or system call of the process that runs. -/
  | run
  /-- The scheduler runs `p`. -/
  | switch (p : Who)

namespace PipeRun

/-- The next load of `_pipe_is_closed`, or its answer. -/
def pipeIsClosed (t : PipeRun) : AskPc → AskPc ⊕ Bool
  | .start => .inl (.fdRef (t.envRuns t.cur))
  | .fdRef runs => .inl (.pipeRef runs (t.st.maps.fdRef t.cur t.cur.end))
  | .pipeRef runs fdRef => .inl (.again runs fdRef (t.st.maps.pipeRef t.cur t.cur.end))
  | .again runs fdRef pipeRef => if runs ≠ t.envRuns t.cur then .inl .start else .inr (fdRef == pipeRef)

/-- The process that runs is at `a` of `_pipe_is_closed`. -/
def setAsk (t : PipeRun) (a : AskPc) : PipeRun := { t with ask := Function.update t.ask t.cur a }

/-- One step of the process that runs, or of the scheduler. -/
def step (t : PipeRun) : RunAct → Option PipeRun
  | .call c => if c.who = t.cur then (t.st.call c).map (fun s => { t with st := s }) else none
  | .run =>
    match t.st.asks t.cur with
    | some answer =>
      match t.pipeIsClosed (t.ask t.cur) with
      | .inl a => some (t.setAsk a)
      | .inr closed => some { t.setAsk .start with st := answer closed }
    | none => (t.st.step (.run t.cur)).map (fun s => { t with st := s })
  | .switch p => some { t with cur := p, envRuns := Function.update t.envRuns p (t.envRuns p + 1) }

def Fresh (t : PipeRun) : Prop := t.st.Fresh ∧ ∀ p, t.ask p = .start

/-! ## `_pipe_is_closed` is one step -/

/-- What a process has loaded is what is there now, unless it was run again since. -/
structure AskInv (t : PipeRun) : Prop where
  start : ∀ p, t.st.asks p = none → t.ask p = .start
  fdRef : ∀ p runs f, t.ask p = .pipeRef runs f → t.envRuns p = runs → t.cur = p → f = t.st.maps.fdRef p p.end
  pipeRef : ∀ p runs f d, t.ask p = .again runs f d → t.envRuns p = runs → t.cur = p →
    f = t.st.maps.fdRef p p.end ∧ d = t.st.maps.pipeRef p p.end

/-- **The scheduler does not run a process `2 ^ 32` times** between two loads of `_pipe_is_closed`. -/
def NoWrap (t : PipeRun) : RunAct → Prop
  | .switch p => (∀ runs f, t.ask p = .pipeRef runs f → t.envRuns p + 1 ≠ runs) ∧
      ∀ runs f d, t.ask p = .again runs f d → t.envRuns p + 1 ≠ runs
  | _ => True

theorem step_of_asks {s : PipeSt} {p : Who} {answer : Bool → PipeSt} (h : s.asks p = some answer) :
    s.step (.run p) = some (answer (s.maps.pipeIsClosed p p.end)) := by
  cases p <;> simp only [PipeSt.asks] at h <;> split at h <;> cases h <;> rename_i hpc <;>
    simp only [PipeSt.step, hpc, Who.end]

theorem asks_of_call {s s' : PipeSt} {c : PipeSt.Call} (h : s.call c = some s') : s.asks c.who = none := by
  cases c with
  | read n =>
    simp only [PipeSt.call] at h
    split at h
    · rename_i hpc
      simp only [PipeSt.Call.who, PipeSt.asks, hpc]
    · cases h
  | write wbuf =>
    simp only [PipeSt.call] at h
    split at h
    · rename_i hpc
      simp only [PipeSt.Call.who, PipeSt.asks, hpc]
    · cases h
  | close p e =>
    cases p <;> simp only [PipeSt.call] at h <;> split at h
    · rename_i hpc
      simp only [PipeSt.Call.who, PipeSt.asks, hpc]
    · cases h
    · rename_i hpc
      simp only [PipeSt.Call.who, PipeSt.asks, hpc]
    · cases h

theorem readStep_wr {s s' : PipeSt} (hs : s.readStep = some s') : s'.wr = s.wr := by
  unfold PipeSt.readStep at hs
  split at hs
  case h_3 =>
    split at hs
    · split at hs <;> cases hs <;> rfl
    · cases hs; rfl
  case h_9 =>
    cases hs
    unfold PipeSt.readLoop PipeSt.readReturn
    split <;> rfl
  all_goals cases hs <;> rfl

theorem writeStep_rd {s s' : PipeSt} (hs : s.writeStep = some s') : s'.rd = s.rd := by
  unfold PipeSt.writeStep at hs
  split at hs
  case h_3 => split at hs <;> cases hs <;> rfl
  case h_7 =>
    obtain ⟨b, -, rfl⟩ := Option.map_eq_some_iff.1 hs
    rfl
  case h_9 =>
    cases hs
    rw [PipeSt.writeLoop_eq]
  all_goals cases hs <;> rfl

theorem step_other {s s' : PipeSt} {b : PipeAct} (hs : s.step b = some s') :
    (b.who = .reader → s'.wr = s.wr) ∧ (b.who = .writer → s'.rd = s.rd) := by
  cases b with
  | run p =>
    cases p with
    | reader =>
      refine ⟨fun _ => ?_, (fun h => by cases h)⟩
      simp only [PipeSt.step] at hs
      split at hs
      · cases hs
        unfold PipeSt.readAnswer PipeSt.readReturn
        split <;> rfl
      · exact readStep_wr hs
    | writer =>
      refine ⟨(fun h => by cases h), fun _ => ?_⟩
      simp only [PipeSt.step] at hs
      split at hs
      · cases hs
        unfold PipeSt.writeAnswer
        split <;> rfl
      · exact writeStep_rd hs
  | call c =>
    cases c with
    | read n =>
      refine ⟨fun _ => ?_, (fun h => by cases h)⟩
      simp only [PipeSt.step, PipeSt.call] at hs
      split at hs
      · split at hs
        · cases hs
          unfold PipeSt.readLoop PipeSt.readReturn
          split <;> rfl
        · cases hs
      · cases hs
    | write wbuf =>
      refine ⟨(fun h => by cases h), fun _ => ?_⟩
      simp only [PipeSt.step, PipeSt.call] at hs
      split at hs
      · split at hs
        · cases hs
          rw [PipeSt.writeLoop_eq]
        · cases hs
      · cases hs
    | close p e =>
      cases p <;> simp only [PipeSt.step, PipeSt.call] at hs <;> split at hs
      · refine ⟨fun _ => ?_, (fun h => by cases h)⟩
        split at hs
        · cases hs; rfl
        · cases hs
      · cases hs
      · refine ⟨(fun h => by cases h), fun _ => ?_⟩
        split at hs
        · cases hs; rfl
        · cases hs
      · cases hs

theorem asks_other {s s' : PipeSt} {b : PipeAct} (hs : s.step b = some s') {p : Who} (hp : p ≠ b.who) :
    s'.asks p = none ↔ s.asks p = none := by
  obtain ⟨hwr, hrd⟩ := step_other hs
  cases p with
  | reader =>
    have hb : b.who = .writer := by
      cases hw : b.who with
      | reader => exact absurd hw.symm hp
      | writer => rfl
    simp only [PipeSt.asks, hrd hb]
    split <;> simp
  | writer =>
    have hb : b.who = .reader := by
      cases hw : b.who with
      | reader => rfl
      | writer => exact absurd hw.symm hp
    simp only [PipeSt.asks, hwr hb]
    split <;> simp

/-- **A step is a step of the pipe, a load of `_pipe_is_closed`, or the scheduler's.** -/
inductive Refines (t : PipeRun) : RunAct → PipeRun → Prop where
  | pipe (a : RunAct) (b : PipeAct) (s : PipeSt) : b.who = t.cur → t.st.step b = some s →
      (∀ p, b = .run p → a = .run ∧ (t.st.asks p ≠ none →
        ∃ f d, t.ask p = .again (t.envRuns p) f d ∧ (f == d) = t.st.maps.pipeIsClosed p p.end)) →
      Refines t a { t.setAsk .start with st := s }
  | load (a : AskPc) : t.st.asks t.cur ≠ none → t.pipeIsClosed (t.ask t.cur) = .inl a → Refines t .run (t.setAsk a)
  | switch (p : Who) :
      Refines t (.switch p) { t with cur := p, envRuns := Function.update t.envRuns p (t.envRuns p + 1) }

theorem setAsk_same {t : PipeRun} {a : AskPc} (h : t.ask t.cur = a) : t.setAsk a = t := by
  subst h
  unfold setAsk
  rw [Function.update_eq_self]

theorem refines {t t' : PipeRun} {a : RunAct} (h : t.AskInv) (hs : t.step a = some t') : t.Refines a t' := by
  cases a with
  | call c =>
    simp only [step] at hs
    split at hs
    · rename_i hc
      obtain ⟨s, hcall, rfl⟩ := Option.map_eq_some_iff.1 hs
      have hr := Refines.pipe (t := t) (.call c) (.call c) s hc hcall (fun p hp => by cases hp)
      rw [setAsk_same (h.start t.cur (hc ▸ asks_of_call hcall))] at hr
      exact hr
    · cases hs
  | switch p =>
    cases hs
    exact .switch p
  | run =>
    simp only [step] at hs
    split at hs
    · rename_i answer hans
      split at hs
      · rename_i a ha
        cases hs
        exact .load a (by rw [hans]; simp) ha
      · rename_i closed hc
        cases hs
        unfold pipeIsClosed at hc
        split at hc
        · cases hc
        · cases hc
        · cases hc
        · rename_i runs f d hask
          split at hc
          · cases hc
          · rename_i hruns
            rw [not_not] at hruns
            obtain rfl : (f == d) = closed := by simpa using hc
            obtain ⟨hf, hd⟩ := h.pipeRef t.cur runs f d hask hruns.symm rfl
            have htruth : (f == d) = t.st.maps.pipeIsClosed t.cur t.cur.end := by
              rw [hf, hd]
              rfl
            refine .pipe .run (.run t.cur) (answer (f == d)) rfl ?_ ?_
            · rw [htruth]
              exact step_of_asks hans
            · rintro p hp
              cases hp
              exact ⟨rfl, fun _ => ⟨f, d, by rw [hask, hruns], htruth⟩⟩
    · rename_i hans
      obtain ⟨s, hstep, rfl⟩ := Option.map_eq_some_iff.1 hs
      have hstart := setAsk_same (h.start t.cur hans)
      have hr := Refines.pipe (t := t) .run (.run t.cur) s rfl hstep (fun p hp => by
        cases hp
        exact ⟨rfl, fun hc => absurd hans hc⟩)
      rw [hstart] at hr
      exact hr

theorem askInv_step {t t' : PipeRun} {a : RunAct} (h : t.AskInv) (hw : t.NoWrap a) (hs : t.step a = some t') :
    t'.AskInv := by
  cases refines h hs with
  | pipe _ b s hb hstep _ =>
    have hother : ∀ p, p ≠ t.cur → (t.setAsk .start).ask p = t.ask p := fun p hp => Function.update_of_ne hp _ _
    have hself : (t.setAsk .start).ask t.cur = .start := Function.update_self ..
    refine ⟨fun p hp => ?_, fun p runs f hask _ hcur => ?_, fun p runs f d hask _ hcur => ?_⟩
    · by_cases hpc : p = t.cur
      · subst hpc
        exact hself
      · show (t.setAsk .start).ask p = .start
        rw [hother p hpc]
        exact h.start p ((asks_other hstep (fun hc => hpc (hc.trans hb))).1 hp)
    · cases hcur
      cases hself.symm.trans hask
    · cases hcur
      cases hself.symm.trans hask
  | load x hasks hx =>
    have hself : (t.setAsk x).ask t.cur = x := Function.update_self ..
    refine ⟨fun p hp => ?_, fun p runs f hask _ hcur => ?_, fun p runs f d hask hruns hcur => ?_⟩
    · have hpc : p ≠ t.cur := fun hc => hasks (hc ▸ hp)
      show Function.update t.ask t.cur x p = .start
      rw [Function.update_of_ne hpc]
      exact h.start p hp
    · cases hcur
      obtain rfl : x = .pipeRef runs f := hself.symm.trans hask
      unfold pipeIsClosed at hx
      split at hx
      · cases hx
      · cases hx
        rfl
      · cases hx
      · split at hx <;> cases hx
    · cases hcur
      obtain rfl : x = .again runs f d := hself.symm.trans hask
      unfold pipeIsClosed at hx
      split at hx
      · cases hx
      · cases hx
      · rename_i runs' f' hask'
        cases hx
        exact ⟨h.fdRef t.cur _ _ hask' hruns rfl, rfl⟩
      · split at hx <;> cases hx
  | switch p =>
    refine ⟨h.start, fun q runs f hask hruns hcur => ?_, fun q runs f d hask hruns hcur => ?_⟩
    · obtain rfl : p = q := hcur
      have hruns' : t.envRuns p + 1 = runs := by simpa using hruns
      exact absurd hruns' (hw.1 runs f hask)
    · obtain rfl : p = q := hcur
      have hruns' : t.envRuns p + 1 = runs := by simpa using hruns
      exact absurd hruns' (hw.2 runs f d hask)

/-! ## Runs -/

/-- The reader's answer that the pipe is closed ends a `read` that has nothing, after a test that loaded `w`. -/
def Ends (t : PipeRun) (w : Word) : RunAct → Prop
  | .run => ∃ n f, t.cur = .reader ∧ t.st.rd = .check n [] w ∧ t.ask .reader = .again (t.envRuns .reader) f f
  | _ => False

/-- **A `read` that ends tested positions that are current**, and no process is run `2 ^ 32` times while it asks. -/
def EofSafe (t : PipeRun) (a : RunAct) : Prop := (∀ w, t.Ends w a → t.st.Current w) ∧ t.NoWrap a

structure EofRunInv (t : PipeRun) : Prop where
  pipe : t.st.PipeInv
  ask : t.AskInv
  eof : t.st.EofInv

theorem eofRun_step (t : PipeRun) (a : RunAct) (t' : PipeRun) (h : t.EofRunInv) (hsafe : t.EofSafe a)
    (hs : t.step a = some t') : t'.EofRunInv := by
  have hask := askInv_step h.ask hsafe.2 hs
  cases refines h.ask hs with
  | pipe _ b s hb hstep hrun =>
    refine ⟨h.pipe.step hstep, hask, PipeSt.eofInv_step h.pipe h.eof hstep ?_⟩
    rintro n w rfl hend
    obtain ⟨rfl, hans⟩ := hrun .reader rfl
    have hasks : t.st.asks .reader ≠ none := by
      simp only [PipeSt.asks, hend.1]
      simp
    obtain ⟨f, d, hat, htruth⟩ := hans hasks
    have hfd : f = d := by
      have hc : t.st.maps.pipeIsClosed .reader .rd = true := hend.2
      rw [show Who.reader.end = End.rd from rfl, hc] at htruth
      simpa using htruth
    subst hfd
    exact hsafe.1 w ⟨n, f, hb.symm, hend.1, hat⟩
  | load x _ _ => exact ⟨h.pipe, hask, h.eof⟩
  | switch p => exact ⟨h.pipe, hask, h.eof⟩

theorem eofRun_fresh (t : PipeRun) (h : t.Fresh) : t.EofRunInv := by
  have hno : ∀ p, t.ask p = .start := h.2
  refine ⟨PipeSt.PipeInv.fresh h.1, ⟨fun p _ => hno p, fun p _ _ hask => ?_, fun p _ _ _ hask => ?_⟩, fun he => ?_⟩
  · rw [hno p] at hask; cases hask
  · rw [hno p] at hask; cases hask
  · rw [h.1.2.2.2.2.2.2.2.2] at he; cases he

/-- **The end of the file is not early** in any state of any run that meets `EofSafe`; and from every such state, the
answer that ends a `read` with nothing is right exactly when the positions that were tested are current. -/
theorem eof_not_early (t : PipeRun) (h : Run Fresh step EofSafe t) :
    t.st.EofRight ∧ ∀ a w t', t.Ends w a → t.step a = some t' → (t'.st.EofRight ↔ t.st.Current w) := by
  have hinv := Run.invariant EofRunInv eofRun_fresh eofRun_step t h
  refine ⟨fun he => (hinv.eof he).1, fun a w t' hends hs => ?_⟩
  cases a with
  | run =>
    obtain ⟨n, f, hcur, hpc, hask⟩ := hends
    obtain ⟨hf, hd⟩ := hinv.ask.pipeRef .reader _ f f hask rfl hcur
    have hending : t.st.Ending n w := by
      refine ⟨hpc, ?_⟩
      unfold PipeMaps.pipeIsClosed
      rw [show t.st.maps.fdRef .reader .rd = f from hf.symm, show t.st.maps.pipeRef .reader .rd = f from hd.symm]
      exact beq_self_eq_true f
    have ht : t'.st = t.st.readReturn n [] := by
      simp only [step, hcur, PipeSt.asks, hpc, hask, pipeIsClosed, ne_eq, not_true_eq_false, if_false, beq_self_eq_true,
        Option.some.injEq] at hs
      rw [← hs]
      rfl
    have hn : n ≠ 0 := by
      obtain ⟨r, hdata⟩ := hinv.pipe.data
      have hat := hdata.reader
      unfold PipeSt.ReaderAt at hat
      rw [hpc] at hat
      rintro rfl
      exact absurd hat.1.2 (by simp)
    have heof : (t.st.readReturn n []).eof = true := by
      simp only [PipeSt.readReturn, List.isEmpty_nil, Bool.and_true, Bool.or_eq_true, decide_eq_true_eq]
      exact .inr hn
    have hret : (t.st.readReturn n []).returned = t.st.returned := List.append_nil _
    rw [← PipeSt.ending_iff hinv.pipe hending, ht]
    unfold PipeSt.EofRight
    rw [heof, hret]
    exact ⟨fun hr => hr rfl, fun hr _ => hr⟩
  | call c => exact hends.elim
  | switch p => exact hends.elim

/-- A check that implies `EofSafe`. -/
def eofSafeB (t : PipeRun) : RunAct → Bool
  | .run =>
    match t.st.rd with
    | .check _ _ w => decide (w = t.st.pipe.wpos ∧ t.st.put.length < 2 ^ 32)
    | _ => true
  | .switch p => decide (t.ask p = .start)
  | .call _ => true

theorem eofSafe_of_eofSafeB (t : PipeRun) (a : RunAct) (h : t.eofSafeB a = true) : t.EofSafe a := by
  cases a with
  | run =>
    refine ⟨fun w hends => ?_, trivial⟩
    obtain ⟨n, f, -, hpc, -⟩ := hends
    simp only [eofSafeB, hpc, decide_eq_true_eq] at h
    exact h
  | switch p =>
    have hask : t.ask p = .start := of_decide_eq_true h
    refine ⟨fun _ hends => hends.elim, fun runs f hc => ?_, fun runs f d hc => ?_⟩
    · cases hask.symm.trans hc
    · cases hask.symm.trans hc
  | call c => exact ⟨fun _ hends => hends.elim, trivial⟩

/-- A new pipe, with `p` running. -/
def new (p : Who) : PipeRun := { st := .new, cur := p, envRuns := fun _ => 0, ask := fun _ => .start }

theorem fresh_new (p : Who) (t : PipeRun) (h : some (new p) = some t) : t.Fresh := by
  cases h
  exact ⟨PipeSt.fresh_new _ rfl, fun _ => rfl⟩

/-- The writer writes a byte and closes its end; the reader gets the byte, and then the end of the file. -/
theorem eof_not_early_new : ∃ t : PipeRun, (t.st.eof = true ∧ t.st.returned = [7]) ∧ t.st.EofRight := by
  obtain ⟨t, hr, ht⟩ := @Run.exists_of_exec PipeRun RunAct Fresh step EofSafe eofSafeB eofSafe_of_eofSafeB
    (.call (.write [7]) :: List.replicate 6 .run ++ .call (.close .writer .wr) :: List.replicate 2 .run ++
      .switch .reader :: .call (.read 1) :: List.replicate 6 .run ++ .call (.read 1) :: List.replicate 6 .run)
    (some (new .writer)) (fresh_new .writer) (fun t => decide (t.st.eof = true ∧ t.st.returned = [7]))
    (by decide +kernel)
  exact ⟨t, of_decide_eq_true ht, (eof_not_early t hr).1⟩

/-- **The end is early** when the writer writes and closes between the reader's test and its question. -/
theorem eof_not_early_fails : ¬∀ t, Reach Fresh step t → t.st.EofRight := by
  obtain ⟨t, hr, ht⟩ := @Run.exists_of_exec PipeRun RunAct Fresh step (fun _ _ => True) (fun _ _ => true)
    (fun _ _ _ => trivial)
    (.call (.read 1) :: List.replicate 2 .run ++ .switch .writer :: .call (.write [7]) :: List.replicate 6 .run ++
      .call (.close .writer .wr) :: List.replicate 2 .run ++ .switch .reader :: List.replicate 4 .run)
    (some (new .reader)) (fresh_new .reader) (fun t => decide (t.st.eof = true ∧ t.st.returned ≠ t.st.put))
    (by decide +kernel)
  obtain ⟨heof, hne⟩ := of_decide_eq_true ht
  exact fun hall => hne (hall t hr heof)

end PipeRun

end Mos
