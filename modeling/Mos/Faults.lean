import Mos.Procs
/-!
# Faults — the way into the handler of a TLB modification, and back

`do_tlb_mod` saves the frame on the exception stack of the process and enters its handler; the handler ends with
`syscall_set_trapframe`, which puts it back below `KSTACKTOP`.  A handler may fault itself: then the frames lie on the
stack one below the other.

The memory of the process is its words, by their addresses.
-/
namespace Mos

/-- `struct Trapframe`, read back from its words. -/
def Trapframe.ofWords (ws : List Word) : Trapframe :=
  { regs := fun i => ws.getD i 0, cp0Status := ws.getD 32 0, hi := ws.getD 33 0, lo := ws.getD 34 0
    cp0Badvaddr := ws.getD 35 0, cp0Cause := ws.getD 36 0, cp0Epc := ws.getD 37 0 }

/-- **The same frame**, in every register and every other field. -/
structure Trapframe.Same (tf tf' : Trapframe) : Prop where
  regs : ∀ i < 32, tf.regs i = tf'.regs i
  cp0Status : tf.cp0Status = tf'.cp0Status
  hi : tf.hi = tf'.hi
  lo : tf.lo = tf'.lo
  cp0Badvaddr : tf.cp0Badvaddr = tf'.cp0Badvaddr
  cp0Cause : tf.cp0Cause = tf'.cp0Cause
  cp0Epc : tf.cp0Epc = tf'.cp0Epc

theorem Trapframe.length_words (tf : Trapframe) : tf.words.length = 38 := by simp [Trapframe.words]

theorem Trapframe.ofWords_words (tf : Trapframe) : (Trapframe.ofWords tf.words).Same tf := by
  have hregs : ∀ i < 32, tf.words.getD i 0 = tf.regs i := by
    intro i hi
    have hlen : i < ((List.range 32).map tf.regs).length := by simpa using hi
    unfold Trapframe.words
    rw [List.getD_eq_getElem?_getD, List.getElem?_append_left hlen, List.getElem?_map, List.getElem?_range hi]
    rfl
  exact ⟨hregs, rfl, rfl, rfl, rfl, rfl, rfl⟩

theorem Trapframe.Same.refl (tf : Trapframe) : tf.Same tf := ⟨fun _ _ => rfl, rfl, rfl, rfl, rfl, rfl, rfl⟩

namespace Faulting

/-! ## Memory -/

def storeWords (mem : Word → Word) (va : Word) : List Word → Word → Word
  | [] => mem
  | w :: ws => storeWords (Function.update mem va w) (va + 4) ws

def loadWords (mem : Word → Word) (va : Word) : Nat → List Word
  | 0 => []
  | n + 1 => mem va :: loadWords mem (va + 4) n

/-- The memory has a frame at `va`. -/
def Holds (mem : Word → Word) (va : Word) (tf : Trapframe) : Prop := loadWords mem va 38 = tf.words

/-! ## The process -/

/-- The process that runs: the frame below `KSTACKTOP`, its memory, and its `env_user_tlb_mod_entry`. -/
structure Proc where
  tf : Trapframe
  mem : Word → Word
  entry : Word

namespace Proc

/-- `do_tlb_mod`; `none` is its panic. -/
def doTlbMod (s : Proc) : Option Proc :=
  let tmpTf := s.tf
  let sp := if s.tf.regs 29 < ustacktop ∨ s.tf.regs 29 ≥ uxstacktop then uxstacktop else s.tf.regs 29
  let sp₁ := sp - BitVec.ofNat 32 sizeofTrapframe
  let mem := storeWords s.mem sp₁ tmpTf.words
  if s.entry ≠ 0 then
    some { s with mem := mem, tf := { (s.tf.setReg 4 sp₁).setReg 29 (sp₁ - 4) with cp0Epc := s.entry } }
  else none

/-- `sys_set_trapframe(0, va)`, with what it returns. -/
def sysSetTrapframe (s : Proc) (va : Word) : Proc × Word :=
  if isIllegalVaRange va (BitVec.ofNat 32 sizeofTrapframe) then (s, BitVec.ofInt 32 (-eInval))
  else
    let tf := Trapframe.ofWords (loadWords s.mem va 38)
    ({ s with tf := tf }, tf.regs 2)

/-- `do_syscall`, for `syscall_set_trapframe(0, va)`. -/
def doSyscall (s : Proc) (va : Word) : Proc :=
  let r := { s with tf := s.tf.nextInstr }.sysSetTrapframe va
  { r.1 with tf := r.1.tf.setReg 2 r.2 }

end Proc

/-! ## Runs -/

/-- The process, with the frames that are saved, the innermost first, and where. -/
structure State where
  proc : Proc
  saved : List (Word × Trapframe)

inductive Act where
  /-- Instructions leave the registers as in `tf`. -/
  | exec (tf : Trapframe)
  | store (va w : Word)
  /-- A TLB modification. -/
  | fault
  /-- `syscall_set_trapframe(0, va)` -/
  | restore (va : Word)

def step (s : State) : Act → Option State
  | .exec tf => some { s with proc := { s.proc with tf := tf } }
  | .store va w => some { s with proc := { s.proc with mem := Function.update s.proc.mem va w } }
  | .fault => s.proc.doTlbMod.map fun q => ⟨q, (q.tf.regs 4, s.proc.tf) :: s.saved⟩
  | .restore va => some ⟨s.proc.doSyscall va, s.saved.tail⟩

/-- **What a handler keeps to**: it writes to no saved frame, its stack is below them, and it restores its own. -/
def Keeps (s : State) : Act → Prop
  | .exec _ => True
  | .store va _ => ∀ x ∈ s.saved, va.toNat + 4 ≤ x.1.toNat ∨ x.1.toNat + sizeofTrapframe ≤ va.toNat
  | .fault => ∀ x ∈ s.saved, ustacktop ≤ s.proc.tf.regs 29 ∧ s.proc.tf.regs 29 ≤ x.1
  | .restore va => s.saved.head?.map Prod.fst = some va

/-- No fault is being handled. -/
def Start (s : State) : Prop := s.saved = []

/-- **The frames are on the exception stack**, one below the other. -/
structure Stacked (s : State) : Prop where
  below : s.saved.Pairwise fun x y => x.1.toNat + sizeofTrapframe ≤ y.1.toNat
  inside : ∀ x ∈ s.saved, ustacktop.toNat - sizeofTrapframe ≤ x.1.toNat ∧ x.1.toNat + sizeofTrapframe ≤ uxstacktop.toNat
  holds : ∀ x ∈ s.saved, Holds s.proc.mem x.1 x.2

/-! ## Words -/

section

variable {mem mem' : Word → Word} {va a : Word} {tf tf' : Trapframe}

theorem loadWords_congr :
    ∀ {n : Nat} {va : Word}, (∀ i < n, mem' (va + BitVec.ofNat 32 (4 * i)) = mem (va + BitVec.ofNat 32 (4 * i))) →
    loadWords mem' va n = loadWords mem va n
  | 0, _, _ => rfl
  | n + 1, va, h => by
    have hhead := h 0 (Nat.succ_pos n)
    rw [Nat.mul_zero, BitVec.add_zero] at hhead
    have htail : loadWords mem' (va + 4) n = loadWords mem (va + 4) n := by
      refine loadWords_congr fun i hi => ?_
      have hnext := h (i + 1) (Nat.succ_lt_succ hi)
      rw [Nat.mul_succ, Nat.add_comm, BitVec.ofNat_add, ← BitVec.add_assoc] at hnext
      exact hnext
    unfold loadWords
    rw [hhead, htail]

theorem storeWords_apart : ∀ {ws : List Word} {mem : Word → Word} {va : Word},
    (∀ i < ws.length, a ≠ va + BitVec.ofNat 32 (4 * i)) → storeWords mem va ws a = mem a
  | [], _, _, _ => rfl
  | w :: ws, mem, va, h => by
    have hhead := h 0 (Nat.succ_pos _)
    rw [Nat.mul_zero, BitVec.add_zero] at hhead
    unfold storeWords
    rw [storeWords_apart, Function.update_of_ne hhead]
    intro i hi
    have hnext := h (i + 1) (Nat.succ_lt_succ hi)
    rw [Nat.mul_succ, Nat.add_comm, BitVec.ofNat_add, ← BitVec.add_assoc] at hnext
    exact hnext

/-- **What is stored is read back.** -/
theorem loadWords_storeWords : ∀ {ws : List Word} {mem : Word → Word} {va : Word}, 4 * ws.length ≤ 2 ^ 32 →
    loadWords (storeWords mem va ws) va ws.length = ws
  | [], _, _, _ => rfl
  | w :: ws, mem, va, h => by
    rw [List.length_cons] at h
    have hhead : storeWords (Function.update mem va w) (va + 4) ws va = w := by
      rw [storeWords_apart, Function.update_self]
      intro i hi heq
      have hnat := congrArg BitVec.toNat heq
      have hfour : (4 : Word).toNat = 4 := rfl
      rw [BitVec.toNat_add, BitVec.toNat_add, BitVec.toNat_ofNat, hfour] at hnat
      have := va.isLt
      omega
    show storeWords (Function.update mem va w) (va + 4) ws va ::
      loadWords (storeWords (Function.update mem va w) (va + 4) ws) (va + 4) ws.length = w :: ws
    rw [hhead, loadWords_storeWords (by omega)]

theorem toNat_word {i : Nat} (ha : a.toNat + sizeofTrapframe ≤ uxstacktop.toNat) (hi : i < 38) :
    (a + BitVec.ofNat 32 (4 * i)).toNat = a.toNat + 4 * i := by
  have htop : uxstacktop.toNat = 0x7f400000 := by decide
  have hsize : sizeofTrapframe = 152 := rfl
  rw [BitVec.toNat_add, BitVec.toNat_ofNat]
  omega

theorem Holds.congr (h : Holds mem a tf)
    (hmem : ∀ i < 38, mem' (a + BitVec.ofNat 32 (4 * i)) = mem (a + BitVec.ofNat 32 (4 * i))) :
    Holds mem' a tf :=
  (loadWords_congr hmem).trans h

theorem Holds.update {w : Word} (h : Holds mem a tf) (ha : a.toNat + sizeofTrapframe ≤ uxstacktop.toNat)
    (hva : va.toNat + 4 ≤ a.toNat ∨ a.toNat + sizeofTrapframe ≤ va.toNat) : Holds (Function.update mem va w) a tf := by
  refine h.congr fun i hi => Function.update_of_ne (fun heq => ?_) _ _
  have hword := toNat_word ha hi
  have hsize : sizeofTrapframe = 152 := rfl
  rw [heq] at hword
  omega

theorem Holds.storeWords (h : Holds mem a tf) (ha : a.toNat + sizeofTrapframe ≤ uxstacktop.toNat)
    (hva : va.toNat + sizeofTrapframe ≤ a.toNat) : Holds (storeWords mem va tf'.words) a tf := by
  refine h.congr fun i hi => storeWords_apart fun j hj heq => ?_
  have hsize : sizeofTrapframe = 152 := rfl
  rw [Trapframe.length_words] at hj
  have hword := toNat_word ha hi
  rw [heq, toNat_word (by omega) hj] at hword
  omega

theorem holds_storeWords (mem : Word → Word) (va : Word) (tf : Trapframe) :
    Holds (Faulting.storeWords mem va tf.words) va tf := by
  have h : loadWords (Faulting.storeWords mem va tf.words) va tf.words.length = tf.words :=
    loadWords_storeWords (by rw [Trapframe.length_words]; decide)
  rw [Trapframe.length_words] at h
  exact h

end

/-! ## Into the handler and back -/

section

variable {s s' : State} {q : Proc} {va : Word} {tf : Trapframe}

/-- **What `do_tlb_mod` does**: the handler is entered with the address of the saved frame in `$a0`. -/
theorem doTlbMod_cases {p : Proc} (h : p.doTlbMod = some q) :
    ∃ a, ((p.tf.regs 29 < ustacktop ∨ p.tf.regs 29 ≥ uxstacktop) ∧ a = uxstacktop - BitVec.ofNat 32 sizeofTrapframe ∨
        ¬(p.tf.regs 29 < ustacktop ∨ p.tf.regs 29 ≥ uxstacktop) ∧ a = p.tf.regs 29 - BitVec.ofNat 32 sizeofTrapframe) ∧
      q.tf.regs 4 = a ∧ q.tf.regs 29 = a - 4 ∧ q.tf.cp0Epc = p.entry ∧ q.mem = storeWords p.mem a p.tf.words := by
  unfold Proc.doTlbMod at h
  dsimp only at h
  split at h
  · cases h
    split
    · rename_i hsp
      exact ⟨_, .inl ⟨hsp, rfl⟩, rfl, rfl, rfl, rfl⟩
    · rename_i hsp
      exact ⟨_, .inr ⟨hsp, rfl⟩, rfl, rfl, rfl, rfl⟩
  · cases h

/-- **`syscall_set_trapframe` puts back the frame that is there**: neither `EPC += 4` nor the value that is returned is
seen in it. -/
theorem doSyscall_restores {p : Proc} (h : Holds p.mem va tf)
    (hva : isIllegalVaRange va (BitVec.ofNat 32 sizeofTrapframe) = false) :
    (p.doSyscall va).tf.Same tf ∧ (p.doSyscall va).mem = p.mem := by
  have hload : loadWords p.mem va 38 = tf.words := h
  have hsame := Trapframe.ofWords_words tf
  unfold Proc.doSyscall Proc.sysSetTrapframe
  rw [hva]
  simp only [Bool.false_eq_true, if_false]
  rw [hload]
  refine ⟨⟨fun i hi => ?_, hsame.cp0Status, hsame.hi, hsame.lo, hsame.cp0Badvaddr, hsame.cp0Cause, hsame.cp0Epc⟩,
    trivial⟩
  -- `$v0` is overwritten by itself
  by_cases h2 : i = 2
  · subst h2
    show Function.update (Trapframe.ofWords tf.words).regs 2 _ 2 = tf.regs 2
    rw [Function.update_self]
    exact hsame.regs 2 hi
  · show Function.update (Trapframe.ofWords tf.words).regs 2 _ i = tf.regs i
    rw [Function.update_of_ne h2]
    exact hsame.regs i hi

theorem legal_of_inside (hlow : ustacktop.toNat - sizeofTrapframe ≤ va.toNat)
    (hhigh : va.toNat + sizeofTrapframe ≤ uxstacktop.toNat) :
    isIllegalVaRange va (BitVec.ofNat 32 sizeofTrapframe) = false := by
  have htop : uxstacktop.toNat = 0x7f400000 := by decide
  have hust : ustacktop.toNat = 0x7f3fe000 := by decide
  have hutop : utop.toNat = 0x7f400000 := rfl
  have htemp : utemp.toNat = 0x3fe000 := by decide
  have hsize : sizeofTrapframe = 152 := rfl
  have hlen : (BitVec.ofNat 32 sizeofTrapframe).toNat = 152 := rfl
  have hsum : (va + BitVec.ofNat 32 sizeofTrapframe).toNat = va.toNat + 152 := by
    rw [BitVec.toNat_add, hlen]
    omega
  unfold isIllegalVaRange
  rw [if_neg (by decide)]
  simp only [Bool.or_eq_false_iff, decide_eq_false_iff_not, BitVec.lt_def, gt_iff_lt, hsum, hutop, htemp]
  omega

/-- **One step.** -/
theorem Stacked.step (h : Stacked s) (a : Act) (hk : Keeps s a) (hs : Faulting.step s a = some s') : Stacked s' := by
  have htop : uxstacktop.toNat = 0x7f400000 := by decide
  have hust : ustacktop.toNat = 0x7f3fe000 := by decide
  have hsize : sizeofTrapframe = 152 := rfl
  have hlen : (BitVec.ofNat 32 sizeofTrapframe).toNat = 152 := rfl
  cases a with
  | exec tf =>
    cases hs
    exact ⟨h.below, h.inside, h.holds⟩
  | store va w =>
    cases hs
    exact ⟨h.below, h.inside, fun x hx => (h.holds x hx).update (h.inside x hx).2 (hk x hx)⟩
  | fault =>
    obtain ⟨q, hq, rfl⟩ := Option.map_eq_some_iff.1 hs
    obtain ⟨a, ha, h4, -, -, hmem⟩ := doTlbMod_cases hq
    -- the new frame is on the exception stack, below the others
    have hinside : ustacktop.toNat - sizeofTrapframe ≤ a.toNat ∧ a.toNat + sizeofTrapframe ≤ uxstacktop.toNat := by
      rcases ha with ⟨-, rfl⟩ | ⟨hsp, rfl⟩
      · decide
      · rw [not_or, BitVec.lt_def, ge_iff_le, BitVec.le_def] at hsp
        rw [BitVec.toNat_sub, hlen]
        omega
    have hbelow : ∀ x ∈ s.saved, a.toNat + sizeofTrapframe ≤ x.1.toNat := by
      intro x hx
      obtain ⟨hlow, hle⟩ := hk x hx
      have hx' := (h.inside x hx).2
      rw [BitVec.le_def] at hlow hle
      rcases ha with ⟨hsp, rfl⟩ | ⟨-, rfl⟩
      · rw [BitVec.lt_def, ge_iff_le, BitVec.le_def] at hsp
        omega
      · rw [BitVec.toNat_sub, hlen]
        omega
    have hnew : Holds q.mem a s.proc.tf := by
      rw [hmem]
      exact holds_storeWords s.proc.mem a s.proc.tf
    have hold : ∀ x ∈ s.saved, Holds q.mem x.1 x.2 := by
      intro x hx
      rw [hmem]
      exact (h.holds x hx).storeWords (h.inside x hx).2 (hbelow x hx)
    rw [h4]
    refine ⟨List.pairwise_cons.2 ⟨hbelow, h.below⟩, ?_, ?_⟩
    · intro x hx
      rcases List.mem_cons.1 hx with rfl | hx
      · exact hinside
      · exact h.inside x hx
    · intro x hx
      rcases List.mem_cons.1 hx with rfl | hx
      · exact hnew
      · exact hold x hx
  | restore va =>
    obtain rfl := Option.some.inj hs
    obtain ⟨x, hx, rfl⟩ := Option.map_eq_some_iff.1 hk
    have hmem : x ∈ s.saved := List.mem_of_mem_head? hx
    have hlegal := legal_of_inside (h.inside x hmem).1 (h.inside x hmem).2
    obtain ⟨-, hkeep⟩ := doSyscall_restores (h.holds x hmem) hlegal
    have htail : ∀ y ∈ s.saved.tail, y ∈ s.saved := fun y hy => List.mem_of_mem_tail hy
    refine ⟨h.below.tail, fun y hy => h.inside y (htail y hy), fun y hy => ?_⟩
    show Holds (s.proc.doSyscall x.1).mem y.1 y.2
    rw [hkeep]
    exact h.holds y (htail y hy)

/-- **Every saved frame is as it was saved**, in every state of a run. -/
theorem stacked_of_run (h : Run Start step Keeps s) : Stacked s := by
  refine Run.invariant Stacked (fun s hs => ?_) (fun _ a _ hi hk hs => hi.step a hk hs) s h
  have hnil : s.saved = [] := hs
  have hno : ∀ x, x ∉ s.saved := fun x => by
    rw [hnil]
    exact List.not_mem_nil
  exact ⟨hnil ▸ List.Pairwise.nil, fun x hx => absurd hx (hno x), fun x hx => absurd hx (hno x)⟩

/-- **The round trip of a fault**: when the handler gives the address it was entered with to `syscall_set_trapframe`,
the frame is the one of the fault, and the frames of the faults around it are as they were saved. -/
theorem fault_round_trip {s₁ s₂ s₃ : State} (h : Run Start step Keeps s) (hk : Keeps s .fault)
    (hf : step s .fault = some s₁) (hrun : Run (· = s₁) step Keeps s₂) (hin : s₂.saved = s₁.saved)
    (hr : step s₂ (.restore (s₁.proc.tf.regs 4)) = some s₃) :
    s₃.proc.tf.Same s.proc.tf ∧ s₃.saved = s.saved ∧ ∀ x ∈ s.saved, Holds s₃.proc.mem x.1 x.2 := by
  have hrun₁ : Run Start step Keeps s₁ := .next s .fault s₁ h hk hf
  have hstacked := stacked_of_run (hrun₁.trans hrun)
  obtain ⟨q, hq, rfl⟩ := Option.map_eq_some_iff.1 hf
  obtain rfl := Option.some.inj hr
  have hmem : (q.tf.regs 4, s.proc.tf) ∈ s₂.saved := hin ▸ List.mem_cons_self
  have hinside := hstacked.inside _ hmem
  obtain ⟨hsame, hkeep⟩ := doSyscall_restores (hstacked.holds _ hmem) (legal_of_inside hinside.1 hinside.2)
  refine ⟨hsame, congrArg List.tail hin, fun x hx => ?_⟩
  show Holds (s₂.proc.doSyscall (q.tf.regs 4)).mem x.1 x.2
  rw [hkeep]
  exact hstacked.holds x (hin ▸ List.mem_cons_of_mem _ hx)

/-- A process with a handler, that faults on its stack. -/
def faulting : State := ⟨⟨stackFrame, fun _ => 0, utext⟩, []⟩

/-- Where its handler starts. -/
def entered (s : State) : State := (step s .fault).getD s

theorem step_fault (h : s.proc.entry ≠ 0) : step s .fault = some (entered s) := by
  have hsome : ∃ q, s.proc.doTlbMod = some q := by
    unfold Proc.doTlbMod
    exact ⟨_, if_pos h⟩
  obtain ⟨q, hq⟩ := hsome
  unfold entered step
  rw [hq]
  rfl

/-- Its handler faults as well, and both are handled. -/
theorem fault_round_trip_nested : ∃ s₂ s₃ : State, Run (· = entered faulting) step Keeps s₂ ∧
    step s₂ (.restore ((entered faulting).proc.tf.regs 4)) = some s₃ ∧
    s₃.proc.tf.Same faulting.proc.tf ∧ s₃.saved = [] ∧ ∀ x ∈ faulting.saved, Holds s₃.proc.mem x.1 x.2 := by
  have h₁ : step faulting .fault = some (entered faulting) := step_fault (by decide)
  have h₂ : step (entered faulting) .fault = some (entered (entered faulting)) := step_fault (by decide)
  -- the second frame is below the first
  have hk : Keeps (entered faulting) .fault := by
    intro x hx
    obtain rfl := List.mem_singleton.1 hx
    decide
  have hown : Keeps (entered (entered faulting)) (.restore ((entered (entered faulting)).proc.tf.regs 4)) := by
    show (entered (entered faulting)).saved.head?.map Prod.fst = some _
    rfl
  let s₂ : State := ⟨(entered (entered faulting)).proc.doSyscall ((entered (entered faulting)).proc.tf.regs 4),
    (entered faulting).saved⟩
  have hrun : Run (· = entered faulting) step Keeps s₂ :=
    .next (entered (entered faulting)) (.restore ((entered (entered faulting)).proc.tf.regs 4)) s₂
      (.next _ .fault _ (.start _ rfl) hk h₂) hown rfl
  obtain ⟨hsame, hsaved, hholds⟩ :=
    fault_round_trip (.start faulting rfl) (fun x hx => absurd hx List.not_mem_nil) h₁ hrun rfl rfl
  exact ⟨s₂, _, hrun, rfl, hsame, hsaved, hholds⟩

end

/-! ## The kernel -/

/-- What the kernel does to the frame in `do_tlb_mod` is what is done here. -/
theorem doTlbMod_kernel {k k' : Kernel} {cur : EnvIx} (h : Mos.doTlbMod k cur = some k') (mem : Word → Word) :
    ∃ q : Proc, (⟨k.ktf, mem, (k.envs cur).envUserTlbModEntry⟩ : Proc).doTlbMod = some q ∧ k'.ktf = q.tf := by
  unfold Mos.doTlbMod at h
  obtain ⟨k₁, hstore, h⟩ := Option.bind_eq_some_iff.1 h
  obtain ⟨pm, rfl⟩ := storeWords_eq hstore
  dsimp only at h
  split at h
  · cases h
  · rename_i hentry
    cases h
    unfold Proc.doTlbMod
    exact ⟨_, if_pos hentry, rfl⟩

/-- And so is what it does for `syscall_set_trapframe(0, va)`, with the frame that the memory has at `va`. -/
theorem setTrapframe_kernel {k k' : Kernel} {cur : EnvIx} {va v0 : Word} {tf : Trapframe} {mem : Word → Word}
    (h : Mos.doSyscall k cur (.setTrapframe 0 va tf) v0 = some k') (hmem : Holds mem va tf) (entry : Word) :
    k'.ktf.Same ((⟨k.ktf, mem, entry⟩ : Proc).doSyscall va).tf := by
  obtain ⟨k₁, r, hargs, hcall, rfl⟩ := doSyscall_inv h
  obtain ⟨pm, rfl⟩ := readArgs_eq hargs
  have hload : loadWords mem va 38 = tf.words := hmem
  simp only [syscallTable, Mos.sysSetTrapframe] at hcall
  unfold Proc.doSyscall Proc.sysSetTrapframe
  by_cases hva : isIllegalVaRange va (BitVec.ofNat 32 sizeofTrapframe) = true
  · rw [if_pos hva] at hcall
    cases hcall
    rw [if_pos hva]
    exact .refl _
  · rw [if_neg hva] at hcall
    obtain ⟨k₂, -, hcall⟩ := Option.bind_eq_some_iff.1 hcall
    rw [if_pos rfl] at hcall
    cases hcall
    rw [if_neg hva]
    dsimp only
    rw [hload]
    have hsame := Trapframe.ofWords_words tf
    refine ⟨fun i hi => ?_, hsame.cp0Status.symm, hsame.hi.symm, hsame.lo.symm, hsame.cp0Badvaddr.symm,
      hsame.cp0Cause.symm,
      hsame.cp0Epc.symm⟩
    show Function.update tf.regs 2 (BitVec.ofInt 32 (tf.regs 2).toInt) i =
      Function.update (Trapframe.ofWords tf.words).regs 2 ((Trapframe.ofWords tf.words).regs 2) i
    rw [BitVec.ofInt_toInt, Function.update_eq_self, Function.update_eq_self]
    exact (hsame.regs i hi).symm

end Faulting
end Mos
