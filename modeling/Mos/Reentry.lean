import Mos.Trapping
/-!
# Reentry — exceptions in the kernel, and those that switch

The entry clears `EXL`, so that a C function can meet an exception of its own, whose frame is below its own stack.  To
any depth what is interrupted goes on as it was (`goes_keeps`), and the machine does make these runs (`goes_evolves`).
A context that was put to a frame comes back from any place the frame was copied to (`switch_resumes`).
-/
namespace Mos.Genex

open Mips

/-- Either an exception, from where it interrupts to where it is done with, or a part of a C function; the words of
`K` are left alone. -/
inductive Kind where
  | served (delay : Bool) (K : Word → Prop)
  | body (K : Word → Prop)

/-- Where an exception goes. -/
def Layout.Vector (l : Layout) (a : Word) : Prop := a = l.excGenEntry ∨ a = l.tlbMissEntry

/-- The words of the frame of an exception. -/
def InFrame (s : Cpu) (b : Word) : Prop := (frameBase s).toNat ≤ b.toNat ∧ b.toNat < (frameBase s).toNat + 152

/-- **The runs of the kernel**, with exceptions in the C functions.  A C function leaves the frame that it is called
with as it is, and what its exception leaves alone. -/
inductive Goes (l : Layout) (code : Code) : Kind → Cpu → Cpu → Prop
  | stop (K : Word → Prop) (s : Cpu) : Goes l code (.body K) s s
  | step {K : Word → Prop} {s t u : Cpu} (hs : Mips.step code s = some t) (hm : ∀ b, K b → t.mem b = s.mem b)
      (hgo : Goes l code (.body K) t u) : Goes l code (.body K) s u
  | trap {K : Word → Prop} {s t u : Cpu} {delay : Bool} (hserve : Goes l code (.served delay K) s t)
      (hgo : Goes l code (.body K) t u) :
      Goes l code (.body K) s u
  | serve {K : Word → Prop} {s w : Cpu} {exc : Word} {delay : Bool} {bad : Option Word} {vector f : Word}
      (hexl : s.exl = false) (herl : s.erl = false) (hv : l.Vector vector) (ht : Table l s.mem) (hr : Room l s)
      (hK : ∀ b, K b → ¬InFrame s b)
      (hstub : Loaded code (l.handler (excCode ((s.raise exc delay bad vector).cop .cause))) (l.buildHandler f))
      (hgo : Goes l code (.body fun b => K b ∨ InFrame s b)
        ((called (l.handler (excCode ((s.raise exc delay bad vector).cop .cause)))
          (entered l (s.raise exc delay bad vector))).goto f)
        (w.goto (l.handler (excCode ((s.raise exc delay bad vector).cop .cause)) + 16)))
      (hq : w.quiet = true) (hsp : w.reg sp = frameBase s + -8) :
      Goes l code (.served delay K) s (resumed (w.setReg sp (w.reg sp + 8)))

/-- **What was interrupted goes on as it was.**  A branch is taken again if its delay slot was interrupted. -/
structure Same (delay : Bool) (s t : Cpu) : Prop where
  reg : ∀ r : Reg, r ≠ k0 → r ≠ k1 → t.reg r = s.reg r
  hi : t.hi = s.hi
  lo : t.lo = s.lo
  status : t.cop .status = s.cop .status
  pc : t.pc = if delay then s.pc - 4 else s.pc
  npc : t.npc = t.pc + 4

/-- What was interrupted goes on, and the words of `K` are as they were. -/
def Keeps : Kind → Cpu → Cpu → Prop
  | .served delay K, s, t => Same delay s t ∧ ∀ b, K b → t.mem b = s.mem b
  | .body K, s, t => ∀ b, K b → t.mem b = s.mem b

variable {l : Layout} {code : Code} {s t u v w : Cpu} {a b : Word} {tf : Trapframe} {k : Kind} {K : Word → Prop}
    {exc vector : Word} {delay : Bool}
  {bad : Option Word}

theorem stackTop_raise : stackTop (s.raise exc delay bad vector) = stackTop s := by
  unfold stackTop
  rw [Cpu.um_raise, Cpu.reg_raise]

theorem frameBase_raise : frameBase (s.raise exc delay bad vector) = frameBase s := by
  unfold frameBase
  rw [stackTop_raise]

theorem same_of_resumes {x : Cpu} (hexl : s.exl = false) (h : Resumes (context (s.raise exc delay bad vector)) w x) :
    Same delay s x := by
  refine ⟨fun r hk hk' => ?_, ?_, ?_, ?_, ?_, ?_⟩
  · by_cases h0 : r = 0
    · subst h0
      rfl
    · have hne : r.val ≠ 26 := fun heq => hk (Fin.ext heq)
      rw [h.reg r h0 hk hk']
      unfold context
      simp [hne]
  · rw [h.hi]
    exact Cpu.hi_raise s exc delay bad vector
  · rw [h.lo]
    exact Cpu.lo_raise s exc delay bad vector
  · rw [h.status]
    unfold context
    rw [Cpu.status_raise]
    exact Cpu.status_back s hexl
  · rw [h.pc]
    exact Cpu.epc_raise s exc delay bad vector
  · rw [h.npc, h.pc]

theorem serve_at (hr : Room l s) (hgo : ∀ c, InFrame s c → w.mem c = (entered l (s.raise exc delay bad vector)).mem c) :
    At w.mem (frameBase s) (context (s.raise exc delay bad vector)) := by
  have h := entered_at l (s.raise exc delay bad vector)
  rw [frameBase_raise] at h
  exact at_congr h hr.2 fun c hle hlt => hgo c ⟨hle, hlt⟩

theorem entered_keeps (hr : Room l s) {c : Word} (hc : ¬InFrame s c) :
    (entered l (s.raise exc delay bad vector)).mem c = s.mem c := by
  rw [← Cpu.mem_raise s exc delay bad vector]
  have hbase : frameBase (s.raise exc delay bad vector) = frameBase s := frameBase_raise
  refine entered_other (hbase ▸ hr.2) ?_
  rw [hbase]
  unfold InFrame at hc
  omega

theorem context_erl (herl : s.erl = false) : (context (s.raise exc delay bad vector)).cp0Status.getLsbD 2 = false :=
  (Cpu.erl_raise s exc delay bad vector).trans herl

theorem context_exl (s : Cpu) (exc : Word) (delay : Bool) (bad : Option Word) (vector : Word) :
    (context (s.raise exc delay bad vector)).cp0Status.getLsbD 1 = true := Cpu.exl_raise s exc delay bad vector

theorem popped_sp (hsp : w.reg sp = frameBase s + -8) : (w.setReg sp (w.reg sp + 8)).reg sp = frameBase s := by
  rw [hsp, BitVec.add_assoc]
  simp

/-- **Exceptions in C functions, to any depth, are not seen**: what is interrupted goes on as it was, and so are the
words left alone. -/
theorem goes_keeps (h : Goes l code k s t) : Keeps k s t := by
  induction h with
  | stop => exact fun _ _ => rfl
  | step _ hm _ ih => exact fun b hb => (ih b hb).trans (hm b hb)
  | trap _ _ ih ih' => exact fun b hb => (ih' b hb).trans (ih.2 b hb)
  | @serve K s w exc delay bad vector f hexl herl _ _ hr hK _ _ _ hsp ih =>
    have hkeep : ∀ c, K c ∨ InFrame s c → w.mem c = (entered l (s.raise exc delay bad vector)).mem c := ih
    have hat : At (w.setReg sp (w.reg sp + 8)).mem ((w.setReg sp (w.reg sp + 8)).reg sp)
        (context (s.raise exc delay bad vector)) := by
      rw [popped_sp hsp]
      exact serve_at hr fun c hc => hkeep c (.inr hc)
    have hres := resumed_context hat (context_erl herl)
    refine ⟨same_of_resumes hexl hres, fun b hb => ?_⟩
    rw [hres.mem]
    exact (hkeep b (.inl hb)).trans (entered_keeps hr (hK b hb))

theorem vector_runs (hl : Linked l code) (hv : l.Vector vector) (hq : s.quiet = true) :
    Runs code (s.goto vector) (s.goto l.excGenEntry) := by
  rcases hv with rfl | rfl
  · exact .refl _
  · obtain ⟨h₀, h₁, -⟩ := hl.tlbMissEntry
    exact runs_j h₀ h₁ hq

theorem raise_runs (hl : Linked l code) (hv : l.Vector vector) (ht : Table l s.mem) (hr : Room l s) :
    Runs code (s.raise exc delay bad vector)
      ((entered l (s.raise exc delay bad vector)).goto
        (l.handler (excCode ((s.raise exc delay bad vector).cop .cause)))) := by
  have hq := Cpu.quiet_raise s exc delay bad vector
  have hvector : Runs code (s.raise exc delay bad vector) ((s.raise exc delay bad vector).goto l.excGenEntry) := by
    have h := vector_runs hl hv hq
    rwa [Cpu.goto_raise] at h
  have htable : Table l (s.raise exc delay bad vector).mem := by rwa [Cpu.mem_raise]
  have hroom : Room l (s.raise exc delay bad vector) := by
    unfold Room
    rwa [frameBase_raise]
  exact hvector.trans (excGenEntry_runs hl hq htable hroom)

/-- **The machine makes these runs.** -/
theorem goes_evolves (hl : Linked l code) (h : Goes l code k s t) : Evolves code l.Vector s t := by
  induction h with
  | stop => exact .refl
  | step hs _ _ ih => exact .head (Or.inl hs) ih
  | trap _ _ ih ih' => exact ih.trans ih'
  | @serve K s w exc delay bad vector f hexl herl hv ht hr hK hstub hgo hq hsp ih =>
    have hraise : Evolves code l.Vector s (s.raise exc delay bad vector) :=
      .single (Or.inr ⟨exc, delay, bad, vector, hv, hexl, herl, rfl⟩)
    have hentry : Runs code (s.raise exc delay bad vector) _ := raise_runs hl hv ht hr
    have hcall := buildHandler_calls hstub (entered_quiet l (s.raise exc delay bad vector))
    have hback := buildHandler_returns hstub hq
    have hkeep : ∀ c, K c ∨ InFrame s c → w.mem c = (entered l (s.raise exc delay bad vector)).mem c := goes_keeps hgo
    have hat : At (w.setReg sp (w.reg sp + 8)).mem ((w.setReg sp (w.reg sp + 8)).reg sp)
        (context (s.raise exc delay bad vector)) := by
      rw [popped_sp hsp]
      exact serve_at hr fun c hc => hkeep c (.inr hc)
    have hq₂ : (w.setReg sp (w.reg sp + 8)).quiet = true := hq
    have hleave := retFromException_runs hl hq₂ hat (context_exl s exc delay bad vector)
    exact (((hraise.trans (hentry.trans hcall).evolves).trans ih).trans (hback.trans hleave).evolves)

/-- **An exception that is served is not seen**, with exceptions in its C function to any depth. -/
theorem trap_resumes (hl : Linked l code) (h : Goes l code (.served delay K) s t) :
    Evolves code l.Vector s t ∧ Same delay s t ∧ ∀ b, K b → t.mem b = s.mem b :=
  ⟨goes_evolves hl h, goes_keeps h⟩

theorem goes_leaf {f : Word} (h₀ : code f = some (.jr ra)) (h₁ : code (f + 4) = some (.op .nop)) (hq : v.quiet = true) :
    Goes l code (.body K) (v.goto f) (v.goto (v.reg ra)) := by
  have hq₁ : (v.goto f).quiet = true := hq
  have hq₂ : ((v.goto f).branch true (v.reg ra)).quiet = true := hq
  have hjump : Mips.step code (v.goto f) = some ((v.goto f).branch true (v.reg ra)) := step_eq hq₁ h₀ rfl
  have hslot : Mips.step code ((v.goto f).branch true (v.reg ra)) = some (v.goto (v.reg ra)) := step_eq hq₂ h₁ rfl
  exact .step hjump (fun _ _ => rfl) (.step hslot (fun _ _ => rfl) (.stop K _))

theorem goes_trapped {f : Word} (h₀ : code f = some (.jr ra)) (h₁ : code (f + 4) = some (.op .nop))
    (hq : v.quiet = true) (hserve : Goes l code (.served false K) (v.goto f) t) :
    Goes l code (.body K) (v.goto f) (t.goto (v.reg ra)) ∧ t.quiet = true ∧ t.reg sp = v.reg sp := by
  obtain ⟨hsame, -⟩ := goes_keeps hserve
  have hqt : t.quiet = true := (Cpu.quiet_congr hsame.status).trans hq
  have hback : t = t.goto f := by
    have hpc : t.pc = f := hsame.pc
    have hnpc : t.npc = f + 4 := by rw [hsame.npc, hpc]
    rw [← hpc] at hnpc ⊢
    unfold Cpu.goto
    rw [← hnpc]
  have hra : t.reg ra = v.reg ra := hsame.reg ra (by decide) (by decide)
  have hleaf : Goes l code (.body K) (t.goto f) (t.goto (t.reg ra)) := goes_leaf h₀ h₁ hqt
  rw [← hback, hra] at hleaf
  exact ⟨.trap hserve hleaf, hqt, hsame.reg sp (by decide) (by decide)⟩

/-- The state in which the C function of an exception is called. -/
def serving (l : Layout) (s : Cpu) (exc : Word) (delay : Bool) (bad : Option Word) (vector : Word) : Cpu :=
  called (l.handler (excCode ((s.raise exc delay bad vector).cop .cause))) (entered l (s.raise exc delay bad vector))

theorem serving_sp : (serving l s exc delay bad vector).reg sp = frameBase s + -8 := by
  have hsp := entered_sp l (s.raise exc delay bad vector)
  rw [frameBase_raise] at hsp
  simp [serving, called, hsp]

theorem serving_ra :
    (serving l s exc delay bad vector).reg ra =
    l.handler (excCode ((s.raise exc delay bad vector).cop .cause)) + 16 := by
  simp [serving, called]

theorem serving_quiet : (serving l s exc delay bad vector).quiet = true :=
  entered_quiet l (s.raise exc delay bad vector)

theorem serve_leaf (exc : Word) (delay : Bool) (bad : Option Word) (vector f : Word) (hexl : s.exl = false)
    (herl : s.erl = false) (hv : l.Vector vector) (ht : Table l s.mem) (hr : Room l s) (hK : ∀ b, K b → ¬InFrame s b)
    (hstub : Loaded code (l.handler (excCode ((s.raise exc delay bad vector).cop .cause))) (l.buildHandler f))
    (h₀ : code f = some (.jr ra)) (h₁ : code (f + 4) = some (.op .nop)) : ∃ t, Goes l code (.served delay K) s t := by
  have hleaf : Goes l code (.body fun b => K b ∨ InFrame s b) ((serving l s exc delay bad vector).goto f) _ :=
    goes_leaf h₀ h₁ serving_quiet
  rw [serving_ra] at hleaf
  exact ⟨_, .serve hexl herl hv ht hr hK hstub hleaf serving_quiet serving_sp⟩

/-- **An exception whose C function meets another.** -/
theorem serve_nested (exc : Word) (delay : Bool) (bad : Option Word) (vector f : Word) (hexl : s.exl = false)
    (herl : s.erl = false) (hv : l.Vector vector) (ht : Table l s.mem) (hr : Room l s) (hK : ∀ b, K b → ¬InFrame s b)
    (hstub : Loaded code (l.handler (excCode ((s.raise exc delay bad vector).cop .cause))) (l.buildHandler f))
    (h₀ : code f = some (.jr ra)) (h₁ : code (f + 4) = some (.op .nop))
    (hserve : Goes l code (.served false fun b => K b ∨ InFrame s b) ((serving l s exc delay bad vector).goto f) t) :
    ∃ t, Goes l code (.served delay K) s t := by
  obtain ⟨hbody, hq, hsp⟩ := goes_trapped h₀ h₁ serving_quiet hserve
  rw [serving_ra] at hbody
  exact ⟨_, .serve hexl herl hv ht hr hK hstub hbody hq (hsp.trans serving_sp)⟩

/-! ## From one context to another -/

/-- `env_pop_tf`, to its jump. -/
def popped (w : Cpu) : Cpu := effects w Layout.envPopTfOps

theorem popped_reg (w : Cpu) (r : Reg) (ht : r ≠ t0) : (popped w).reg r = if r = sp then w.reg a0 else w.reg r := by
  by_cases h0 : r = 0
  · subst h0
    rfl
  · have hne : r ≠ 8 := ht
    simp [popped, Layout.envPopTfOps, Layout.resetKclock, effect, hne, h0]

theorem popped_cop (w : Cpu) (c : Cop) : (popped w).cop c =
    if c = .compare then timerInterval else if c = .count then 0 else if c = .entryHi then w.reg a1 else w.cop c := by
  have hli : (7 <<< 16 ||| 0xa120 : Word) = timerInterval := by decide
  rw [← hli]
  simp [popped, Layout.envPopTfOps, Layout.resetKclock, effect]

/-- **`env_pop_tf` goes on with a frame**, wherever it is. -/
theorem envPopTf_runs (hl : Linked l code) (hq : w.quiet = true) (h : At w.mem (w.reg a0) tf)
    (hexl : tf.cp0Status.getLsbD 1 = true) (herl : tf.cp0Status.getLsbD 2 = false) :
    Runs code (w.goto l.envPopTf) (resumed (popped w)) ∧ Resumes tf (popped w) (resumed (popped w)) := by
  have hload := hl.envPopTf
  unfold Layout.envPopTfCode at hload
  rw [loaded_append, List.length_map] at hload
  obtain ⟨hops, hj, hslot, -⟩ := hload
  have hplain : ∀ o ∈ Layout.envPopTfOps, o.plain = true := by decide
  have hat : At (popped w).mem ((popped w).reg sp) tf := by
    rw [popped_reg w sp (by decide), if_pos rfl]
    exact h
  have hq₁ : (popped w).quiet = true := (Cpu.quiet_congr (effects_status hplain w)).trans hq
  exact ⟨((runs_line hplain hops hq).trans (runs_j hj hslot hq₁)).trans (retFromException_runs hl hq₁ hat hexl),
    resumed_context hat herl⟩

/-- **What was put away comes back.**  An exception in user mode leaves its context below `KSTACKTOP`, and from any
place where this frame is, with all else as it may be, `env_pop_tf` goes on where it was, in the address space it is
given and with a whole time slice. -/
theorem switch_resumes (hl : Linked l code) (hexl : s.exl = false) (herl : s.erl = false) (hum : s.um = true)
    (hv : l.Vector vector) (ht : Table l s.mem) (hr : Room l s) : ∃ (u : Cpu) (tf : Trapframe),
      Runs code (s.raise exc delay bad vector)
        (u.goto (l.handler (excCode ((s.raise exc delay bad vector).cop .cause)))) ∧
      Faulting.Holds u.mem (kstacktop - tfSize) tf ∧
      ∀ w : Cpu, w.quiet = true → Faulting.Holds w.mem (w.reg a0) tf →
        ∃ x : Cpu, Runs code (w.goto l.envPopTf) x ∧ Same delay s x ∧
        x.cop .entryHi = w.reg a1 ∧ x.cop .count = 0 ∧ x.cop .compare = timerInterval ∧ x.mem = w.mem ∧
          x.tlb = w.tlb := by
  have hbase : frameBase (s.raise exc delay bad vector) = kstacktop - tfSize := by
    rw [frameBase_raise]
    unfold frameBase stackTop
    rw [hum, if_pos rfl]
  refine ⟨entered l (s.raise exc delay bad vector), context (s.raise exc delay bad vector),
    raise_runs hl hv ht hr, at_iff_holds.1 (hbase ▸ entered_at l _), fun w hw hat => ?_⟩
  obtain ⟨hruns, hres⟩ :=
    envPopTf_runs hl hw (at_iff_holds.2 hat) (context_exl s exc delay bad vector) (context_erl herl)
  refine ⟨_, hruns, same_of_resumes hexl hres, ?_, ?_, ?_, hres.mem, hres.tlb⟩
  · rw [hres.cop .entryHi (by decide) (by decide), popped_cop]
    rfl
  · rw [hres.cop .count (by decide) (by decide), popped_cop]
    rfl
  · rw [hres.cop .compare (by decide) (by decide), popped_cop]
    rfl

/-- **An interrupt goes to `schedule(0)`**, whether it is that of the timer or not. -/
theorem handleInt_runs (hl : Linked l code) (hq : u.quiet = true) :
    ∃ v : Cpu, Runs code (u.goto l.handleInt) (v.goto l.schedule) ∧
    v.reg a0 = 0 ∧ v.reg sp = u.reg sp ∧ v.mem = u.mem ∧ v.cop = u.cop ∧ v.tlb = u.tlb := by
  obtain ⟨h₀, h₁, h₂, h₃, h₄, h₅, h₆, h₇, h₈, -⟩ := hl.handleInt
  have hops := (((runs_op h₀ hq).trans (runs_op h₁ hq)).trans (runs_op h₂ hq)).trans (runs_op h₃ hq)
  have hq₁ : (effects u [.mfc0 t0 .cause, .mfc0 t2 .status, .and t0 t0 t2, .andi t1 t0 0x8000]).quiet = true := hq
  have hbranch := runs_bne h₄ h₅ hq₁
  have hnop : ∀ m : Cpu, effect m .nop = m := fun _ => rfl
  have hboth : l.handleInt + 4 + 4 + 4 + 4 + 8 = l.handleInt + 4 + 4 + 4 + 4 + 4 + 4 := by bv_omega
  rw [hnop, hboth, ite_self] at hbranch
  have hli := (runs_op h₆ hq₁).trans (runs_j h₇ h₈ hq₁)
  refine ⟨_, (hops.trans hbranch).trans hli, ?_, ?_, rfl, rfl, rfl⟩
  · simp [effect]
  · simp [effect]

/-! ## A kernel -/

/-- Every routine has a page. -/
def onPages : Layout :=
  { tlbMissEntry := 0x80010000, excGenEntry := 0x80011000, retFromException := 0x80012000, handleInt := 0x80013000
    handleMod := 0x80014000
    handleTlb := 0x80015000, handleSys := 0x80016000, handleReserved := 0x80017000, exceptionHandlers := 0x80020000
    envPopTf := 0x80018000, tlbOut := 0x80019000, schedule := 0x8001a000, doTlbMod :=
      0x8001b000, doTlbRefill := 0x8001b000
    doSyscall := 0x8001b000, doReserved := 0x8001b000, doTlbRefillC := 0x8001b000 }

/-- The instructions of a page; the C functions do nothing. -/
def pageCode (n : Word) : List Instr :=
  if n = 0x80010 then onPages.tlbMissEntryCode
  else if n = 0x80011 then onPages.excGenEntryCode
  else if n = 0x80012 then Layout.retFromExceptionCode
  else if n = 0x80013 then onPages.handleIntCode
  else if n = 0x80018 then onPages.envPopTfCode
  else if n = 0x80014 ∨ n = 0x80015 ∨ n = 0x80016 ∨ n = 0x80017 then onPages.buildHandler 0x8001b000
  else [.jr ra, .op .nop]

theorem linked_onPages : Linked onPages (paged pageCode) := by
  constructor <;> exact loaded_paged pageCode (by decide) (by decide)

/-- A program in user mode. -/
def program : Cpu :=
  { regs := fun r => BitVec.ofNat 32 (16 * r.val + 5), hi := 6, lo := 7, cop := fun c => if c = .status then 0x11 else 0
    mem := fun b => onPages.handler ⟨b.toNat / 4 % 32, Nat.mod_lt _ (by decide)⟩, tlb := [], pc :=
      0x400000, npc := 0x400004 }

theorem table_program : Table onPages program.mem := by
  unfold Table
  decide

/-- The C function of the exception of a page that is not in the TLB. -/
def missed : Cpu := (serving onPages program 2 false (some 0x1000) onPages.tlbMissEntry).goto onPages.doTlbRefill

theorem missed_room : Room onPages missed := by
  unfold Room
  decide +kernel

theorem missed_frame : ∀ b, (kstacktop.toNat ≤ b.toNat ∨ InFrame program b) → ¬InFrame missed b := by
  have hfirst : (frameBase program).toNat = kstacktop.toNat - 152 := by decide +kernel
  have hsecond : (frameBase missed).toNat = kstacktop.toNat - 312 := by decide +kernel
  have htop : 312 ≤ kstacktop.toNat := by decide
  unfold InFrame
  rw [hfirst, hsecond]
  intro b hb
  omega

/-- A page of the program is not in the TLB, and another is missed in the C function. -/
theorem trap_resumes_miss : ∃ t, Evolves (paged pageCode) onPages.Vector program t ∧ Same false program t ∧
    ∀ b : Word, kstacktop.toNat ≤ b.toNat → t.mem b = program.mem b := by
  have hroom : Room onPages program := by
    unfold Room
    decide
  have htable : Table onPages missed.mem := by
    unfold Table
    decide +kernel
  have hK : ∀ b : Word, kstacktop.toNat ≤ b.toNat → ¬InFrame program b := by
    have hfirst : (frameBase program).toNat + 152 = kstacktop.toNat := by decide +kernel
    intro b hb hin
    have := hin.2
    omega
  obtain ⟨t, hinner⟩ : ∃ t, Goes onPages (paged pageCode)
      (.served false fun b => kstacktop.toNat ≤ b.toNat ∨ InFrame program b) missed t :=
    serve_leaf 3 false (some 0x83400000) onPages.excGenEntry onPages.doTlbRefill (by decide +kernel)
      (by decide +kernel) (Or.inl rfl) htable
      missed_room missed_frame linked_onPages.handleTlb rfl rfl
  obtain ⟨u, houter⟩ := serve_nested 2 false (some 0x1000) onPages.tlbMissEntry onPages.doTlbRefill rfl rfl
      (Or.inr rfl) table_program hroom
    hK linked_onPages.handleTlb rfl rfl hinner
  exact ⟨u, trap_resumes linked_onPages houter⟩

/-- The program is interrupted by the timer. -/
theorem switch_resumes_timer : ∃ (u : Cpu) (tf : Trapframe),
    Runs (paged pageCode) (program.raise 0 false none onPages.excGenEntry) (u.goto onPages.handleInt) ∧
      Faulting.Holds u.mem (kstacktop - tfSize) tf ∧ ∀ w : Cpu, w.quiet = true → Faulting.Holds w.mem (w.reg a0) tf →
        ∃ x : Cpu, Runs (paged pageCode) (w.goto onPages.envPopTf) x ∧
        Same false program x ∧ x.cop .entryHi = w.reg a1 ∧ x.cop .count = 0 ∧
          x.cop .compare = timerInterval ∧ x.mem = w.mem ∧
        x.tlb = w.tlb := by
  have hroom : Room onPages program := by
    unfold Room
    decide
  exact switch_resumes linked_onPages rfl rfl rfl (Or.inl rfl) table_program hroom

end Mos.Genex
