import Mathlib
/-!
# Mips — a processor with delay slots

The state has the address of the instruction and that of the next one: a branch that is taken says what comes behind
its delay slot. Code is what stands at an address.  A step is made in kernel mode with interrupts off, and only there,
so `Runs` is a run that nothing interrupts.  A list of instructions that do not branch (`plain`) has its effects one
after another (`runs_line`), and a branch has one lemma of its own.
-/
namespace Mips

abbrev Word := BitVec 32

abbrev Reg := Fin 32

/-! ## Names of the registers -/

abbrev zero : Reg := 0
abbrev AT : Reg := 1
abbrev v0 : Reg := 2
abbrev v1 : Reg := 3
abbrev a0 : Reg := 4
abbrev a1 : Reg := 5
abbrev a2 : Reg := 6
abbrev a3 : Reg := 7
abbrev t0 : Reg := 8
abbrev t1 : Reg := 9
abbrev t2 : Reg := 10
abbrev t3 : Reg := 11
abbrev t4 : Reg := 12
abbrev t5 : Reg := 13
abbrev t6 : Reg := 14
abbrev t7 : Reg := 15
abbrev s0 : Reg := 16
abbrev s1 : Reg := 17
abbrev s2 : Reg := 18
abbrev s3 : Reg := 19
abbrev s4 : Reg := 20
abbrev s5 : Reg := 21
abbrev s6 : Reg := 22
abbrev s7 : Reg := 23
abbrev t8 : Reg := 24
abbrev t9 : Reg := 25
abbrev k0 : Reg := 26
abbrev k1 : Reg := 27
abbrev gp : Reg := 28
abbrev sp : Reg := 29
abbrev fp : Reg := 30
abbrev ra : Reg := 31

attribute [simp] zero AT v0 v1 a0 a1 a2 a3 t0 t1 t2 t3 t4 t5 t6 t7 s0 s1 s2 s3 s4 s5 s6 s7 t8 t9 k0 k1 gp sp fp ra

/-- The registers of coprocessor 0. -/
inductive Cop where
  | index
  | random
  | entryLo0
  | entryLo1
  | badVAddr
  | count
  | entryHi
  | compare
  | status
  | cause
  | epc
  | errorEpc
deriving DecidableEq

/-- An entry of the TLB. -/
structure Entry where
  hi : Word
  lo0 : Word
  lo1 : Word
deriving DecidableEq

/-- What `tlbp` looks for: the pair of pages is the same, and the address space, or the entry is of all of them. -/
def Entry.probe (e : Entry) (hi : Word) : Bool :=
  e.hi >>> 13 == hi >>> 13 && (e.hi &&& 0xFF == hi &&& 0xFF || e.lo0 &&& e.lo1 &&& 1 != 0)

structure Cpu where
  regs : Reg → Word
  hi : Word
  lo : Word
  cop : Cop → Word
  mem : Word → Word
  tlb : List Entry
  pc : Word
  /-- The instruction behind the one at `pc`. -/
  npc : Word

namespace Cpu

def reg (s : Cpu) (r : Reg) : Word := if r = 0 then 0 else s.regs r

def setReg (s : Cpu) (r : Reg) (w : Word) : Cpu := { s with regs := Function.update s.regs r w }

def setHi (s : Cpu) (w : Word) : Cpu := { s with hi := w }

def setLo (s : Cpu) (w : Word) : Cpu := { s with lo := w }

def setCop (s : Cpu) (c : Cop) (w : Word) : Cpu := { s with cop := Function.update s.cop c w }

def setTlb (s : Cpu) (t : List Entry) : Cpu := { s with tlb := t }

def store (s : Cpu) (a w : Word) : Cpu := { s with mem := Function.update s.mem a w }

/-- Control goes to `a`. -/
def goto (s : Cpu) (a : Word) : Cpu := { s with pc := a, npc := a + 4 }

/-- `IE`, `EXL`, `ERL` and `UM` of the status register. -/
def ie (s : Cpu) : Bool := (s.cop .status).getLsbD 0
def exl (s : Cpu) : Bool := (s.cop .status).getLsbD 1
def erl (s : Cpu) : Bool := (s.cop .status).getLsbD 2
def um (s : Cpu) : Bool := (s.cop .status).getLsbD 4

/-- **Kernel mode, with interrupts off.** -/
def quiet (s : Cpu) : Bool := s.exl || s.erl || (!s.um && !s.ie)

end Cpu

/-! ## Instructions -/

/-- An instruction behind which the next one comes. -/
inductive Op where
  | mfc0 (rt : Reg) (c : Cop)
  | mtc0 (rt : Reg) (c : Cop)
  | mfhi (rd : Reg)
  | mflo (rd : Reg)
  | mthi (rs : Reg)
  | mtlo (rs : Reg)
  | andi (rt rs : Reg) (imm : Word)
  | ori (rt rs : Reg) (imm : Word)
  | lui (rt : Reg) (imm : Word)
  | addiu (rt rs : Reg) (imm : Word)
  | addu (rd rs rt : Reg)
  | and (rd rs rt : Reg)
  | lw (rt : Reg) (off : Word) (base : Reg)
  | sw (rt : Reg) (off : Word) (base : Reg)
  | tlbp
  | tlbwi
  | tlbwr
  | nop

inductive Instr where
  | op (o : Op)
  /-- An addition that is an exception where it overflows. -/
  | addi (rt rs : Reg) (imm : Word)
  | beq (rs rt : Reg) (off : Word)
  | bne (rs rt : Reg) (off : Word)
  | bltz (rs : Reg) (off : Word)
  | j (target : Word)
  | jal (target : Word)
  | jr (rs : Reg)
  | eret

/-- What `tlbp` puts to `Index`: the first entry that is found, or a negative number. -/
def probed (tlb : List Entry) (hi : Word) : Word :=
  match tlb.findIdx? fun e => e.probe hi with
  | some i => BitVec.ofNat 32 i
  | none => 0x80000000

/-- The entry in the registers of coprocessor 0. -/
def Cpu.entry (s : Cpu) : Entry := ⟨s.cop .entryHi, s.cop .entryLo0, s.cop .entryLo1⟩

def effect (s : Cpu) : Op → Cpu
  | .mfc0 rt c => s.setReg rt (s.cop c)
  | .mtc0 rt c => s.setCop c (s.reg rt)
  | .mfhi rd => s.setReg rd s.hi
  | .mflo rd => s.setReg rd s.lo
  | .mthi rs => s.setHi (s.reg rs)
  | .mtlo rs => s.setLo (s.reg rs)
  | .andi rt rs imm => s.setReg rt (s.reg rs &&& imm)
  | .ori rt rs imm => s.setReg rt (s.reg rs ||| imm)
  | .lui rt imm => s.setReg rt (imm <<< 16)
  | .addiu rt rs imm => s.setReg rt (s.reg rs + imm)
  | .addu rd rs rt => s.setReg rd (s.reg rs + s.reg rt)
  | .and rd rs rt => s.setReg rd (s.reg rs &&& s.reg rt)
  | .lw rt off base => s.setReg rt (s.mem (s.reg base + off))
  | .sw rt off base => s.store (s.reg base + off) (s.reg rt)
  | .tlbp => s.setCop .index (probed s.tlb (s.cop .entryHi))
  | .tlbwi => s.setTlb (s.tlb.set (s.cop .index).toNat s.entry)
  | .tlbwr => s.setTlb (s.tlb.set (s.cop .random).toNat s.entry)
  | .nop => s

/-- **An exception**: its code, whether the instruction is in a delay slot, the address that is wrong if there is one,
and where control goes.  A branch is taken again when its delay slot could not be executed. -/
def Cpu.raise (s : Cpu) (exc : Word) (delay : Bool) (bad : Option Word) (vector : Word) : Cpu :=
  let s₁ := match bad with
    | some va => (s.setCop .badVAddr va).setCop .entryHi ((va &&& ~~~(0x1FFF : Word)) ||| (s.cop .entryHi &&& 0xFF))
    | none => s
  let s₂ := s₁.setCop .cause
      ((s.cop .cause &&& ~~~(0x8000007C : Word)) ||| (exc <<< 2) ||| (if delay then 0x80000000 else 0))
  ((s₂.setCop .epc (if delay then s.pc - 4 else s.pc)).setCop .status (s.cop .status ||| 2)).goto vector

/-- The end of an exception. -/
def Cpu.leave (s : Cpu) : Cpu :=
  if s.erl then (s.setCop .status (s.cop .status &&& ~~~(4 : Word))).goto (s.cop .errorEpc)
  else (s.setCop .status (s.cop .status &&& ~~~(2 : Word))).goto (s.cop .epc)

/-- Control goes to the delay slot, and from there to the target if the branch is taken. -/
def Cpu.branch (s : Cpu) (taken : Bool) (target : Word) : Cpu :=
  { s with pc := s.npc, npc := if taken then target else s.npc + 4 }

/-- The state after an instruction. -/
def next (s : Cpu) : Instr → Cpu
  | .op o => { effect s o with pc := s.npc, npc := s.npc + 4 }
  | .addi rt rs imm => { effect s (.addiu rt rs imm) with pc := s.npc, npc := s.npc + 4 }
  | .beq rs rt off => s.branch (s.reg rs == s.reg rt) (s.npc + off)
  | .bne rs rt off => s.branch (s.reg rs != s.reg rt) (s.npc + off)
  | .bltz rs off => s.branch (s.reg rs).msb (s.npc + off)
  | .j target => s.branch true target
  | .jal target => (s.setReg ra (s.npc + 4)).branch true target
  | .jr rs => s.branch true (s.reg rs)
  | .eret => s.leave

abbrev Code := Word → Option Instr

def Cpu.overflows (s : Cpu) : Instr → Bool
  | .addi _ rs imm => (s.reg rs).saddOverflow imm
  | _ => false

/-- An instruction that overflows is an exception, and no step. -/
def step (code : Code) (s : Cpu) : Option Cpu :=
  if s.quiet then (code s.pc).bind fun i => if s.overflows i then none else some (next s i) else none

/-- **A run that nothing interrupts.** -/
def Runs (code : Code) : Cpu → Cpu → Prop := Relation.ReflTransGen fun s t => step code s = some t

/-- A step, or an exception where one can be taken. -/
def Takes (code : Code) (vector : Word → Prop) (s t : Cpu) : Prop :=
  step code s = some t ∨ ∃ exc delay bad a, vector a ∧ s.exl = false ∧ s.erl = false ∧ t = s.raise exc delay bad a

/-- **A run in which there may be exceptions.** -/
def Evolves (code : Code) (vector : Word → Prop) : Cpu → Cpu → Prop := Relation.ReflTransGen (Takes code vector)

/-- The instructions stand at an address, one after another. -/
def Loaded (code : Code) : Word → List Instr → Prop
  | _, [] => True
  | a, i :: is => code a = some i ∧ Loaded code (a + 4) is

/-- The instruction does not write the status register. -/
def Op.plain : Op → Bool
  | .mtc0 _ c => decide (c ≠ .status)
  | _ => true

variable {code : Code} {s t u : Cpu} {r r' : Reg} {a b w : Word} {c c' : Cop} {o d : Op} {i : Instr}
    {is js : List Instr} {os : List Op}

namespace Cpu

@[simp] theorem reg_zero (s : Cpu) : s.reg 0 = 0 := rfl

@[simp] theorem reg_setReg (s : Cpu) (r r' : Reg) (w : Word) :
    (s.setReg r w).reg r' = if r' = 0 then 0 else if r' = r then w else s.reg r' := by
  unfold setReg reg
  by_cases h0 : r' = 0
  · simp [h0]
  · by_cases h : r' = r
    · subst h
      simp [h0]
    · simp [h0, h]

@[simp] theorem cop_setReg (s : Cpu) (r : Reg) (w : Word) : (s.setReg r w).cop = s.cop := rfl
@[simp] theorem mem_setReg (s : Cpu) (r : Reg) (w : Word) : (s.setReg r w).mem = s.mem := rfl
@[simp] theorem tlb_setReg (s : Cpu) (r : Reg) (w : Word) : (s.setReg r w).tlb = s.tlb := rfl
@[simp] theorem hi_setReg (s : Cpu) (r : Reg) (w : Word) : (s.setReg r w).hi = s.hi := rfl
@[simp] theorem lo_setReg (s : Cpu) (r : Reg) (w : Word) : (s.setReg r w).lo = s.lo := rfl
@[simp] theorem pc_setReg (s : Cpu) (r : Reg) (w : Word) : (s.setReg r w).pc = s.pc := rfl
@[simp] theorem npc_setReg (s : Cpu) (r : Reg) (w : Word) : (s.setReg r w).npc = s.npc := rfl

@[simp] theorem reg_setCop (s : Cpu) (c : Cop) (w : Word) (r : Reg) : (s.setCop c w).reg r = s.reg r := rfl
@[simp] theorem cop_setCop (s : Cpu) (c c' : Cop) (w : Word) : (s.setCop c w).cop c' = if c' = c then w else s.cop c' :=
  Function.update_apply s.cop c w c'
@[simp] theorem mem_setCop (s : Cpu) (c : Cop) (w : Word) : (s.setCop c w).mem = s.mem := rfl
@[simp] theorem tlb_setCop (s : Cpu) (c : Cop) (w : Word) : (s.setCop c w).tlb = s.tlb := rfl
@[simp] theorem hi_setCop (s : Cpu) (c : Cop) (w : Word) : (s.setCop c w).hi = s.hi := rfl
@[simp] theorem lo_setCop (s : Cpu) (c : Cop) (w : Word) : (s.setCop c w).lo = s.lo := rfl
@[simp] theorem pc_setCop (s : Cpu) (c : Cop) (w : Word) : (s.setCop c w).pc = s.pc := rfl
@[simp] theorem npc_setCop (s : Cpu) (c : Cop) (w : Word) : (s.setCop c w).npc = s.npc := rfl

@[simp] theorem reg_store (s : Cpu) (a w : Word) (r : Reg) : (s.store a w).reg r = s.reg r := rfl
@[simp] theorem cop_store (s : Cpu) (a w : Word) : (s.store a w).cop = s.cop := rfl
@[simp] theorem mem_store (s : Cpu) (a w : Word) : (s.store a w).mem = Function.update s.mem a w := rfl
@[simp] theorem tlb_store (s : Cpu) (a w : Word) : (s.store a w).tlb = s.tlb := rfl
@[simp] theorem hi_store (s : Cpu) (a w : Word) : (s.store a w).hi = s.hi := rfl
@[simp] theorem lo_store (s : Cpu) (a w : Word) : (s.store a w).lo = s.lo := rfl
@[simp] theorem pc_store (s : Cpu) (a w : Word) : (s.store a w).pc = s.pc := rfl
@[simp] theorem npc_store (s : Cpu) (a w : Word) : (s.store a w).npc = s.npc := rfl

@[simp] theorem reg_setHi (s : Cpu) (w : Word) (r : Reg) : (s.setHi w).reg r = s.reg r := rfl
@[simp] theorem cop_setHi (s : Cpu) (w : Word) : (s.setHi w).cop = s.cop := rfl
@[simp] theorem mem_setHi (s : Cpu) (w : Word) : (s.setHi w).mem = s.mem := rfl
@[simp] theorem tlb_setHi (s : Cpu) (w : Word) : (s.setHi w).tlb = s.tlb := rfl
@[simp] theorem hi_setHi (s : Cpu) (w : Word) : (s.setHi w).hi = w := rfl
@[simp] theorem lo_setHi (s : Cpu) (w : Word) : (s.setHi w).lo = s.lo := rfl

@[simp] theorem reg_setLo (s : Cpu) (w : Word) (r : Reg) : (s.setLo w).reg r = s.reg r := rfl
@[simp] theorem cop_setLo (s : Cpu) (w : Word) : (s.setLo w).cop = s.cop := rfl
@[simp] theorem mem_setLo (s : Cpu) (w : Word) : (s.setLo w).mem = s.mem := rfl
@[simp] theorem tlb_setLo (s : Cpu) (w : Word) : (s.setLo w).tlb = s.tlb := rfl
@[simp] theorem lo_setLo (s : Cpu) (w : Word) : (s.setLo w).lo = w := rfl
@[simp] theorem hi_setLo (s : Cpu) (w : Word) : (s.setLo w).hi = s.hi := rfl

@[simp] theorem reg_setTlb (s : Cpu) (t : List Entry) (r : Reg) : (s.setTlb t).reg r = s.reg r := rfl
@[simp] theorem cop_setTlb (s : Cpu) (t : List Entry) : (s.setTlb t).cop = s.cop := rfl
@[simp] theorem mem_setTlb (s : Cpu) (t : List Entry) : (s.setTlb t).mem = s.mem := rfl
@[simp] theorem tlb_setTlb (s : Cpu) (t : List Entry) : (s.setTlb t).tlb = t := rfl

@[simp] theorem reg_goto (s : Cpu) (a : Word) (r : Reg) : (s.goto a).reg r = s.reg r := rfl
@[simp] theorem cop_goto (s : Cpu) (a : Word) : (s.goto a).cop = s.cop := rfl
@[simp] theorem mem_goto (s : Cpu) (a : Word) : (s.goto a).mem = s.mem := rfl
@[simp] theorem tlb_goto (s : Cpu) (a : Word) : (s.goto a).tlb = s.tlb := rfl
@[simp] theorem hi_goto (s : Cpu) (a : Word) : (s.goto a).hi = s.hi := rfl
@[simp] theorem lo_goto (s : Cpu) (a : Word) : (s.goto a).lo = s.lo := rfl
@[simp] theorem pc_goto (s : Cpu) (a : Word) : (s.goto a).pc = a := rfl
@[simp] theorem npc_goto (s : Cpu) (a : Word) : (s.goto a).npc = a + 4 := rfl

@[simp] theorem setReg_setReg (s : Cpu) (r : Reg) (w w' : Word) : (s.setReg r w).setReg r w' = s.setReg r w' := by
  unfold setReg
  simp

@[simp] theorem store_setReg (s : Cpu) (r : Reg) (w a w' : Word) :
    (s.setReg r w).store a w' = (s.store a w').setReg r w :=
  rfl
@[simp] theorem setCop_setReg (s : Cpu) (r : Reg) (c : Cop) (w w' : Word) :
    (s.setReg r w).setCop c w' = (s.setCop c w').setReg r w :=
  rfl
@[simp] theorem setHi_setReg (s : Cpu) (r : Reg) (w w' : Word) : (s.setReg r w).setHi w' = (s.setHi w').setReg r w :=
  rfl
@[simp] theorem setLo_setReg (s : Cpu) (r : Reg) (w w' : Word) : (s.setReg r w).setLo w' = (s.setLo w').setReg r w :=
  rfl

theorem setReg_comm (s : Cpu) (r r' : Reg) (w w' : Word) (h : r ≠ r') :
    (s.setReg r w).setReg r' w' = (s.setReg r' w').setReg r w := by
  unfold setReg
  simp only
  rw [Function.update_comm h]

theorem setReg_reg (s : Cpu) (r : Reg) (h : r ≠ 0) : s.setReg r (s.reg r) = s := by
  unfold setReg reg
  rw [if_neg h, Function.update_eq_self]

theorem quiet_congr (h : t.cop .status = s.cop .status) : t.quiet = s.quiet := by
  unfold quiet exl erl um ie
  rw [h]

end Cpu

section

variable (s : Cpu) (exc : Word) (delay : Bool) (bad : Option Word) (a : Word)

namespace Cpu

@[simp] theorem reg_raise (r : Reg) : (s.raise exc delay bad a).reg r = s.reg r := by cases bad <;> rfl
@[simp] theorem mem_raise : (s.raise exc delay bad a).mem = s.mem := by cases bad <;> rfl
@[simp] theorem tlb_raise : (s.raise exc delay bad a).tlb = s.tlb := by cases bad <;> rfl
@[simp] theorem hi_raise : (s.raise exc delay bad a).hi = s.hi := by cases bad <;> rfl
@[simp] theorem lo_raise : (s.raise exc delay bad a).lo = s.lo := by cases bad <;> rfl
@[simp] theorem status_raise : (s.raise exc delay bad a).cop .status = s.cop .status ||| 2 := by cases bad <;> rfl
@[simp] theorem epc_raise : (s.raise exc delay bad a).cop .epc = if delay then s.pc - 4 else s.pc :=
  by cases bad <;> rfl

theorem goto_raise : (s.raise exc delay bad a).goto a = s.raise exc delay bad a := by cases bad <;> rfl

theorem exl_raise : (s.raise exc delay bad a).exl = true := by
  unfold exl
  simp

theorem erl_raise : (s.raise exc delay bad a).erl = s.erl := by
  unfold erl
  simp

theorem um_raise : (s.raise exc delay bad a).um = s.um := by
  unfold um
  simp

theorem quiet_raise : (s.raise exc delay bad a).quiet = true := by
  unfold quiet
  rw [exl_raise]
  rfl

theorem status_back (h : s.exl = false) : (s.cop .status ||| 2) &&& ~~~(2 : Word) = s.cop .status := by
  have h2 : (2 : Word) = BitVec.twoPow 32 1 := by decide
  apply BitVec.eq_of_getLsbD_eq
  intro i hi
  rw [h2]
  by_cases h1 : i = 1
  · subst h1
    simpa [exl] using h.symm
  · simp [hi, h1]

end Cpu

end

/-! ## Effects -/

theorem effect_at (s : Cpu) (o : Op) (a b : Word) :
    effect { s with pc := a, npc := b } o = { effect s o with pc := a, npc := b } := by
  cases o <;> rfl

theorem effect_goto (s : Cpu) (o : Op) (a : Word) : effect (s.goto a) o = (effect s o).goto a := effect_at s o a (a + 4)

theorem plain_status (h : o.plain = true) (s : Cpu) : (effect s o).cop .status = s.cop .status := by
  cases o with
  | mtc0 rt c =>
    have hc : c ≠ .status := of_decide_eq_true h
    simp [effect, Ne.symm hc]
  | tlbp => simp [effect]
  | _ => rfl

/-- The effects of a list of instructions. -/
def effects (s : Cpu) (os : List Op) : Cpu := os.foldl effect s

@[simp] theorem effects_nil (s : Cpu) : effects s [] = s := rfl

@[simp] theorem effects_cons (s : Cpu) (o : Op) (os : List Op) : effects s (o :: os) = effects (effect s o) os := rfl

theorem effects_append (s : Cpu) (os os' : List Op) : effects s (os ++ os') = effects (effects s os) os' :=
  List.foldl_append

theorem effects_status (h : ∀ o ∈ os, o.plain = true) (s : Cpu) : (effects s os).cop .status = s.cop .status := by
  induction os generalizing s with
  | nil => rfl
  | cons o os ih =>
    exact (ih (fun j hj => h j (List.mem_cons_of_mem o hj)) _).trans (plain_status (h o List.mem_cons_self) s)

/-! ## Registers to memory, and back -/

/-- The words of `is` are stored behind `a`. -/
def stored {I : Type} (m : Word → Word) (a : Word) (off v : I → Word) : List I → Word → Word
  | [] => m
  | i :: is => stored (Function.update m (a + off i) (v i)) a off v is

/-- The same, in a state. -/
def Cpu.storeAll {I : Type} (s : Cpu) (a : Word) (off v : I → Word) (is : List I) : Cpu :=
  { s with mem := stored s.mem a off v is }

section

variable {I J : Type} {m : Word → Word} {off v : I → Word} {i : I} {is js : List I}

@[simp] theorem Cpu.reg_storeAll (s : Cpu) (a : Word) (off v : I → Word) (is : List I) (r : Reg) :
    (s.storeAll a off v is).reg r = s.reg r :=
  rfl
@[simp] theorem Cpu.cop_storeAll (s : Cpu) (a : Word) (off v : I → Word) (is : List I) :
    (s.storeAll a off v is).cop = s.cop :=
  rfl
@[simp] theorem Cpu.mem_storeAll (s : Cpu) (a : Word) (off v : I → Word) (is : List I) :
    (s.storeAll a off v is).mem = stored s.mem a off v is := rfl

theorem Cpu.storeAll_nil (s : Cpu) (a : Word) (off v : I → Word) : s.storeAll a off v [] = s := rfl

theorem Cpu.storeAll_cons (s : Cpu) (a : Word) (off v : I → Word) (i : I) (is : List I) :
    s.storeAll a off v (i :: is) = (s.store (a + off i) (v i)).storeAll a off v is := rfl

theorem Cpu.storeAll_setReg (s : Cpu) (a : Word) (off v : I → Word) (is : List I) (r : Reg) (w : Word) :
    (s.setReg r w).storeAll a off v is = (s.storeAll a off v is).setReg r w := rfl

theorem stored_append : stored m a off v (is ++ js) = stored (stored m a off v is) a off v js := by
  induction is generalizing m with
  | nil => rfl
  | cons i is ih => exact ih

theorem stored_map (f : J → I) (xs : List J) : stored m a off v (xs.map f) = stored m a (off ∘ f) (v ∘ f) xs := by
  induction xs generalizing m with
  | nil => rfl
  | cons x xs ih => exact ih

theorem Cpu.storeAll_append (s : Cpu) (a : Word) (off v : I → Word) (is js : List I) :
    s.storeAll a off v (is ++ js) = (s.storeAll a off v is).storeAll a off v js := by
  unfold storeAll
  rw [stored_append]

theorem Cpu.storeAll_map (s : Cpu) (a : Word) (off v : I → Word) (f : J → I) (xs : List J) :
    s.storeAll a off v (xs.map f) = s.storeAll a (off ∘ f) (v ∘ f) xs := by
  unfold storeAll
  rw [stored_map]

theorem stored_congr {v' : I → Word} (h : ∀ i ∈ is, v i = v' i) : stored m a off v is = stored m a off v' is := by
  induction is generalizing m with
  | nil => rfl
  | cons i is ih =>
    unfold stored
    rw [h i List.mem_cons_self]
    exact ih fun j hj => h j (List.mem_cons_of_mem i hj)

theorem stored_other (h : ∀ i ∈ is, b ≠ a + off i) : stored m a off v is b = m b := by
  induction is generalizing m with
  | nil => rfl
  | cons i is ih =>
    obtain ⟨hi, hrest⟩ := List.forall_mem_cons.1 h
    exact (ih hrest).trans (Function.update_of_ne hi _ _)

/-- **What is stored is there.** -/
theorem stored_mem (hoff : Function.Injective off) (hi : i ∈ is) : stored m a off v is (a + off i) = v i := by
  induction is generalizing m with
  | nil => cases hi
  | cons j is ih =>
    by_cases hmem : i ∈ is
    · exact ih hmem
    · obtain rfl : i = j := (List.mem_cons.1 hi).resolve_right hmem
      have hother : ∀ j ∈ is, a + off i ≠ a + off j := by
        intro j hj heq
        have hij : off i = off j := by simpa using heq
        exact hmem (hoff hij ▸ hj)
      exact (stored_other hother).trans (Function.update_self _ _ _)

end

section

variable {base : Reg} {off : Reg → Word} {rs : List Reg}

theorem effects_sw (s : Cpu) (rs : List Reg) :
    effects s (rs.map fun r => .sw r (off r) base) = s.storeAll (s.reg base) off s.reg rs := by
  induction rs generalizing s with
  | nil => rfl
  | cons r rs ih =>
    rw [List.map_cons, effects_cons, ih]
    rfl

/-- **What is loaded** comes from where the base register points. -/
theorem effects_lw (s : Cpu) (h : base ∉ rs) : effects s (rs.map fun r => .lw r (off r) base) =
    { s with regs := fun r => if r ∈ rs then s.mem (s.reg base + off r) else s.regs r } := by
  induction rs generalizing s with
  | nil => simp
  | cons r rs ih =>
    have hne : base ≠ r := fun heq => h (heq ▸ List.mem_cons_self)
    have hbase : (effect s (.lw r (off r) base)).reg base = s.reg base := by
      by_cases h0 : base = 0
      · simp [effect, h0]
      · simp [effect, hne, h0]
    rw [List.map_cons, effects_cons, ih _ fun hmem => h (List.mem_cons_of_mem r hmem), hbase]
    simp only [effect, Cpu.setReg]
    congr 1
    funext r'
    by_cases hr : r' = r
    · subst hr
      simp
    · simp [hr]

end

/-! ## Runs -/

theorem step_eq (hq : s.quiet = true) (h : code s.pc = some i) (ho : s.overflows i = false) :
    step code s = some (next s i) := by
  unfold step
  rw [if_pos hq, h, Option.bind_some, if_neg (by rw [ho]; exact Bool.false_ne_true)]

namespace Runs

theorem refl (s : Cpu) : Runs code s s := Relation.ReflTransGen.refl

theorem trans (h : Runs code s t) (h' : Runs code t u) : Runs code s u := Relation.ReflTransGen.trans h h'

theorem one (hq : s.quiet = true) (h : code s.pc = some i) (ho : s.overflows i = false) : Runs code s (next s i) :=
  Relation.ReflTransGen.single (step_eq hq h ho)

end Runs

theorem Runs.evolves {vector : Word → Prop} (h : Runs code s t) : Evolves code vector s t :=
  Relation.ReflTransGen.mono (fun _ _ => Or.inl) s t h

theorem add_length (a : Word) (n : Nat) : a + 4 + 4 * BitVec.ofNat 32 n = a + 4 * BitVec.ofNat 32 (n + 1) := by
  rw [BitVec.add_assoc, BitVec.ofNat_add, BitVec.mul_add, BitVec.add_comm 4]
  rfl

theorem loaded_append :
    Loaded code a (is ++ js) ↔ Loaded code a is ∧ Loaded code (a + 4 * BitVec.ofNat 32 is.length) js := by
  induction is generalizing a with
  | nil => simp [Loaded]
  | cons i is ih =>
    simp only [List.cons_append, Loaded, List.length_cons]
    rw [ih, add_length, and_assoc]

/-- **One instruction** -/
theorem runs_op (h : code a = some (.op o)) (hq : s.quiet = true) :
    Runs code (s.goto a) ((effect s o).goto (a + 4)) := by
  have hnext : next (s.goto a) (.op o) = (effect s o).goto (a + 4) := by
    simp only [next, effect_goto]
    rfl
  rw [← hnext]
  exact .one hq h rfl

/-- **An addition that does not overflow** -/
theorem runs_addi {rt rs : Reg} {imm : Word} (h : code a = some (.addi rt rs imm)) (hq : s.quiet = true)
    (ho : (s.reg rs).saddOverflow imm = false) : Runs code (s.goto a) ((effect s (.addiu rt rs imm)).goto (a + 4)) := by
  have hnext : next (s.goto a) (.addi rt rs imm) = (effect s (.addiu rt rs imm)).goto (a + 4) := by
    simp only [next, effect_goto]
    rfl
  rw [← hnext]
  exact .one hq h ho

/-- **Instructions that do not branch have their effects, one after another.** -/
theorem runs_line (h : ∀ o ∈ os, o.plain = true) (hload : Loaded code a (os.map .op)) (hq : s.quiet = true) :
    Runs code (s.goto a) ((effects s os).goto (a + 4 * BitVec.ofNat 32 os.length)) := by
  induction os generalizing s a with
  | nil =>
    rw [effects_nil, List.length_nil, show a + 4 * BitVec.ofNat 32 0 = a by simp]
    exact .refl _
  | cons o os ih =>
    obtain ⟨ho, hrest⟩ := List.forall_mem_cons.1 h
    obtain ⟨hcode, hload⟩ := hload
    rw [effects_cons, List.length_cons, ← add_length]
    exact (runs_op hcode hq).trans (ih hrest hload ((Cpu.quiet_congr (plain_status ho s)).trans hq))

/-- **A branch**, and the instruction in its delay slot. -/
theorem runs_branch {taken : Bool} {b : Word} (hi : code a = some i) (hd : code (a + 4) = some (.op d))
    (hq : s.quiet = true) (hnext : next (s.goto a) i = (t.goto a).branch taken b) (ht : t.cop .status = s.cop .status)
    (ho : (s.goto a).overflows i = false) :
    Runs code (s.goto a) ((effect t d).goto (if taken then b else a + 8)) := by
  have hfirst : Runs code (s.goto a) ((t.goto a).branch taken b) := hnext ▸ .one hq hi ho
  have hslot : Runs code ((t.goto a).branch taken b) (next ((t.goto a).branch taken b) (.op d)) :=
    .one ((Cpu.quiet_congr ht).trans hq) hd rfl
  have hend : next ((t.goto a).branch taken b) (.op d) = (effect t d).goto (if taken then b else a + 8) := by
    have h8 : a + 4 + 4 = a + 8 := BitVec.add_assoc a 4 4
    unfold Cpu.branch Cpu.goto
    simp only [next, effect_at, h8]
  exact hfirst.trans (hend ▸ hslot)

theorem runs_beq {rs rt : Reg} {o : Word} (hi : code a = some (.beq rs rt o)) (hd : code (a + 4) = some (.op d))
    (hq : s.quiet = true) :
    Runs code (s.goto a) ((effect s d).goto (if s.reg rs = s.reg rt then a + 4 + o else a + 8)) := by
  have h := runs_branch hi hd hq
      (show next (s.goto a) (.beq rs rt o) = (s.goto a).branch (s.reg rs == s.reg rt) (a + 4 + o) from rfl) rfl rfl
  simpa using h

theorem runs_bne {rs rt : Reg} {o : Word} (hi : code a = some (.bne rs rt o)) (hd : code (a + 4) = some (.op d))
    (hq : s.quiet = true) :
    Runs code (s.goto a) ((effect s d).goto (if s.reg rs = s.reg rt then a + 8 else a + 4 + o)) := by
  have h := runs_branch hi hd hq
      (show next (s.goto a) (.bne rs rt o) = (s.goto a).branch (s.reg rs != s.reg rt) (a + 4 + o) from rfl) rfl rfl
  by_cases heq : s.reg rs = s.reg rt
  · simpa [heq] using h
  · simpa [heq] using h

theorem runs_bltz {rs : Reg} {o : Word} (hi : code a = some (.bltz rs o)) (hd : code (a + 4) = some (.op d))
    (hq : s.quiet = true) :
    Runs code (s.goto a) ((effect s d).goto (if (s.reg rs).msb then a + 4 + o else a + 8)) :=
  runs_branch hi hd hq
    (show next (s.goto a) (.bltz rs o) = (s.goto a).branch (s.reg rs).msb (a + 4 + o) from rfl) rfl rfl

theorem runs_j (hi : code a = some (.j b)) (hd : code (a + 4) = some (.op d)) (hq : s.quiet = true) :
    Runs code (s.goto a) ((effect s d).goto b) := by
  have h := runs_branch hi hd hq (show next (s.goto a) (.j b) = (s.goto a).branch true b from rfl) rfl rfl
  simpa using h

theorem runs_jr (hi : code a = some (.jr r)) (hd : code (a + 4) = some (.op d)) (hq : s.quiet = true) :
    Runs code (s.goto a) ((effect s d).goto (s.reg r)) := by
  have h := runs_branch hi hd hq (show next (s.goto a) (.jr r) = (s.goto a).branch true (s.reg r) from rfl) rfl rfl
  simpa using h

theorem runs_jal (hi : code a = some (.jal b)) (hd : code (a + 4) = some (.op d)) (hq : s.quiet = true) :
    Runs code (s.goto a) ((effect (s.setReg ra (a + 8)) d).goto b) := by
  have hra : a + 4 + 4 = a + 8 := BitVec.add_assoc a 4 4
  have hnext : next (s.goto a) (.jal b) = ((s.setReg ra (a + 8)).goto a).branch true b := by
    rw [← hra]
    rfl
  have h := runs_branch hi hd hq hnext rfl rfl
  simpa using h

theorem runs_eret (hi : code a = some .eret) (hq : s.quiet = true) : Runs code (s.goto a) s.leave := by
  have h : Runs code (s.goto a) (next (s.goto a) .eret) := .one hq hi rfl
  have hleave : (s.goto a).leave = s.leave := by
    have herl : (s.goto a).erl = s.erl := rfl
    unfold Cpu.leave
    rw [herl]
    split <;> rfl
  exact hleave ▸ h

/-! ## Code on pages of its own -/

/-- Every page has a list of instructions. -/
def paged (f : Word → List Instr) : Code := fun b => (f (b >>> 12))[b.toNat % 4096 / 4]?

theorem loaded_paged_drop (f : Word → List Instr) (h : a.toNat % 4096 = 0) (hlen : (f (a >>> 12)).length ≤ 1024)
    (n : Nat) (hdrop : (f (a >>> 12)).drop n = is) : Loaded (paged f) (a + BitVec.ofNat 32 (4 * n)) is := by
  induction is generalizing n with
  | nil => trivial
  | cons i is ih =>
    have hn : n < (f (a >>> 12)).length := by
      by_contra hge
      rw [List.drop_eq_nil_of_le (Nat.le_of_not_lt hge)] at hdrop
      cases hdrop
    have ha := a.isLt
    have haddr : (a + BitVec.ofNat 32 (4 * n)).toNat = a.toNat + 4 * n := by
      rw [BitVec.toNat_add, BitVec.toNat_ofNat]
      omega
    have hpage : (a + BitVec.ofNat 32 (4 * n)) >>> 12 = a >>> 12 := by
      apply BitVec.eq_of_toNat_eq
      rw [BitVec.toNat_ushiftRight, BitVec.toNat_ushiftRight, haddr, Nat.shiftRight_eq_div_pow,
        Nat.shiftRight_eq_div_pow]
      omega
    have hindex : (a.toNat + 4 * n) % 4096 / 4 = n := by omega
    have hnext : a + BitVec.ofNat 32 (4 * n) + 4 = a + BitVec.ofNat 32 (4 * (n + 1)) := by
      rw [BitVec.add_assoc, Nat.mul_succ, BitVec.ofNat_add]
      rfl
    refine ⟨?_, ?_⟩
    · unfold paged
      rw [hpage, haddr, hindex, ← List.head?_drop, hdrop]
      rfl
    · rw [hnext]
      refine ih (n + 1) ?_
      rw [← List.tail_drop, hdrop]
      rfl

theorem loaded_paged (f : Word → List Instr) (h : a.toNat % 4096 = 0) (hlen : (f (a >>> 12)).length ≤ 1024) :
    Loaded (paged f) a (f (a >>> 12)) := by
  have h0 := loaded_paged_drop f h hlen 0 rfl
  rwa [Nat.mul_zero, BitVec.add_zero] at h0

end Mips
