import Mos.Faults
import Mos.Lib.Mips
import Mos.UserMode
/-!
# Genex — the way into the kernel and out of it

`entry.S`, `genex.S` and `env_asm.S`, with the macros of `stackframe.h` and `kclock.h`, as the assembler expands them.
Where the linker puts what is a `Layout`, and the C functions are not here: a handler is `Linked` to an address.
-/
namespace Mos.Genex

open Mips

/-! ## The frame -/

/-- A word of a `struct Trapframe`. -/
inductive Slot where
  | reg (r : Reg)
  | status
  | hi
  | lo
  | badVAddr
  | cause
  | epc
deriving DecidableEq

/-- The place of a word in the structure. -/
def Slot.index : Slot → Nat
  | .reg r => r.val
  | .status => 32
  | .hi => 33
  | .lo => 34
  | .badVAddr => 35
  | .cause => 36
  | .epc => 37

/-- `TF_REG0` to `TF_EPC` -/
def off (i : Slot) : Word := BitVec.ofNat 32 (4 * i.index)

def tfSize : Word := 152

def Slot.of (tf : Trapframe) : Slot → Word
  | .reg r => tf.regs r.val
  | .status => tf.cp0Status
  | .hi => tf.hi
  | .lo => tf.lo
  | .badVAddr => tf.cp0Badvaddr
  | .cause => tf.cp0Cause
  | .epc => tf.cp0Epc

/-- **The frame stands at `a`.** -/
def At (mem : Word → Word) (a : Word) (tf : Trapframe) : Prop := ∀ i : Slot, mem (a + off i) = i.of tf

/-! ## Where things are -/

structure Layout where
  tlbMissEntry : Word
  excGenEntry : Word
  retFromException : Word
  handleInt : Word
  handleMod : Word
  handleTlb : Word
  handleSys : Word
  handleReserved : Word
  /-- `exception_handlers` -/
  exceptionHandlers : Word
  envPopTf : Word
  tlbOut : Word
  schedule : Word
  doTlbMod : Word
  doTlbRefill : Word
  doSyscall : Word
  doReserved : Word
  /-- `_do_tlb_refill` -/
  doTlbRefillC : Word

/-- `exception_handlers[i]` -/
def Layout.handler (l : Layout) (i : Fin 32) : Word :=
  match i.val with
  | 0 => l.handleInt
  | 1 => l.handleMod
  | 2 | 3 => l.handleTlb
  | 8 => l.handleSys
  | _ => l.handleReserved

def kstacktop : Word := 0x80400000

def timerInterval : Word := 500000

/-- `STATUS_EXL` and `STATUS_IE` -/
def statusExl : Word := 0x2
def statusIe : Word := 0x1

/-! ## Code -/

/-- `%hi` and `%lo` of an address -/
def low (a : Word) : Word := (a.setWidth 16).signExtend 32
def high (a : Word) : Word := (a - low a) >>> 16

/-- Registers in the order in which `SAVE_ALL` stores them, all but `sp`. -/
def saved : List Reg :=
  [zero, AT, v0, v1, a0, a1, a2, a3, t0, t1, t2, t3, t4, t5, t6, t7, s0, s1, s2, s3, s4, s5, s6, s7, t8, t9,
    k0, k1, gp, fp, ra]

/-- Registers in the order in which `RESTORE_ALL` loads them, all but `zero`, `k0`, `k1` and `sp`. -/
def restored : List Reg :=
  [ra, fp, gp, t9, t8, s7, s6, s5, s4, s3, s2, s1, s0, t7, t6, t5, t4, t3, t2, t1, t0, a3, a2, a1, a0, v1, v0, AT]

/-- `SAVE_ALL`, to its label: the stack pointer is kept in `k0`, and is set when it was not that of the kernel. -/
def saveSp : List Instr :=
  [.op (.mfc0 k0 .status), .op (.andi k0 k0 statusUm), .beq k0 zero 8, .op (.addu k0 sp zero), .op (.lui sp 0x8040)]

/-- The words that are not in registers. -/
def saveCop : List Op :=
  [.addiu sp sp (-tfSize), .sw k0 (off (.reg sp)) sp, .mfc0 k0 .status, .sw k0 (off .status) sp, .mfc0 k0 .cause,
    .sw k0 (off .cause) sp,
    .mfc0 k0 .epc, .sw k0 (off .epc) sp, .mfc0 k0 .badVAddr, .sw k0 (off .badVAddr) sp, .mfhi k0,
      .sw k0 (off .hi) sp, .mflo k0,
    .sw k0 (off .lo) sp]

/-- `SAVE_ALL`, from its label. -/
def saveAll : List Op := saveCop ++ saved.map fun r => .sw r (off (.reg r)) sp

def restoreCop : List Op :=
  [.lw v1 (off .lo) sp, .mtlo v1, .lw v0 (off .hi) sp, .lw v1 (off .epc) sp, .mthi v0, .mtc0 v1 .epc]

/-- `RESTORE_ALL`, behind the load of the status register. -/
def restoreAll : List Op :=
  restoreCop ++ ((restored.map fun r => .lw r (off (.reg r)) sp) ++ [.lw sp (off (.reg sp)) sp])

/-- `UM`, `EXL` and `IE` are cleared. -/
def clearStatus : List Op :=
  [.mfc0 t0 .status, .addiu AT zero (~~~(statusUm ||| statusExl ||| statusIe)), .and t0 t0 AT, .mtc0 t0 .status]

/-- The handler is read from the table. -/
def dispatch (l : Layout) : List Op :=
  [.mfc0 t0 .cause, .andi t0 t0 0x7c, .lui AT (high l.exceptionHandlers), .addu AT AT t0,
    .lw t0 (low l.exceptionHandlers) AT]

namespace Layout

/-- `tlb_miss_entry` -/
def tlbMissEntryCode (l : Layout) : List Instr := [.j l.excGenEntry, .op .nop]

/-- `exc_gen_entry` -/
def excGenEntryCode (l : Layout) : List Instr :=
  saveSp ++ (saveAll.map .op ++ (clearStatus.map .op ++ ((dispatch l).map .op ++ [.jr t0, .op .nop])))

/-- `ret_from_exception` -/
def retFromExceptionCode : List Instr :=
  [.op (.lw v0 (off .status) sp), .op (.mtc0 v0 .status)] ++ (restoreAll.map .op ++ [.eret])

def buildHandler (l : Layout) (handler : Word) : List Instr :=
  [.op (.addu a0 sp zero), .op (.addiu sp sp (-8)), .jal handler, .op .nop, .op (.addiu sp sp 8),
    .j l.retFromException, .op .nop]

/-- `handle_int`: the branch goes to where control comes without it. -/
def handleIntCode (l : Layout) : List Instr :=
  [.op (.mfc0 t0 .cause), .op (.mfc0 t2 .status), .op (.and t0 t0 t2), .op (.andi t1 t0 0x8000),
    .bne t1 zero 4, .op .nop,
    .op (.addiu a0 zero 0), .j l.schedule, .op .nop]

def resetKclock : List Op := [.lui t0 7, .ori t0 t0 0xa120, .mtc0 zero .count, .mtc0 t0 .compare]

/-- `env_pop_tf` -/
def envPopTfOps : List Op := [.mtc0 a1 .entryHi, .addu sp a0 zero] ++ resetKclock

def envPopTfCode (l : Layout) : List Instr := envPopTfOps.map .op ++ [.j l.retFromException, .op .nop]

end Layout

/-- **The kernel is linked**: its routines are where the layout says. -/
structure Linked (l : Layout) (code : Code) : Prop where
  tlbMissEntry : Loaded code l.tlbMissEntry l.tlbMissEntryCode
  excGenEntry : Loaded code l.excGenEntry l.excGenEntryCode
  retFromException : Loaded code l.retFromException Layout.retFromExceptionCode
  handleInt : Loaded code l.handleInt l.handleIntCode
  handleTlb : Loaded code l.handleTlb (l.buildHandler l.doTlbRefill)
  handleMod : Loaded code l.handleMod (l.buildHandler l.doTlbMod)
  handleSys : Loaded code l.handleSys (l.buildHandler l.doSyscall)
  handleReserved : Loaded code l.handleReserved (l.buildHandler l.doReserved)
  envPopTf : Loaded code l.envPopTf l.envPopTfCode

/-- `exception_handlers` is in memory. -/
def Table (l : Layout) (mem : Word → Word) : Prop :=
  ∀ i : Fin 32, mem (l.exceptionHandlers + BitVec.ofNat 32 (4 * i.val)) = l.handler i

/-! ## The frame in memory -/

theorem index_lt (i : Slot) : i.index < 38 := by
  cases i with
  | reg r => exact Nat.lt_of_lt_of_le r.isLt (by decide)
  | _ => decide

theorem index_injective : Function.Injective Slot.index := by
  intro i j h
  cases i with
  | reg r =>
    cases j with
    | reg r' => exact congrArg Slot.reg (Fin.ext h)
    | _ => exact absurd h (Nat.ne_of_lt (Nat.lt_of_lt_of_le r.isLt (by decide)))
  | _ =>
    cases j with
    | reg r => exact absurd h (Nat.ne_of_gt (Nat.lt_of_lt_of_le r.isLt (by decide)))
    | _ => first | rfl | cases h

theorem off_toNat (i : Slot) : (off i).toNat = 4 * i.index := by
  have h := index_lt i
  unfold off
  rw [BitVec.toNat_ofNat]
  omega

theorem off_injective : Function.Injective off := by
  intro i j h
  apply index_injective
  have h' := congrArg BitVec.toNat h
  rw [off_toNat, off_toNat] at h'
  omega

theorem frame_toNat {a : Word} (h : a.toNat + 152 < 2 ^ 32) (i : Slot) : (a + off i).toNat = a.toNat + 4 * i.index := by
  have hi := index_lt i
  rw [BitVec.toNat_add, off_toNat]
  omega

theorem at_congr {mem mem' : Word → Word} {a : Word} {tf : Trapframe} (h : At mem a tf) (hroom : a.toNat + 152 < 2 ^ 32)
    (hmem : ∀ b : Word, a.toNat ≤ b.toNat → b.toNat < a.toNat + 152 → mem' b = mem b) : At mem' a tf := by
  intro i
  have hi := index_lt i
  rw [hmem _ (by rw [frame_toNat hroom]; omega) (by rw [frame_toNat hroom]; omega)]
  exact h i

theorem loadWords_eq (mem : Word → Word) (va : Word) (n : Nat) :
    Faulting.loadWords mem va n = (List.range n).map fun i => mem (va + BitVec.ofNat 32 (4 * i)) := by
  induction n generalizing va with
  | zero => rfl
  | succ n ih =>
    have hnext : ∀ i : Nat, va + 4 + BitVec.ofNat 32 (4 * i) = va + BitVec.ofNat 32 (4 * (i + 1)) := by
      intro i
      rw [BitVec.add_assoc, Nat.mul_succ, Nat.add_comm, BitVec.ofNat_add]
      rfl
    unfold Faulting.loadWords
    rw [ih, List.range_succ_eq_map, List.map_cons, List.map_map, Nat.mul_zero, BitVec.add_zero]
    congr 1
    apply List.map_congr_left
    intro i _
    exact congrArg mem (hnext i)

theorem words_index (tf : Trapframe) (i : Slot) : tf.words[i.index]? = some (i.of tf) := by
  cases i with
  | reg r =>
    have hlen : r.val < ((List.range 32).map tf.regs).length := by simp
    unfold Trapframe.words Slot.index
    rw [List.getElem?_append_left hlen, List.getElem?_map, List.getElem?_range r.isLt]
    rfl
  | _ => rfl

theorem exists_index (n : Nat) (h : n < 38) : ∃ i : Slot, i.index = n := by
  by_cases hreg : n < 32
  · exact ⟨.reg ⟨n, hreg⟩, rfl⟩
  · obtain rfl | rfl | rfl | rfl | rfl | rfl : n = 32 ∨ n = 33 ∨ n = 34 ∨ n = 35 ∨ n = 36 ∨ n = 37 := by omega
    · exact ⟨.status, rfl⟩
    · exact ⟨.hi, rfl⟩
    · exact ⟨.lo, rfl⟩
    · exact ⟨.badVAddr, rfl⟩
    · exact ⟨.cause, rfl⟩
    · exact ⟨.epc, rfl⟩

/-- The frame that the assembly code has is the structure that the C code copies. -/
theorem at_iff_holds {mem : Word → Word} {a : Word} {tf : Trapframe} : At mem a tf ↔ Faulting.Holds mem a tf := by
  have hword : ∀ i : Slot, (Faulting.loadWords mem a 38)[i.index]? = some (mem (a + off i)) := by
    intro i
    rw [loadWords_eq, List.getElem?_map, List.getElem?_range (index_lt i)]
    rfl
  constructor
  · intro h
    apply List.ext_getElem?
    intro n
    by_cases hn : n < 38
    · obtain ⟨i, rfl⟩ := exists_index n hn
      rw [hword, words_index, h i]
    · have hlen : (Faulting.loadWords mem a 38).length = 38 := by simp [loadWords_eq]
      rw [List.getElem?_eq_none (by omega), List.getElem?_eq_none (by rw [Trapframe.length_words]; omega)]
  · intro h i
    have hi := hword i
    rw [h, words_index] at hi
    exact (Option.some.inj hi).symm

end Mos.Genex
