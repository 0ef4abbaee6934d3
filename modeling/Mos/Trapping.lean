import Mos.Genex
/-!
# Trapping — what an exception leaves behind

`entered` is the state in which a handler starts, and `resumed` the one behind `eret`: the frame has the whole context
(`entered_at`), and what is resumed is what the frame has (`resumed_context`).  A handler can be interrupted in its
turn, to any depth (`Goes`).
-/
namespace Mos.Genex

open Mips

variable {l : Layout} {code : Code} {s t u v w : Cpu} {a b : Word} {tf : Trapframe}

/-! ## In -/

/-- `Cause.ExcCode` -/
def excCode (cause : Word) : Fin 32 :=
  ⟨((cause >>> 2) &&& 0x1f).toNat, Nat.lt_of_le_of_lt (by simpa using Nat.and_le_right) (by decide : 31 < 32)⟩

/-- The frame of an exception is below the top of the stack. -/
def stackTop (s : Cpu) : Word := if s.um then kstacktop else s.reg sp

def frameBase (s : Cpu) : Word := stackTop s - tfSize

/-- **The context of what is interrupted**; the place of `k0` has `lo`. -/
def context (s : Cpu) : Trapframe :=
  { regs := fun n => if n = 26 then s.lo else if h : n < 32 then s.reg ⟨n, h⟩ else 0
    cp0Status := s.cop .status, hi := s.hi, lo := s.lo
    cp0Badvaddr := s.cop .badVAddr, cp0Cause := s.cop .cause, cp0Epc := s.cop .epc }

/-- At the label of `SAVE_ALL`. -/
def atLabel (s : Cpu) : Cpu := (s.setReg sp (if s.um then kstacktop else s.reg sp)).setReg k0 (s.reg sp)

/-- **The state in which a handler starts.** -/
def entered (l : Layout) (s : Cpu) : Cpu := effects (effects (effects (atLabel s) saveAll) clearStatus) (dispatch l)

/-- The frame does not go round the end of memory, and the stack has not come down to the table. -/
def Room (l : Layout) (s : Cpu) : Prop :=
  l.exceptionHandlers.toNat + 128 ≤ (frameBase s).toNat ∧ (frameBase s).toNat + 152 < 2 ^ 32

theorem um_iff (s : Cpu) : s.cop .status &&& statusUm = 0 ↔ s.um = false := by
  have h16 : statusUm = BitVec.twoPow 32 4 := by decide
  unfold Cpu.um
  rw [h16, BitVec.and_twoPow]
  cases (s.cop .status).getLsbD 4 <;> decide

theorem saveSp_runs (h : Loaded code a saveSp) (hq : s.quiet = true) :
    Runs code (s.goto a) ((atLabel s).goto (a + 20)) := by
  obtain ⟨h₀, h₁, h₂, h₃, h₄, -⟩ := h
  have hk : (s.setReg k0 (s.cop .status &&& statusUm)).quiet = true := hq
  have hfirst : Runs code (s.goto a) ((s.setReg k0 (s.cop .status &&& statusUm)).goto (a + 4 + 4)) := by
    have h1 := runs_op h₀ hq
    have h2 : Runs code ((effect s (.mfc0 k0 .status)).goto (a + 4)) _ := runs_op h₁ hq
    have heq : effect (effect s (.mfc0 k0 .status)) (.andi k0 k0 statusUm) =
        s.setReg k0 (s.cop .status &&& statusUm) := by
      simp [effect]
    exact heq ▸ h1.trans h2
  have hbranch := runs_beq h₂ h₃ hk
  have hmove : effect (s.setReg k0 (s.cop .status &&& statusUm)) (.addu k0 sp zero) =
      s.setReg k0 (s.reg sp) := by simp [effect]
  have htaken : (s.setReg k0 (s.cop .status &&& statusUm)).reg k0 =
      (s.setReg k0 (s.cop .status &&& statusUm)).reg zero ↔
      s.um = false := by
    rw [← um_iff]
    simp
  rw [hmove] at hbranch
  simp only [htaken] at hbranch
  cases hum : s.um with
  | false =>
    have hend : atLabel s = s.setReg k0 (s.reg sp) := by
      unfold atLabel
      rw [hum, if_neg Bool.false_ne_true, Cpu.setReg_reg _ _ (by decide)]
    rw [hend, show a + 20 = a + 4 + 4 + 4 + 8 by bv_omega]
    rw [if_pos hum] at hbranch
    exact hfirst.trans hbranch
  | true =>
    rw [if_neg (by simp [hum]), show a + 4 + 4 + 8 = a + 4 + 4 + 4 + 4 by bv_omega] at hbranch
    have hlui : Runs code ((s.setReg k0 (s.reg sp)).goto (a + 4 + 4 + 4 + 4)) _ := runs_op h₄ hq
    have hend : effect (s.setReg k0 (s.reg sp)) (.lui sp 0x8040) = atLabel s := by
      unfold atLabel
      rw [hum, if_pos rfl, Cpu.setReg_comm _ _ _ _ _ (by decide)]
      rfl
    rw [hend, show a + 4 + 4 + 4 + 4 + 4 = a + 20 by bv_omega] at hlui
    exact (hfirst.trans hbranch).trans hlui

/-- What `SAVE_ALL` stores, in its order. -/
def order : List Slot := [.reg sp, .status, .cause, .epc, .badVAddr, .hi, .lo] ++ saved.map .reg

theorem mem_order (i : Slot) : i ∈ order := by
  cases i with
  | reg r =>
    revert r
    decide
  | _ => decide

/-- The words that are stored: `k0` has the stack pointer at first, and `lo` at last. -/
def held (s : Cpu) : Slot → Word
  | .reg r => if r = sp then s.reg k0 else if r = k0 then s.lo else s.reg r
  | .status => s.cop .status
  | .hi => s.hi
  | .lo => s.lo
  | .badVAddr => s.cop .badVAddr
  | .cause => s.cop .cause
  | .epc => s.cop .epc

theorem held_atLabel (s : Cpu) (i : Slot) : held (atLabel s) i = i.of (context s) := by
  cases i with
  | reg r =>
    unfold held atLabel Slot.of context
    by_cases hsp : r = sp
    · subst hsp
      simp
    · by_cases hk : r = k0
      · subst hk
        simp
      · have hne : r.val ≠ 26 := fun h => hk (Fin.ext h)
        by_cases h0 : r = 0
        · subst h0
          simp [hsp, hk]
        · simp [hsp, hk, h0, hne]
  | _ => rfl

theorem effects_cop (m : Cpu) (b w o : Word) (c : Cop) (os : List Op) :
    effects ((m.setReg sp b).setReg k0 w) (.mfc0 k0 c :: .sw k0 o sp :: os) =
      effects (((m.store (b + o) (m.cop c)).setReg sp b).setReg k0 (m.cop c)) os := by
  simp [effect]

theorem effects_hi (m : Cpu) (b w o : Word) (os : List Op) :
    effects ((m.setReg sp b).setReg k0 w) (.mfhi k0 :: .sw k0 o sp :: os) =
      effects (((m.store (b + o) m.hi).setReg sp b).setReg k0 m.hi) os := by
  simp [effect]

theorem effects_lo (m : Cpu) (b w o : Word) (os : List Op) :
    effects ((m.setReg sp b).setReg k0 w) (.mflo k0 :: .sw k0 o sp :: os) =
      effects (((m.store (b + o) m.lo).setReg sp b).setReg k0 m.lo) os := by
  simp [effect]

theorem effects_sp (s : Cpu) (n o : Word) (os : List Op) :
    effects s (.addiu sp sp n :: .sw k0 o sp :: os) =
      effects (((s.store (s.reg sp + n + o) (s.reg k0)).setReg sp (s.reg sp + n)).setReg k0 (s.reg k0)) os := by
  have hk : ((s.store (s.reg sp + n + o) (s.reg k0)).setReg sp (s.reg sp + n)).reg k0 = s.reg k0 := by simp
  have hself := Cpu.setReg_reg ((s.store (s.reg sp + n + o) (s.reg k0)).setReg sp (s.reg sp + n)) k0 (by decide)
  rw [hk] at hself
  rw [hself]
  simp [effect]

theorem effects_saveCop (s : Cpu) : effects s saveCop =
    ((s.storeAll (s.reg sp + -tfSize) off (held s) [.reg sp, .status, .cause, .epc, .badVAddr, .hi, .lo]).setReg sp
      (s.reg sp + -tfSize)).setReg k0 s.lo := by
  unfold saveCop
  rw [effects_sp, effects_cop, effects_cop, effects_cop, effects_cop, effects_hi, effects_lo]
  simp only [Cpu.storeAll_cons, Cpu.storeAll_nil, held, effects_nil, if_true]
  rfl

theorem effects_saveAll (s : Cpu) : effects s saveAll =
    ((s.storeAll (s.reg sp + -tfSize) off (held s) order).setReg sp (s.reg sp + -tfSize)).setReg k0 s.lo := by
  have hregs : ∀ r ∈ saved, (effects s saveCop).reg r = held s (.reg r) := by
    intro r hr
    have hsp : r ≠ sp := fun h => absurd (h ▸ hr) (by decide)
    rw [effects_saveCop]
    unfold held
    by_cases h0 : r = 0
    · subst h0
      simp
    · simp [hsp, h0]
  have hbase : (effects s saveCop).reg sp = s.reg sp + -tfSize := by
    rw [effects_saveCop]
    simp
  have hstore : (effects s saveCop).storeAll (s.reg sp + -tfSize) (fun r => off (.reg r))
      (effects s saveCop).reg saved =
      (effects s saveCop).storeAll (s.reg sp + -tfSize) (off ∘ Slot.reg) (held s ∘ Slot.reg) saved := by
    unfold Cpu.storeAll
    rw [stored_congr hregs]
    rfl
  unfold saveAll order
  rw [effects_append, effects_sw, hbase, hstore, effects_saveCop, Cpu.storeAll_setReg, Cpu.storeAll_setReg,
    ← Cpu.storeAll_map,
    ← Cpu.storeAll_append]

theorem saveAll_plain : ∀ o ∈ saveAll, o.plain = true := by decide

theorem restoreAll_plain : ∀ o ∈ restoreAll, o.plain = true := by decide

theorem dispatch_plain (l : Layout) : ∀ o ∈ dispatch l, o.plain = true := by simp [dispatch, Op.plain]

/-! ## The handler is found -/

theorem high_low (a : Word) : high a <<< 16 + low a = a := by
  have hlow : (low a).toNat = a.toNat % 65536 + if (a.setWidth 16).msb then 4294901760 else 0 := by
    unfold low
    rw [BitVec.toNat_signExtend]
    simp
    omega
  have ha := a.isLt
  have hsub : (a - low a).toNat % 65536 = 0 := by
    rw [BitVec.toNat_sub, hlow]
    split <;> omega
  have hhigh : high a <<< 16 = a - low a := by
    apply BitVec.eq_of_toNat_eq
    have hlt := (a - low a).isLt
    unfold high
    rw [BitVec.toNat_shiftLeft, BitVec.toNat_ushiftRight, Nat.shiftLeft_eq, Nat.shiftRight_eq_div_pow]
    omega
  rw [hhigh, BitVec.sub_add_cancel]

theorem excCode_offset (c : Word) : c &&& 0x7c = BitVec.ofNat 32 (4 * (excCode c).val) := by
  have hmul : BitVec.ofNat 32 (4 * (excCode c).val) = ((c >>> 2) &&& 0x1f) <<< 2 := by
    apply BitVec.eq_of_toNat_eq
    unfold excCode
    rw [BitVec.toNat_shiftLeft, BitVec.toNat_ofNat, Nat.shiftLeft_eq, Nat.mul_comm]
  rw [hmul]
  apply BitVec.eq_of_getLsbD_eq
  intro i hi
  interval_cases i <;> simp

theorem clearStatus_mem (u : Cpu) : (effects u clearStatus).mem = u.mem := rfl

theorem clearStatus_status (u : Cpu) :
    (effects u clearStatus).cop .status = u.cop .status &&& ~~~(statusUm ||| statusExl ||| statusIe) := by
  simp [clearStatus, effect]

theorem clearStatus_quiet (u : Cpu) : (effects u clearStatus).quiet = true := by
  have hum : (effects u clearStatus).um = false := by
    unfold Cpu.um
    rw [clearStatus_status]
    simp [statusUm, statusExl, statusIe]
  have hie : (effects u clearStatus).ie = false := by
    unfold Cpu.ie
    rw [clearStatus_status]
    simp [statusUm, statusExl, statusIe]
  unfold Cpu.quiet
  rw [hum, hie]
  simp

theorem clearStatus_cause (u : Cpu) : (effects u clearStatus).cop .cause = u.cop .cause := by simp [clearStatus, effect]

theorem clearStatus_runs (h : Loaded code a (clearStatus.map .op)) (hq : u.quiet = true) :
    Runs code (u.goto a) ((effects u clearStatus).goto (a + 16)) := by
  obtain ⟨h₀, h₁, h₂, h₃, -⟩ := h
  have hops := (((runs_op h₀ hq).trans (runs_op h₁ hq)).trans (runs_op h₂ hq)).trans (runs_op h₃ hq)
  have hend : a + 4 + 4 + 4 + 4 = a + 16 := by bv_omega
  rw [hend] at hops
  exact hops

theorem dispatch_status (l : Layout) (u : Cpu) : (effects u (dispatch l)).cop = u.cop := rfl

theorem dispatch_t0 (l : Layout) (u : Cpu) :
    (effects u (dispatch l)).reg t0 = u.mem (l.exceptionHandlers + (u.cop .cause &&& 0x7c)) := by
  have haddr : high l.exceptionHandlers <<< 16 + (u.cop .cause &&& 0x7c) + low l.exceptionHandlers =
      l.exceptionHandlers + (u.cop .cause &&& 0x7c) := by
    rw [BitVec.add_assoc, BitVec.add_comm (_ &&& _), ← BitVec.add_assoc, high_low]
  rw [← haddr]
  simp [dispatch, effect]

theorem base_atLabel (s : Cpu) : (atLabel s).reg sp + -tfSize = frameBase s := by
  unfold atLabel frameBase stackTop
  rw [BitVec.sub_eq_add_neg]
  simp

theorem saveAll_mem (s : Cpu) :
    (effects (atLabel s) saveAll).mem = stored s.mem (frameBase s) off (fun i => i.of (context s)) order := by
  have hheld : ∀ i ∈ order, held (atLabel s) i = i.of (context s) := fun i _ => held_atLabel s i
  rw [← stored_congr hheld, effects_saveAll, base_atLabel]
  simp only [Cpu.mem_setReg, Cpu.mem_storeAll, atLabel]

theorem saveAll_sp (s : Cpu) : (effects (atLabel s) saveAll).reg sp = frameBase s := by
  rw [effects_saveAll, base_atLabel]
  simp

theorem entered_mem (l : Layout) (s : Cpu) :
    (entered l s).mem = stored s.mem (frameBase s) off (fun i => i.of (context s)) order :=
  saveAll_mem s

/-- **The frame has the whole context.** -/
theorem entered_at (l : Layout) (s : Cpu) : At (entered l s).mem (frameBase s) (context s) := by
  intro i
  rw [entered_mem]
  exact stored_mem off_injective (mem_order i)

theorem entered_other (h : (frameBase s).toNat + 152 < 2 ^ 32)
    (hb : b.toNat < (frameBase s).toNat ∨ (frameBase s).toNat + 152 ≤ b.toNat) : (entered l s).mem b = s.mem b := by
  rw [entered_mem]
  refine stored_other fun i _ heq => ?_
  have hi := index_lt i
  rw [heq, frame_toNat h] at hb
  omega

theorem dispatch_sp (l : Layout) (u : Cpu) : (effects (effects u clearStatus) (dispatch l)).reg sp = u.reg sp := by
  simp [clearStatus, dispatch, effect]

theorem entered_sp (l : Layout) (s : Cpu) : (entered l s).reg sp = frameBase s := (dispatch_sp l _).trans (saveAll_sp s)

theorem entered_quiet (l : Layout) (s : Cpu) : (entered l s).quiet = true :=
  (Cpu.quiet_congr (congrFun (dispatch_status l (effects (effects (atLabel s) saveAll) clearStatus)) .status)).trans
    (clearStatus_quiet (effects (atLabel s) saveAll))

theorem saveAll_status (s : Cpu) : (effects (atLabel s) saveAll).cop = s.cop := by
  rw [effects_saveAll]
  simp [atLabel]

theorem entered_t0 (ht : Table l s.mem) (hr : Room l s) :
    (entered l s).reg t0 = l.handler (excCode (s.cop .cause)) := by
  have htable : (entered l s).mem (l.exceptionHandlers + BitVec.ofNat 32 (4 * (excCode (s.cop .cause)).val)) =
      l.handler (excCode (s.cop .cause)) := by
    have hi := (excCode (s.cop .cause)).isLt
    rw [entered_other hr.2, ht]
    left
    have := hr.1
    rw [BitVec.toNat_add, BitVec.toNat_ofNat]
    omega
  have hcause : (effects (effects (atLabel s) saveAll) clearStatus).cop .cause = s.cop .cause :=
    (clearStatus_cause _).trans (congrFun (saveAll_status s) .cause)
  have hread := dispatch_t0 l (effects (effects (atLabel s) saveAll) clearStatus)
  rw [hcause, excCode_offset] at hread
  rw [entered_mem, ← saveAll_mem s, ← clearStatus_mem] at htable
  unfold entered
  exact hread.trans htable

/-- **From the vector to the handler of the exception.** -/
theorem excGenEntry_runs (hl : Linked l code) (hq : s.quiet = true) (ht : Table l s.mem) (hr : Room l s) :
    Runs code (s.goto l.excGenEntry) ((entered l s).goto (l.handler (excCode (s.cop .cause)))) := by
  have hload := hl.excGenEntry
  unfold Layout.excGenEntryCode at hload
  simp only [loaded_append, List.length_map] at hload
  obtain ⟨hsp, hsave, hclear, hdispatch, hjump, hslot, -⟩ := hload
  have h1 := saveSp_runs hsp hq
  have hq₂ : (effects (atLabel s) saveAll).quiet = true := by
    rw [Cpu.quiet_congr (congrFun (saveAll_status s) .status), hq]
  have hqa : (atLabel s).quiet = true := hq
  have h2 := runs_line saveAll_plain hsave hqa
  have h3 := clearStatus_runs hclear hq₂
  have h4 := runs_line (dispatch_plain l) hdispatch (clearStatus_quiet (effects (atLabel s) saveAll))
  have h5 := runs_jr hjump hslot (entered_quiet l s)
  rw [entered_t0 ht hr] at h5
  exact (((h1.trans h2).trans h3).trans h4).trans h5

/-! ## The stub -/

/-- **The state in which a C function is called.** -/
def called (h : Word) (u : Cpu) : Cpu := ((u.setReg a0 (u.reg sp)).setReg sp (u.reg sp + -8)).setReg ra (h + 16)

theorem buildHandler_calls {f : Word} (hload : Loaded code a (l.buildHandler f)) (hq : u.quiet = true) :
    Runs code (u.goto a) ((called a u).goto f) := by
  obtain ⟨h₀, h₁, h₂, h₃, -⟩ := hload
  have hops := (runs_op h₀ hq).trans (runs_op h₁ hq)
  have hq₂ : (effect (effect u (.addu a0 sp zero)) (.addiu sp sp (-8))).quiet = true := hq
  have hjal := runs_jal h₂ h₃ hq₂
  have hend : effect ((effect (effect u (.addu a0 sp zero)) (.addiu sp sp (-8))).setReg ra (a + 4 + 4 + 8)) .nop =
      called a u := by
    have hra : a + 4 + 4 + 8 = a + 16 := by bv_omega
    unfold called
    rw [hra]
    simp [effect]
  rw [hend] at hjal
  exact hops.trans hjal

theorem buildHandler_returns {f : Word} (hload : Loaded code a (l.buildHandler f)) (hq : w.quiet = true) :
    Runs code (w.goto (a + 16)) ((w.setReg sp (w.reg sp + 8)).goto l.retFromException) := by
  obtain ⟨-, -, -, -, h₄, h₅, h₆, -⟩ := hload
  have ha : a + 4 + 4 + 4 + 4 = a + 16 := by bv_omega
  rw [ha] at h₄ h₅ h₆
  have hq₂ : (effect w (.addiu sp sp 8)).quiet = true := hq
  exact (runs_op h₄ hq).trans (runs_j h₅ h₆ hq₂)

/-! ## Out -/

/-- The status register is loaded first. -/
def statusLoaded (w : Cpu) : Cpu :=
  (w.setReg v0 (w.mem (w.reg sp + off .status))).setCop .status (w.mem (w.reg sp + off .status))

/-- **The state behind `eret`.** -/
def resumed (w : Cpu) : Cpu := (effects (statusLoaded w) restoreAll).leave

/-- What the frame has is what goes on. -/
structure Resumes (tf : Trapframe) (w x : Cpu) : Prop where
  reg : ∀ r : Reg, r ≠ 0 → r ≠ k0 → r ≠ k1 → x.reg r = tf.regs r.val
  scratch : ∀ r : Reg, r = k0 ∨ r = k1 → x.reg r = w.reg r
  hi : x.hi = tf.hi
  lo : x.lo = tf.lo
  status : x.cop .status = tf.cp0Status &&& ~~~statusExl
  cop : ∀ c, c ≠ .status → c ≠ .epc → x.cop c = w.cop c
  pc : x.pc = tf.cp0Epc
  npc : x.npc = tf.cp0Epc + 4
  mem : x.mem = w.mem
  tlb : x.tlb = w.tlb

theorem restoreCop_keeps (u : Cpu) (r : Reg) (h0 : r ≠ v0) (h1 : r ≠ v1) : (effects u restoreCop).reg r = u.reg r := by
  by_cases hr : r = 0
  · subst hr
    rfl
  · simp [restoreCop, effect, h0, h1, hr]

theorem restoreCop_cop (u : Cpu) (c : Cop) :
    (effects u restoreCop).cop c = if c = .epc then u.mem (u.reg sp + off .epc) else u.cop c := by
  simp [restoreCop, effect]

theorem mem_restored : ∀ r : Reg, r ≠ 0 → r ≠ k0 → r ≠ k1 → r ≠ sp → r ∈ restored := by decide

theorem not_restored : ∀ r : Reg, r = k0 ∨ r = k1 → r ∉ restored := by decide

/-- Registers are loaded from the frame. -/
def loads (u : Cpu) (rs : List Reg) : Cpu :=
  { u with regs := fun r => if r ∈ rs then u.mem (u.reg sp + off (.reg r)) else u.regs r }

theorem loads_reg (u : Cpu) (rs : List Reg) (r : Reg) :
    (loads u rs).reg r = if r = 0 then 0 else if r ∈ rs then u.mem (u.reg sp + off (.reg r)) else u.reg r := by
  unfold loads Cpu.reg
  by_cases h0 : r = 0 <;> simp [h0]

theorem effects_restoreAll (u : Cpu) : effects u restoreAll =
    (loads (effects u restoreCop) restored).setReg sp (u.mem (u.reg sp + off (.reg sp))) := by
  have hload : effects (effects u restoreCop) (restored.map fun r => .lw r (off (.reg r)) sp) =
      loads (effects u restoreCop) restored :=
    effects_lw _ (by decide)
  have hsp : (loads (effects u restoreCop) restored).reg sp = u.reg sp := by
    rw [loads_reg, if_neg (by decide), if_neg (by decide)]
    exact restoreCop_keeps u sp (by decide) (by decide)
  unfold restoreAll
  rw [effects_append, effects_append, hload, effects_cons, effects_nil]
  unfold effect
  simp only
  rw [hsp]
  rfl

theorem restoreAll_reg (u : Cpu) (r : Reg) (h0 : r ≠ 0) (hk : r ≠ k0) (hk' : r ≠ k1) :
    (effects u restoreAll).reg r = u.mem (u.reg sp + off (.reg r)) := by
  rw [effects_restoreAll, Cpu.reg_setReg, if_neg h0]
  by_cases hsp : r = sp
  · rw [if_pos hsp, hsp]
  · have hbase : (effects u restoreCop).reg sp = u.reg sp := restoreCop_keeps u sp (by decide) (by decide)
    rw [if_neg hsp, loads_reg, if_neg h0, if_pos (mem_restored r h0 hk hk' hsp), hbase]
    rfl

theorem restoreAll_scratch (u : Cpu) (r : Reg) (h : r = k0 ∨ r = k1) : (effects u restoreAll).reg r = u.reg r := by
  have h0 : r ≠ 0 := by rcases h with rfl | rfl <;> decide
  have hsp : r ≠ sp := by rcases h with rfl | rfl <;> decide
  have hv0 : r ≠ v0 := by rcases h with rfl | rfl <;> decide
  have hv1 : r ≠ v1 := by rcases h with rfl | rfl <;> decide
  rw [effects_restoreAll, Cpu.reg_setReg, if_neg h0, if_neg hsp, loads_reg, if_neg h0, if_neg (not_restored r h),
    restoreCop_keeps u r hv0 hv1]

theorem restoreAll_cop (u : Cpu) (c : Cop) :
    (effects u restoreAll).cop c = if c = .epc then u.mem (u.reg sp + off .epc) else u.cop c := by
  rw [effects_restoreAll, Cpu.cop_setReg]
  exact restoreCop_cop u c

theorem restoreAll_hi (u : Cpu) : (effects u restoreAll).hi = u.mem (u.reg sp + off .hi) := by
  have hcop : (effects u restoreCop).hi = u.mem (u.reg sp + off .hi) := by simp [restoreCop, effect]
  rw [effects_restoreAll, ← hcop]
  rfl

theorem restoreAll_lo (u : Cpu) : (effects u restoreAll).lo = u.mem (u.reg sp + off .lo) := by
  have hcop : (effects u restoreCop).lo = u.mem (u.reg sp + off .lo) := by simp [restoreCop, effect]
  rw [effects_restoreAll, ← hcop]
  rfl

theorem restoreAll_mem (u : Cpu) : (effects u restoreAll).mem = u.mem := by
  rw [effects_restoreAll]
  rfl

theorem restoreAll_tlb (u : Cpu) : (effects u restoreAll).tlb = u.tlb := by
  rw [effects_restoreAll]
  rfl

theorem statusLoaded_sp (w : Cpu) : (statusLoaded w).reg sp = w.reg sp := by simp [statusLoaded]

/-- **What is resumed** is the context of the frame. -/
theorem resumed_context (h : At w.mem (w.reg sp) tf) (herl : tf.cp0Status.getLsbD 2 = false) :
    Resumes tf w (resumed w) := by
  have hstatus : (statusLoaded w).cop .status = tf.cp0Status := by simp [statusLoaded, h .status, Slot.of]
  have hword : ∀ i : Slot, (statusLoaded w).mem ((statusLoaded w).reg sp + off i) = i.of tf := by
    intro i
    rw [statusLoaded_sp]
    exact h i
  have hepc : (effects (statusLoaded w) restoreAll).cop .epc = tf.cp0Epc := by
    rw [restoreAll_cop, if_pos rfl]
    exact hword .epc
  have hst : (effects (statusLoaded w) restoreAll).cop .status = tf.cp0Status := by
    rw [restoreAll_cop, if_neg (by decide), hstatus]
  have hleave : resumed w =
      ((effects (statusLoaded w) restoreAll).setCop .status (tf.cp0Status &&& ~~~statusExl)).goto tf.cp0Epc := by
    have he : (effects (statusLoaded w) restoreAll).erl = false := by
      unfold Cpu.erl
      rw [hst, herl]
    unfold resumed Cpu.leave
    rw [he, if_neg Bool.false_ne_true, hst, hepc]
    rfl
  rw [hleave]
  refine ⟨fun r h0 hk hk' => ?_, fun r hr => ?_, ?_, ?_, ?_, fun c hs he => ?_, ?_, ?_, ?_, ?_⟩
  · rw [Cpu.reg_goto, Cpu.reg_setCop, restoreAll_reg _ r h0 hk hk']
    exact hword (.reg r)
  · rw [Cpu.reg_goto, Cpu.reg_setCop, restoreAll_scratch _ r hr]
    rcases hr with rfl | rfl <;> simp [statusLoaded]
  · rw [Cpu.hi_goto, Cpu.hi_setCop, restoreAll_hi]
    exact hword .hi
  · rw [Cpu.lo_goto, Cpu.lo_setCop, restoreAll_lo]
    exact hword .lo
  · rw [Cpu.cop_goto, Cpu.cop_setCop, if_pos rfl]
  · rw [Cpu.cop_goto, Cpu.cop_setCop, if_neg hs, restoreAll_cop, if_neg he]
    simp [statusLoaded, hs]
  · rw [Cpu.pc_goto]
  · rw [Cpu.npc_goto]
  · rw [Cpu.mem_goto, Cpu.mem_setCop, restoreAll_mem]
    rfl
  · rw [Cpu.tlb_goto, Cpu.tlb_setCop, restoreAll_tlb]
    rfl

theorem retFromException_runs (hl : Linked l code) (hq : w.quiet = true) (h : At w.mem (w.reg sp) tf)
    (hexl : tf.cp0Status.getLsbD 1 = true) : Runs code (w.goto l.retFromException) (resumed w) := by
  have hload := hl.retFromException
  unfold Layout.retFromExceptionCode at hload
  simp only [loaded_append, List.length_map] at hload
  obtain ⟨⟨h₀, h₁, -⟩, hrest, heret, -⟩ := hload
  have hop₀ : Runs code (w.goto l.retFromException)
      ((w.setReg v0 (w.mem (w.reg sp + off .status))).goto (l.retFromException + 4)) :=
    runs_op h₀ hq
  have hq₁ : (w.setReg v0 (w.mem (w.reg sp + off .status))).quiet = true := hq
  have hop₁ := runs_op h₁ hq₁
  have hset : effect (w.setReg v0 (w.mem (w.reg sp + off .status))) (.mtc0 v0 .status) = statusLoaded w := by
    simp [effect, statusLoaded]
  rw [hset] at hop₁
  have hq₂ : (statusLoaded w).quiet = true := by
    have he : (statusLoaded w).exl = true := by
      unfold Cpu.exl
      simp [statusLoaded, h .status, Slot.of, hexl]
    unfold Cpu.quiet
    rw [he]
    rfl
  have hline := runs_line restoreAll_plain hrest hq₂
  have hq₃ : (effects (statusLoaded w) restoreAll).quiet = true :=
    (Cpu.quiet_congr (effects_status restoreAll_plain _)).trans hq₂
  have hend := runs_eret heret hq₃
  have ha : l.retFromException + 4 + 4 = l.retFromException + 8 := BitVec.add_assoc _ 4 4
  rw [ha] at hop₁
  exact ((hop₀.trans hop₁).trans hline).trans hend

end Mos.Genex
