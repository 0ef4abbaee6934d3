import Mos.Reentry
/-!
# TlbAsm — the TLB from assembly code

`tlb_asm.S`.  The TLB of the model has the entries that translate something; the processor has always as many, and
empties one in place. `tlb_out` is `tlbOut` of the model, and `do_tlb_refill` is `tlbwr` behind its C function.
-/
namespace Mos.Genex

open Mips

namespace Layout

/-- `tlb_out`, to its branch. -/
def tlbProbe : List Op := [.mfc0 t0 .entryHi, .mtc0 a0 .entryHi, .nop, .tlbp, .nop, .mfc0 t1 .index]

def tlbClear : List Op := [.mtc0 zero .entryHi, .mtc0 zero .entryLo0, .mtc0 zero .entryLo1, .nop, .tlbwi]

/-- `tlb_out` -/
def tlbOutCode : List Instr :=
  tlbProbe.map .op ++ ([.bltz t1 24, .op .nop] ++ (tlbClear.map .op ++ [.op (.mtc0 t0 .entryHi), .jr ra, .op .nop]))

/-- What `do_tlb_refill` does before its call, where no `addi` overflows. -/
def refillHead : List Op :=
  [.mfc0 a1 .badVAddr, .mfc0 a2 .entryHi, .andi a2 a2 0xff, .addiu sp sp (-24), .sw ra 20 sp, .addiu a0 sp 12]

/-- What it does behind the call, where no `addi` overflows. -/
def refillTail : List Op :=
  [.lw a0 12 sp, .lw a1 16 sp, .lw ra 20 sp, .addiu sp sp 24, .mtc0 a0 .entryLo0, .mtc0 a1 .entryLo1, .nop, .tlbwr]

/-- `do_tlb_refill` -/
def doTlbRefillCode (l : Layout) : List Instr :=
  [.op (.mfc0 a1 .badVAddr), .op (.mfc0 a2 .entryHi), .op (.andi a2 a2 0xff), .addi sp sp (-24),
    .op (.sw ra 20 sp), .addi a0 sp 12,
    .jal l.doTlbRefillC, .op .nop, .op (.lw a0 12 sp), .op (.lw a1 16 sp), .op (.lw ra 20 sp), .addi sp sp 24,
    .op (.mtc0 a0 .entryLo0), .op (.mtc0 a1 .entryLo1), .op .nop, .op .tlbwr, .jr ra, .op .nop]

end Layout

variable {l : Layout} {code : Code} {s t u v w : Cpu} {a hi : Word} {tlb : List Entry} {p : Pmap}

/-! ## The entries that translate -/

/-- One of the two pages is valid. -/
def live (e : Entry) : Bool := (e.lo0 ||| e.lo1) &&& 2 != 0

def toTlb (e : Entry) : TlbEntry := ⟨e.hi, e.lo0, e.lo1⟩

/-- **The TLB of the model** has the entries that translate, in any order. -/
def Shows (tlb : List Entry) (p : Pmap) : Prop := ((tlb.filter live).map toTlb).Perm p.tlb

/-- `tlbp` can find one entry at most. -/
def Single (tlb : List Entry) (hi : Word) : Prop := tlb.countP (fun e => e.probe hi) ≤ 1

/-- The first entry that is found is emptied. -/
def emptied (tlb : List Entry) (hi : Word) : List Entry :=
  match tlb.findIdx? fun e => e.probe hi with
  | some i => tlb.set i ⟨0, 0, 0⟩
  | none => tlb

theorem filter_emptied (h : Single tlb hi) :
    (emptied tlb hi).filter live = (tlb.filter live).filter fun e => !e.probe hi := by
  unfold emptied Single at *
  induction tlb with
  | nil => rfl
  | cons e es ih =>
    rw [List.countP_cons] at h
    rw [List.findIdx?_cons]
    by_cases he : e.probe hi = true
    · rw [if_pos he] at h
      have hnone : ∀ e' ∈ es, e'.probe hi = false := by
        have hzero : es.countP (fun e => e.probe hi) = 0 := by omega
        simpa using List.countP_eq_zero.1 hzero
      have hkeep : (es.filter live).filter (fun e => !e.probe hi) = es.filter live :=
        List.filter_eq_self.2 fun e' he' => by simp [hnone e' (List.mem_of_mem_filter he')]
      have hblank : live ⟨0, 0, 0⟩ = false := by decide
      rw [if_pos he]
      simp only [List.set_cons_zero]
      rw [List.filter_cons_of_neg (by rw [hblank]; exact Bool.false_ne_true)]
      by_cases hl : live e = true
      · rw [List.filter_cons_of_pos hl, List.filter_cons_of_neg (by simp [he]), hkeep]
      · rw [List.filter_cons_of_neg hl, hkeep]
    · rw [if_neg he] at h
      have hrest := ih (by omega)
      rw [if_neg he]
      have hcons : ∀ es' : List Entry, es'.filter live = (es.filter live).filter (fun e => !e.probe hi) →
          (e :: es').filter live = ((e :: es).filter live).filter fun e => !e.probe hi := by
        intro es' hes
        by_cases hl : live e = true
        · rw [List.filter_cons_of_pos hl, List.filter_cons_of_pos hl, List.filter_cons_of_pos (by simp [he]), hes]
        · rw [List.filter_cons_of_neg hl, List.filter_cons_of_neg hl, hes]
      cases hfind : es.findIdx? fun e => e.probe hi with
      | none =>
        rw [hfind] at hrest
        exact hcons es hrest
      | some i =>
        rw [hfind] at hrest
        exact hcons _ hrest

/-- **Emptying an entry is `tlbOut`** of the model. -/
theorem shows_emptied (h : Shows tlb p) (hone : Single tlb hi) : Shows (emptied tlb hi) (tlbOut p hi) := by
  have hmap : ((tlb.filter live).filter fun e => !e.probe hi).map toTlb = ((tlb.filter live).map toTlb).filter
      fun e => !e.probe hi := by
    rw [List.filter_map]
    rfl
  unfold Shows tlbOut
  rw [filter_emptied hone, hmap]
  exact h.filter _

/-- **Writing an entry is `tlbwr`** of the model, for the entry that is lost, if it translates, or for none. -/
theorem shows_set {n : Nat} {e : Entry} (h : Shows tlb p) (hn : n < tlb.length) (he : live e = true) :
    ∃ victim, p.tlb[victim]? = (tlb[n]?.filter live).map toTlb ∧ Shows (tlb.set n e) (tlbwr p victim (toTlb e)) := by
  have hsplit : tlb = tlb.take n ++ tlb[n] :: tlb.drop (n + 1) := by simp
  have hset : tlb.set n e = tlb.take n ++ e :: tlb.drop (n + 1) := List.set_eq_take_append_cons_drop.trans (if_pos hn)
  unfold Shows tlbwr at *
  rw [hset, List.filter_append, List.filter_cons_of_pos he, List.map_append, List.map_cons]
  rw [hsplit, List.filter_append, List.map_append] at h
  by_cases hl : live tlb[n] = true
  · rw [List.filter_cons_of_pos hl, List.map_cons] at h
    have hmem : toTlb tlb[n] ∈ p.tlb := h.subset (by simp)
    obtain ⟨i, hi, hget⟩ := List.getElem_of_mem hmem
    have hperm : p.tlb.Perm (toTlb tlb[n] :: p.tlb.eraseIdx i) := by
      rw [← hget]
      exact (List.getElem_cons_eraseIdx_perm hi).symm
    refine ⟨i, ?_, List.perm_middle.trans (List.Perm.cons _ ?_)⟩
    · rw [List.getElem?_eq_getElem hn, List.getElem?_eq_getElem hi, hget, Option.filter_some, if_pos hl]
      rfl
    exact List.Perm.cons_inv ((List.perm_middle.symm.trans h).trans hperm)
  · rw [List.filter_cons_of_neg hl] at h
    refine ⟨p.tlb.length, ?_, List.perm_middle.trans (List.Perm.cons _ ?_)⟩
    · rw [List.getElem?_eq_getElem hn, List.getElem?_eq_none (Nat.le_refl _), Option.filter_some, if_neg hl]
      rfl
    rw [List.eraseIdx_of_length_le (Nat.le_refl _)]
    exact h

/-! ## `tlb_out` -/

theorem probed_none (h : (tlb.findIdx? fun e => e.probe hi) = none) : (probed tlb hi).msb = true := by
  unfold probed
  rw [h]
  rfl

theorem probed_some {i : Nat} (h : (tlb.findIdx? fun e => e.probe hi) = some i) (hi' : i < 2 ^ 31) :
    (probed tlb hi).msb = false ∧ (probed tlb hi).toNat = i := by
  have hnat : (BitVec.ofNat 32 i).toNat = i := by
    rw [BitVec.toNat_ofNat]
    omega
  unfold probed
  rw [h]
  refine ⟨?_, hnat⟩
  rw [BitVec.msb_eq_false_iff_two_mul_lt, hnat]
  omega

theorem tlbProbe_t0 (s : Cpu) : (effects s Layout.tlbProbe).reg t0 = s.cop .entryHi := by simp [Layout.tlbProbe, effect]

theorem tlbProbe_t1 (s : Cpu) : (effects s Layout.tlbProbe).reg t1 = probed s.tlb (s.reg a0) :=
  by simp [Layout.tlbProbe, effect]

theorem tlbProbe_index (s : Cpu) : (effects s Layout.tlbProbe).cop .index = probed s.tlb (s.reg a0) :=
  by simp [Layout.tlbProbe, effect]

theorem tlbProbe_status (s : Cpu) : (effects s Layout.tlbProbe).cop .status = s.cop .status :=
  by simp [Layout.tlbProbe, effect]

theorem tlbProbe_tlb (s : Cpu) : (effects s Layout.tlbProbe).tlb = s.tlb := rfl

theorem tlbProbe_mem (s : Cpu) : (effects s Layout.tlbProbe).mem = s.mem := rfl

theorem tlbProbe_reg (s : Cpu) (r : Reg) (h0 : r ≠ t0) (h1 : r ≠ t1) : (effects s Layout.tlbProbe).reg r = s.reg r := by
  have h8 : r ≠ 8 := h0
  have h9 : r ≠ 9 := h1
  by_cases hr : r = 0
  · subst hr
    rfl
  · simp [Layout.tlbProbe, effect, h8, h9, hr]

theorem tlbClear_tlb (s : Cpu) : (effects s Layout.tlbClear).tlb = s.tlb.set (s.cop .index).toNat ⟨0, 0, 0⟩ := by
  simp [Layout.tlbClear, effect, Cpu.entry]

theorem tlbClear_status (s : Cpu) : (effects s Layout.tlbClear).cop .status = s.cop .status :=
  by simp [Layout.tlbClear, effect]

theorem tlbOut_end (a : Word) : a + 4 * BitVec.ofNat 32 Layout.tlbProbe.length +
    4 * BitVec.ofNat 32 [Instr.bltz t1 24, Instr.op Op.nop].length + 4 *
    BitVec.ofNat 32 Layout.tlbClear.length = a + 52 := by
  rw [BitVec.add_assoc, BitVec.add_assoc]
  rfl

/-- `tlb_out` to its label: the entry that is found, if there is one, is emptied. -/
theorem tlbOut_label (hload : Loaded code l.tlbOut Layout.tlbOutCode) (hq : s.quiet = true)
    (hlen : s.tlb.length < 2 ^ 31) :
    ∃ x : Cpu, Runs code (s.goto l.tlbOut) (x.goto (l.tlbOut + 52)) ∧ x.tlb = emptied s.tlb (s.reg a0) ∧
      (∀ r, x.reg r = (effects s Layout.tlbProbe).reg r) ∧ x.mem = s.mem ∧ x.cop .status = s.cop .status := by
  unfold Layout.tlbOutCode at hload
  simp only [loaded_append, List.length_map] at hload
  obtain ⟨hprobe, ⟨hb, hd, -⟩, hclear, -⟩ := hload
  have hp₁ : ∀ o ∈ Layout.tlbProbe, o.plain = true := by decide
  have hp₂ : ∀ o ∈ Layout.tlbClear, o.plain = true := by decide
  have hq₁ : (effects s Layout.tlbProbe).quiet = true := (Cpu.quiet_congr (tlbProbe_status s)).trans hq
  have hline := runs_line hp₁ hprobe hq
  have hbranch := runs_bltz hb hd hq₁
  have hnop : effect (effects s Layout.tlbProbe) .nop = effects s Layout.tlbProbe := rfl
  rw [hnop, tlbProbe_t1] at hbranch
  cases hfind : s.tlb.findIdx? fun e => e.probe (s.reg a0) with
  | none =>
    have hend : l.tlbOut + 4 * BitVec.ofNat 32 Layout.tlbProbe.length + 4 + 24 = l.tlbOut + 52 := by
      rw [BitVec.add_assoc, BitVec.add_assoc]
      rfl
    rw [if_pos (probed_none hfind), hend] at hbranch
    refine ⟨_, hline.trans hbranch, ?_, fun _ => rfl, tlbProbe_mem s, tlbProbe_status s⟩
    unfold emptied
    rw [hfind, tlbProbe_tlb]
  | some i =>
    have hi : i < s.tlb.length := (List.findIdx?_eq_some_iff_getElem.1 hfind).1
    obtain ⟨hmsb, hnat⟩ := probed_some hfind (hi.trans hlen)
    have hmid : l.tlbOut + 4 * BitVec.ofNat 32 Layout.tlbProbe.length + 8 =
        l.tlbOut + 4 * BitVec.ofNat 32 Layout.tlbProbe.length + 4 * BitVec.ofNat 32
          [Instr.bltz t1 24, Instr.op Op.nop].length := rfl
    rw [hmsb, if_neg Bool.false_ne_true, hmid] at hbranch
    have hrun := runs_line hp₂ hclear hq₁
    rw [tlbOut_end] at hrun
    refine ⟨_, (hline.trans hbranch).trans hrun, ?_, fun _ => rfl, rfl, (tlbClear_status _).trans (tlbProbe_status s)⟩
    unfold emptied
    rw [hfind, tlbClear_tlb, tlbProbe_index, hnat, tlbProbe_tlb]

/-- **`tlb_out` is `tlbOut`**: the entry of the key is not there any more, and `EntryHi` is as it was. -/
theorem tlb_out_refines (hload : Loaded code l.tlbOut Layout.tlbOutCode) (hq : s.quiet = true)
    (hlen : s.tlb.length < 2 ^ 31) (hs : Shows s.tlb p) (hone : Single s.tlb (s.reg a0)) :
    ∃ u : Cpu, Runs code (s.goto l.tlbOut) (u.goto (s.reg ra)) ∧
      Shows u.tlb (tlbOut p (s.reg a0)) ∧ u.cop .entryHi = s.cop .entryHi ∧
        u.cop .status = s.cop .status ∧ u.mem = s.mem ∧
      ∀ r : Reg, r ≠ t0 → r ≠ t1 → u.reg r = s.reg r := by
  obtain ⟨x, hrun, htlb, hreg, hmem, hstatus⟩ := tlbOut_label hload hq hlen
  unfold Layout.tlbOutCode at hload
  simp only [loaded_append, List.length_map] at hload
  obtain ⟨-, -, -, h₀, h₁, h₂, -⟩ := hload
  rw [tlbOut_end] at h₀ h₁ h₂
  have hq₁ : x.quiet = true := (Cpu.quiet_congr hstatus).trans hq
  have hq₂ : (effect x (.mtc0 t0 .entryHi)).quiet = true := hq₁
  have hback := (runs_op h₀ hq₁).trans (runs_jr h₁ h₂ hq₂)
  have hra : (effect x (.mtc0 t0 .entryHi)).reg ra = s.reg ra :=
    (hreg ra).trans (tlbProbe_reg s ra (by decide) (by decide))
  rw [hra] at hback
  refine ⟨_, hrun.trans hback, ?_, ?_, hstatus, hmem, fun r h0 h1 => (hreg r).trans (tlbProbe_reg s r h0 h1)⟩
  · have hshows := shows_emptied hs hone
    rw [← htlb] at hshows
    exact hshows
  · have ht0 := (hreg t0).trans (tlbProbe_t0 s)
    simpa [effect] using ht0

/-- The two routines on pages, with a C function that does nothing. -/
def onPagesTlb : Layout := { onPages with doTlbRefill := 0x8001c000 }

def tlbPageCode (n : Word) : List Instr :=
  if n = 0x80019 then Layout.tlbOutCode else if n = 0x8001c then onPagesTlb.doTlbRefillCode else [.jr ra, .op .nop]

/-- The kernel with one entry that translates, which `a0` asks for. -/
def asking : Cpu :=
  { program with
    regs := fun r => if r = a0 then 0x2000 else 0
    cop := fun c => if c = .status then 0x2 else 0
    mem := fun _ => 2
    tlb := [⟨0x2000, 2, 0⟩] }

def shown : Pmap :=
  { npage := 0, pageFreeList := [], ppRef := fun _ => 0, mem := fun _ _ => 0, tlb := [⟨0x2000, 2, 0⟩] }

theorem tlb_out_refines_one :
    ∃ u : Cpu, Runs (paged tlbPageCode) (asking.goto onPagesTlb.tlbOut) (u.goto (asking.reg ra)) ∧
    Shows u.tlb (tlbOut shown (asking.reg a0)) ∧ u.cop .entryHi = asking.cop .entryHi ∧
    u.cop .status = asking.cop .status ∧
    u.mem = asking.mem ∧ ∀ r : Reg, r ≠ t0 → r ≠ t1 → u.reg r = asking.reg r :=
  tlb_out_refines (loaded_paged tlbPageCode (by decide) (by decide)) rfl (by decide) (List.Perm.refl _)
    (by unfold Single; decide)

/-! ## `do_tlb_refill` -/

/-- The state in which `_do_tlb_refill` is called. -/
def refillCalled (l : Layout) (s : Cpu) : Cpu := (effects s Layout.refillHead).setReg ra (l.doTlbRefill + 32)

theorem refillTail_ra (w : Cpu) : (effects w Layout.refillTail).reg ra = w.mem (w.reg sp + 20) :=
  by simp [Layout.refillTail, effect]

theorem refillTail_sp (w : Cpu) : (effects w Layout.refillTail).reg sp = w.reg sp + 24 :=
  by simp [Layout.refillTail, effect]

theorem refillTail_tlb (w : Cpu) : (effects w Layout.refillTail).tlb =
    w.tlb.set (w.cop .random).toNat ⟨w.cop .entryHi, w.mem (w.reg sp + 12), w.mem (w.reg sp + 16)⟩ := by
  simp [Layout.refillTail, effect, Cpu.entry]

theorem three_on (a : Word) : a + 4 * BitVec.ofNat 32 3 = a + 4 + 4 + 4 := by
  rw [BitVec.add_assoc, BitVec.add_assoc]
  rfl

theorem stack_adds {a : Word} (h : 0x80000018 ≤ a) :
    a.saddOverflow (-24) = false ∧ (a + -24).saddOverflow 12 = false ∧ (a + -24).saddOverflow 24 = false := by
  have hle : 0x80000018 ≤ a.toNat := BitVec.le_def.1 h
  have hlt := a.isLt
  have h24 : (-24 : Word).toInt = -24 := by decide
  have hsum : (a + -24).toNat = a.toNat - 24 := by
    rw [BitVec.toNat_add, show (-24 : Word).toNat = 4294967272 by decide]
    omega
  have ha : a.toInt = a.toNat - 4294967296 := by
    rw [BitVec.toInt_eq_toNat_cond, if_neg (by omega)]
    rfl
  have hb : (a + -24).toInt = a.toNat - 24 - 4294967296 := by
    rw [BitVec.toInt_eq_toNat_cond, hsum, if_neg (by omega)]
    omega
  unfold BitVec.saddOverflow
  rw [ha, hb, h24, show (12 : Word).toInt = 12 by decide, show (24 : Word).toInt = 24 by decide]
  simp only [Bool.or_eq_false_iff, decide_eq_false_iff_not]
  omega

theorem refillHead_runs (hload : Loaded code l.doTlbRefill l.doTlbRefillCode) (hq : s.quiet = true)
    (hstack : 0x80000018 ≤ s.reg sp) :
    Runs code (s.goto l.doTlbRefill) ((refillCalled l s).goto l.doTlbRefillC) := by
  obtain ⟨h₀, h₁, h₂, h₃, h₄, h₅, hjal, hslot, -⟩ := hload
  obtain ⟨hadd, hadd', -⟩ := stack_adds hstack
  have hp : ∀ o ∈ Layout.refillHead, o.plain = true := by decide
  have hret : l.doTlbRefill + 4 + 4 + 4 + 4 + 4 + 4 + 8 = l.doTlbRefill + 32 := by bv_omega
  generalize hs₃ : effects s [.mfc0 a1 .badVAddr, .mfc0 a2 .entryHi, .andi a2 a2 0xff] = s₃
  have hsp₃ : s₃.reg sp = s.reg sp := by simp [← hs₃, effect]
  have hq₃ : s₃.quiet = true := hs₃ ▸ (Cpu.quiet_congr (effects_status (by decide) s)).trans hq
  have hthree : Runs code (s.goto l.doTlbRefill)
      ((effects s [.mfc0 a1 .badVAddr, .mfc0 a2 .entryHi, .andi a2 a2 0xff]).goto
      (l.doTlbRefill + 4 * BitVec.ofNat 32 3)) := runs_line (by decide) ⟨h₀, h₁, h₂, trivial⟩ hq
  rw [hs₃, three_on] at hthree
  simp only [effects_cons, effects_nil] at hs₃
  have hfour := runs_addi h₃ hq₃ (by rw [hsp₃]; exact hadd)
  generalize hs₄ : effect s₃ (.addiu sp sp (-24)) = s₄ at hfour
  have hsp₄ : s₄.reg sp = s.reg sp + -24 := by simp [← hs₄, effect, hsp₃]
  have hq₄ : s₄.quiet = true := hs₄ ▸ (Cpu.quiet_congr (plain_status rfl s₃)).trans hq₃
  have hfive := runs_op h₄ hq₄
  generalize hs₅ : effect s₄ (.sw ra 20 sp) = s₅ at hfive
  have hsp₅ : s₅.reg sp = s.reg sp + -24 := by simp [← hs₅, effect, hsp₄]
  have hq₅ : s₅.quiet = true := hs₅ ▸ (Cpu.quiet_congr (plain_status rfl s₄)).trans hq₄
  have hsix := runs_addi h₅ hq₅ (by rw [hsp₅]; exact hadd')
  have hend : effect s₅ (.addiu a0 sp 12) = effects s Layout.refillHead := by
    simp only [Layout.refillHead, effects_cons, effects_nil]
    rw [hs₃, hs₄, hs₅]
  rw [hend] at hsix
  have hjump := runs_jal hjal hslot ((Cpu.quiet_congr (effects_status hp s)).trans hq)
  rw [hret] at hjump
  exact (((hthree.trans hfour).trans hfive).trans hsix).trans hjump

theorem refillTail_runs (hload : Loaded code l.doTlbRefill l.doTlbRefillCode) (hq : w.quiet = true)
    (hadd : (w.reg sp).saddOverflow 24 = false) :
    Runs code (w.goto (l.doTlbRefill + 32)) ((effects w Layout.refillTail).goto (w.mem (w.reg sp + 20))) := by
  obtain ⟨-, -, -, -, -, -, -, -, h₀, h₁, h₂, h₃, h₄, h₅, h₆, h₇, hjr, hslot, -⟩ := hload
  have hp : ∀ o ∈ Layout.refillTail, o.plain = true := by decide
  have hstart : l.doTlbRefill + 4 + 4 + 4 + 4 + 4 + 4 + 4 + 4 = l.doTlbRefill + 32 := by bv_omega
  rw [hstart] at h₀ h₁ h₂ h₃ h₄ h₅ h₆ h₇ hjr hslot
  generalize hw₃ : effects w [.lw a0 12 sp, .lw a1 16 sp, .lw ra 20 sp] = w₃
  have hsp₃ : w₃.reg sp = w.reg sp := by simp [← hw₃, effect]
  have hq₃ : w₃.quiet = true := hw₃ ▸ (Cpu.quiet_congr (effects_status (by decide) w)).trans hq
  have hthree : Runs code (w.goto (l.doTlbRefill + 32)) ((effects w [.lw a0 12 sp, .lw a1 16 sp, .lw ra 20 sp]).goto
      (l.doTlbRefill + 32 + 4 * BitVec.ofNat 32 3)) := runs_line (by decide) ⟨h₀, h₁, h₂, trivial⟩ hq
  rw [hw₃, three_on] at hthree
  simp only [effects_cons, effects_nil] at hw₃
  have hfour := runs_addi h₃ hq₃ (by rw [hsp₃]; exact hadd)
  generalize hw₄ : effect w₃ (.addiu sp sp 24) = w₄ at hfour
  have hq₄ : w₄.quiet = true := hw₄ ▸ (Cpu.quiet_congr (plain_status rfl w₃)).trans hq₃
  have hrest : Runs code (w₄.goto _) ((effects w₄ [.mtc0 a0 .entryLo0, .mtc0 a1 .entryLo1, .nop, .tlbwr]).goto
      (l.doTlbRefill + 32 + 4 + 4 + 4 + 4 + 4 * BitVec.ofNat 32 4)) :=
      runs_line (by decide) ⟨h₄, h₅, h₆, h₇, trivial⟩ hq₄
  have hend : effects w₄ [.mtc0 a0 .entryLo0, .mtc0 a1 .entryLo1, .nop, .tlbwr] = effects w Layout.refillTail := by
    simp only [Layout.refillTail, effects_cons, effects_nil]
    rw [hw₃, hw₄]
  rw [hend, ← add_length, three_on] at hrest
  have hjump := runs_jr hjr hslot ((Cpu.quiet_congr (effects_status hp w)).trans hq)
  rw [refillTail_ra] at hjump
  exact ((hthree.trans hfour).trans hrest).trans hjump

/-- **`do_tlb_refill` writes the pair of its C function**: the entry at `Random` is lost, which is `tlbwr` of the
model for the entry that it is there, if it translates, and the stack and the return address are as they were. -/
theorem do_tlb_refill_refines (hload : Loaded code l.doTlbRefill l.doTlbRefillCode) (hq : s.quiet = true)
    (hstack : 0x80000018 ≤ s.reg sp)
    (hcall : Runs code ((refillCalled l s).goto l.doTlbRefillC) (w.goto (l.doTlbRefill + 32))) (hqw : w.quiet = true)
    (hsp : w.reg sp = s.reg sp + -24) (hra : w.mem (s.reg sp + -24 + 20) = s.reg ra) (hs : Shows w.tlb p)
    (hrandom : (w.cop .random).toNat < w.tlb.length)
    (hlive : live ⟨w.cop .entryHi, w.mem (s.reg sp + -24 + 12), w.mem (s.reg sp + -24 + 16)⟩ = true) :
    ∃ (u : Cpu) (victim : Nat),
      Runs code (s.goto l.doTlbRefill) (u.goto (s.reg ra)) ∧
      p.tlb[victim]? = (w.tlb[(w.cop .random).toNat]?.filter live).map toTlb ∧
      Shows u.tlb (tlbwr p victim ⟨w.cop .entryHi, w.mem (s.reg sp + -24 + 12), w.mem (s.reg sp + -24 + 16)⟩) ∧
      u.reg sp = s.reg sp ∧ u.mem = w.mem := by
  obtain ⟨-, -, hadd⟩ := stack_adds hstack
  have hback := refillTail_runs hload hqw (by rw [hsp]; exact hadd)
  rw [hsp, hra] at hback
  obtain ⟨victim, hlost, hv⟩ := shows_set hs hrandom hlive
  refine ⟨_, victim, ((refillHead_runs hload hq hstack).trans hcall).trans hback, hlost, ?_, ?_, rfl⟩
  · have htlb := refillTail_tlb w
    rw [hsp] at htlb
    rw [← htlb] at hv
    exact hv
  · refine (refillTail_sp w).trans ?_
    rw [hsp, BitVec.add_assoc]
    simp

/-- The kernel with a stack, and an entry that is lost. -/
def refilling : Cpu := { asking with regs := fun r => if r = a0 then 0x2000 else if r = sp then 0x83fff000 else 0 }

/-- The pair that the C function leaves is that of the memory before. -/
theorem do_tlb_refill_refines_one : ∃ (u : Cpu) (victim : Nat),
    Runs (paged tlbPageCode) (refilling.goto onPagesTlb.doTlbRefill) (u.goto (refilling.reg ra)) ∧
    shown.tlb[victim]? =
    ((refillCalled onPagesTlb refilling).tlb[((refillCalled onPagesTlb refilling).cop .random).toNat]?.filter
      live).map toTlb ∧
    Shows u.tlb (tlbwr shown victim ⟨(refillCalled onPagesTlb refilling).cop .entryHi,
      (refillCalled onPagesTlb refilling).mem (refilling.reg sp + -24 + 12),
      (refillCalled onPagesTlb refilling).mem (refilling.reg sp + -24 + 16)⟩) ∧
    u.reg sp = refilling.reg sp ∧ u.mem = (refillCalled onPagesTlb refilling).mem := by
  have hcall : Runs (paged tlbPageCode) ((refillCalled onPagesTlb refilling).goto onPagesTlb.doTlbRefillC)
      ((refillCalled onPagesTlb refilling).goto (onPagesTlb.doTlbRefill + 32)) := by
    have hjr : paged tlbPageCode onPagesTlb.doTlbRefillC = some (.jr ra) := rfl
    have hslot : paged tlbPageCode (onPagesTlb.doTlbRefillC + 4) = some (.op .nop) := rfl
    have hq : (refillCalled onPagesTlb refilling).quiet = true := rfl
    exact runs_jr hjr hslot hq
  exact do_tlb_refill_refines (loaded_paged tlbPageCode (by decide) (by decide)) rfl (by decide) hcall rfl rfl rfl
    (List.Perm.refl _) (by decide) rfl

end Mos.Genex
