import Mos.Lib.Run
import Mos.FsGrow
/-!
# Allocator — runs of `alloc_block_num` and `free_block`

An allocation is written through to the disk, a freed block is not.  So the bitmap in memory and the one on the disk
drift apart, but in one direction only: what is in use in memory is in use on the disk.
-/
namespace Mos

open Fallible

/-- The file system, the blocks that were returned by some allocation, and those of them that were not freed since. -/
structure Allocator where
  fs : Fs
  returned : Nat → Bool
  held : Nat → Bool

inductive AllocAct where
  | allocBlockNum
  | freeBlock (b : Nat)

namespace Fs

/-- The block is marked used in memory. -/
def usedInMem (s : Fs) (b : Nat) : Bool := !(s.mem (bitmapWord b)).getLsbD (b % 32)

/-- The block is marked used on the disk. -/
def usedOnDisk (s : Fs) (b : Nat) : Bool := !(s.disk (bitmapWord b)).getLsbD (b % 32)

end Fs

open Fs

namespace Allocator

/-- One call; only a block that was returned is freed. -/
def step (w : Allocator) : AllocAct → Option Allocator
  | .allocBlockNum => (Mos.allocBlockNum w.fs).map fun r =>
    match r.1 with
    | .ok b => { fs := r.2, returned := Function.update w.returned b true, held := Function.update w.held b true }
    | .error _ => { w with fs := r.2 }
  | .freeBlock b =>
    if w.returned b then (Mos.freeBlock b w.fs).map fun r =>
      { w with fs := r.2, held := Function.update w.held b false }
    else none

/-- **The file system has started**: the super block and the bitmap are in memory as they are on the disk, with the
reserved blocks in use. -/
structure Init (w : Allocator) : Prop where
  up : Up w.fs
  size : w.fs.sNblocks ≤ diskmaxBlocks
  same : ∀ a, w.fs.InBitmap a → w.fs.mem a = w.fs.disk a
  low : ∀ b < w.fs.reserved, w.fs.blockIsFree b = false
  returned : ∀ b, w.returned b = false
  held : ∀ b, w.held b = false

/-- **What the next `alloc_block_num` does**: it comes back with the lowest free block from 3 on, which nobody has, and
clears its bit alone; or with `-E_NO_DISK`, where there is none. -/
def AllocsLowest (w : Allocator) : Prop :=
  (∃ b s', Mos.allocBlockNum w.fs = some (.ok b, s') ∧ 3 ≤ b ∧ w.fs.blockIsFree b = true ∧ w.held b = false ∧
    (∀ c, 3 ≤ c → c < b → w.fs.blockIsFree c = false) ∧
    s'.mem = Function.update w.fs.mem (bitmapWord b) (w.fs.mem (bitmapWord b) &&& ~~~BitVec.twoPow 32 (b % 32)) ∧
    ∀ c, s'.blockIsFree c = (w.fs.blockIsFree c && !decide (c = b))) ∨
  (∃ s', Mos.allocBlockNum w.fs = some (.error (-eNoDisk), s') ∧ ∀ c, 3 ≤ c → c < w.fs.sNblocks →
    w.fs.blockIsFree c = false)

/-- **What is in use in memory is in use on the disk.** -/
def Durable (w : Allocator) : Prop := ∀ b < w.fs.sNblocks, w.fs.usedInMem b = true → w.fs.usedOnDisk b = true

/-- What holds along a run. -/
structure Inv (w : Allocator) : Prop where
  up : Up w.fs
  low : ∀ b < w.fs.reserved, w.fs.blockIsFree b = false
  durable : w.Durable
  returned : ∀ b, w.returned b = true → w.fs.reserved ≤ b ∧ b < w.fs.sNblocks
  held : ∀ b, w.held b = true → w.returned b = true ∧ w.fs.blockIsFree b = false

variable {w w' : Allocator}

theorem Init.inv (h : Init w) : Inv w := by
  refine ⟨h.up, h.low, fun b hb hu => ?_, fun b hb => ?_, fun b hb => ?_⟩
  · have hin := inBitmap_word hb
    unfold Fs.usedOnDisk
    rw [← h.same _ hin]
    exact hu
  · rw [h.returned b] at hb
    cases hb
  · rw [h.held b] at hb
    cases hb

/-! ## `alloc_block_num` -/

/-- **The first of the free blocks is the lowest.** -/
theorem first_free {s : Fs} {b c : Nat} {rest : List Nat} (hs : s.super = true) (h : s.freeBlocks = b :: rest)
    (h3 : 3 ≤ c) (hc : c < b) : s.blockIsFree c = false := by
  by_contra hfree
  have hmem : c ∈ s.freeBlocks := (mem_freeBlocks hs).2 ⟨h3, Bool.not_eq_false _ ▸ hfree⟩
  have hsorted : s.freeBlocks.Pairwise (· < ·) := List.Pairwise.filter _ List.pairwise_lt_range'
  rw [h] at hmem hsorted
  rcases List.mem_cons.1 hmem with rfl | hin
  · exact absurd hc (Nat.lt_irrefl c)
  · exact absurd ((List.pairwise_cons.1 hsorted).1 c hin) (Nat.not_lt.2 (Nat.le_of_lt hc))

theorem Inv.allocsLowest (h : Inv w) : w.AllocsLowest := by
  cases hfb : w.fs.freeBlocks with
  | nil =>
    refine .inr ⟨w.fs, allocBlockNum_none hfb, fun c h3 _ => ?_⟩
    by_contra hfree
    have hmem : c ∈ w.fs.freeBlocks := (mem_freeBlocks h.up.super).2 ⟨h3, Bool.not_eq_false _ ▸ hfree⟩
    rw [hfb] at hmem
    cases hmem
  | cons b rest =>
    obtain ⟨h3, hfree⟩ := (mem_freeBlocks h.up.super).1 (hfb ▸ List.mem_cons_self)
    have hlt : b < w.fs.sNblocks := (blockIsFree_iff.1 hfree).2.1
    refine .inl ⟨b, _, allocBlockNum_some h.up hfb, h3, hfree, ?_,
      fun c hc hcb => first_free h.up.super hfb hc hcb, clearBit_mem,
      (clearBit_free h.up hlt).2⟩
    refine Bool.eq_false_iff.2 fun hheld => ?_
    rw [(h.held b hheld).2] at hfree
    cases hfree

/-- The words of the bitmap on the disk, once the block of the bit is written. -/
theorem clearBit_disk {s : Fs} {b c : Nat} : (s.clearBit b).disk (bitmapWord c) =
    if c / blockSizeBit = b / blockSizeBit then (s.clearBit b).mem (bitmapWord c) else s.disk (bitmapWord c) := by
  have hdiv := bitmapWord_div c
  show (if bitmapWord c / blockWords = b / blockSizeBit + 2 then (s.clearBit b).mem (bitmapWord c)
    else s.disk (bitmapWord c)) = _
  rw [hdiv, Nat.add_comm 2]
  exact if_congr (Nat.add_right_cancel_iff) rfl rfl

theorem Inv.alloc (h : Inv w) (hs : step w .allocBlockNum = some w') : Inv w' := by
  obtain ⟨r, hr, rfl⟩ := Option.map_eq_some_iff.1 hs
  cases hfb : w.fs.freeBlocks with
  | nil =>
    rw [allocBlockNum_none hfb] at hr
    cases hr
    exact h
  | cons b rest =>
    rw [allocBlockNum_some h.up hfb] at hr
    cases hr
    obtain ⟨-, hfree⟩ := (mem_freeBlocks h.up.super).1 (hfb ▸ List.mem_cons_self)
    have hlt : b < w.fs.sNblocks := (blockIsFree_iff.1 hfree).2.1
    obtain ⟨hn, hbits⟩ := clearBit_free h.up hlt
    have hres : (w.fs.clearBit b).reserved = w.fs.reserved := by
      unfold reserved
      rw [hn]
    have hge : w.fs.reserved ≤ b := by
      by_contra hc
      rw [h.low b (Nat.not_le.1 hc)] at hfree
      cases hfree
    refine ⟨⟨h.up.super, h.up.bitmap, fun c h1 hc => h.up.mapped c h1 (hres ▸ hc)⟩, fun c hc => ?_, fun c hc hu => ?_,
      fun c hc => ?_, fun c hc => ?_⟩
    · show (w.fs.clearBit b).blockIsFree c = false
      rw [hbits, h.low c (hres ▸ hc), Bool.false_and]
    · -- the block of the bitmap that has the bit is as in memory, the others are as they were
      have hu : (w.fs.clearBit b).usedInMem c = true := hu
      show (w.fs.clearBit b).usedOnDisk c = true
      unfold Fs.usedOnDisk
      rw [clearBit_disk]
      by_cases hblk : c / blockSizeBit = b / blockSizeBit
      · rw [if_pos hblk]
        exact hu
      · rw [if_neg hblk]
        refine h.durable c (hn ▸ hc) ?_
        have hne : bitmapWord c ≠ bitmapWord b := by
          intro heq
          have hd := bitmapWord_div c
          rw [heq, bitmapWord_div] at hd
          omega
        unfold Fs.usedInMem at hu ⊢
        rw [clearBit_mem, Function.update_of_ne hne] at hu
        exact hu
    · show (w.fs.clearBit b).reserved ≤ c ∧ c < (w.fs.clearBit b).sNblocks
      rw [hres, hn]
      by_cases hcb : c = b
      · rw [hcb]
        exact ⟨hge, hlt⟩
      · exact h.returned c ((Function.update_of_ne hcb _ _).symm.trans hc)
    · show Function.update w.returned b true c = true ∧ (w.fs.clearBit b).blockIsFree c = false
      rw [hbits]
      by_cases hcb : c = b
      · rw [hcb, Function.update_self, decide_eq_true rfl, Bool.not_true, Bool.and_false]
        exact ⟨rfl, rfl⟩
      · obtain ⟨hret, hfree⟩ := h.held c ((Function.update_of_ne hcb _ _).symm.trans hc)
        rw [Function.update_of_ne hcb, hfree, Bool.false_and]
        exact ⟨hret, rfl⟩

/-! ## `free_block` -/

theorem Inv.free (h : Inv w) {b : Nat} (hs : step w (.freeBlock b) = some w') : Inv w' := by
  simp only [step] at hs
  split at hs
  · rename_i hret
    obtain ⟨hge, hlt⟩ := h.returned b hret
    have h0 : b ≠ 0 := Nat.ne_of_gt (Nat.lt_of_lt_of_le (by decide) (Nat.le_trans (reserved_ge w.fs) hge))
    rw [freeBlock_eq h0 hlt] at hs
    cases hs
    obtain ⟨hn, hbits⟩ := setBit_free h.up hlt
    have hres : (w.fs.setBit b).reserved = w.fs.reserved := by
      unfold reserved
      rw [hn]
    refine ⟨⟨h.up.super, h.up.bitmap, fun c h1 hc => h.up.mapped c h1 (hres ▸ hc)⟩, fun c hc => ?_, fun c hc hu => ?_,
      fun c hc => ?_, fun c hc => ?_⟩
    · have hcb : c ≠ b := fun heq => Nat.not_lt.2 hge (heq ▸ hres ▸ hc)
      show (w.fs.setBit b).blockIsFree c = false
      rw [hbits, h.low c (hres ▸ hc), decide_eq_false hcb, Bool.false_or]
    · refine h.durable c (hn ▸ hc) ?_
      have hu : (w.fs.setBit b).usedInMem c = true := hu
      unfold Fs.usedInMem at hu ⊢
      rw [setBit_mem] at hu
      by_cases hw : bitmapWord c = bitmapWord b
      · rw [hw, Function.update_self, getLsbD_set _ (Nat.mod_lt _ (by decide)), Bool.not_or, Bool.and_eq_true] at hu
        rw [hw]
        exact hu.1
      · rwa [Function.update_of_ne hw] at hu
    · show (w.fs.setBit b).reserved ≤ c ∧ c < (w.fs.setBit b).sNblocks
      rw [hres, hn]
      exact h.returned c hc
    · by_cases hcb : c = b
      · have hc : Function.update w.held b false c = true := hc
        rw [hcb, Function.update_self] at hc
        cases hc
      · obtain ⟨hret, hfree⟩ := h.held c ((Function.update_of_ne hcb _ _).symm.trans hc)
        refine ⟨hret, ?_⟩
        show (w.fs.setBit b).blockIsFree c = false
        rw [hbits, hfree, decide_eq_false hcb, Bool.false_or]
  · cases hs

theorem Inv.step (h : Inv w) {a : AllocAct} (hs : Allocator.step w a = some w') : Inv w' := by
  cases a with
  | allocBlockNum => exact h.alloc hs
  | freeBlock b => exact h.free hs

/-- **Allocation is sound along every run**: the next `alloc_block_num` takes the lowest free block, and what is in
use in memory is in use on the disk. -/
theorem allocator_sound (h : Reach Init step w) : w.AllocsLowest ∧ w.Durable := by
  have hinv : Inv w := Run.invariant Inv (fun _ hi => hi.inv) (fun _ _ _ hi _ hs => hi.step hs) w h
  exact ⟨hinv.allocsLowest, hinv.durable⟩

/-- A disk of eight blocks, of which 4, 6 and 7 are free. -/
def eightBlocks : Fs where
  mem a := if a = 1025 then 8 else if a = 2048 then 0xD0 else 0
  mapped b := b == 1 || b == 2
  dirty _ := false
  disk a := if a = 1025 then 8 else if a = 2048 then 0xD0 else 0
  super := true
  bitmap := true
  pages := []

theorem eightBlocks_init : Init ⟨eightBlocks, fun _ => false, fun _ => false⟩ := by
  have hn : eightBlocks.sNblocks = 8 := by decide
  have hres : eightBlocks.reserved = 3 := by
    unfold reserved
    rw [hn]
    decide
  refine ⟨⟨rfl, rfl, fun b h1 hb => ?_⟩, ?_, fun _ _ => rfl, fun b hb => ?_, fun _ => rfl, fun _ => rfl⟩
  · have hb : b < eightBlocks.reserved := hb
    rw [hres] at hb
    obtain rfl | rfl : b = 1 ∨ b = 2 := by omega
    · rfl
    · rfl
  · show eightBlocks.sNblocks ≤ diskmaxBlocks
    rw [hn]
    decide
  · have hb : b < eightBlocks.reserved := hb
    rw [hres] at hb
    obtain rfl | rfl | rfl : b = 0 ∨ b = 1 ∨ b = 2 := by omega
    · decide
    · decide
    · decide

/-- Two allocations on that disk, and the first block freed. -/
theorem allocator_sound_eight :
    ∃ w, Reach Init step w ∧ w.held 6 = true ∧ w.fs.blockIsFree 4 = true ∧ w.AllocsLowest ∧ w.Durable := by
  obtain ⟨w, hw, hc⟩ := @Run.exists_of_exec Allocator AllocAct Init step (fun _ _ => True) (fun _ _ => true)
    (fun _ _ _ => trivial) [.allocBlockNum, .allocBlockNum, .freeBlock 4]
    (some ⟨eightBlocks, fun _ => false, fun _ => false⟩)
    (fun _ hk => Option.some.inj hk ▸ eightBlocks_init) (fun w => w.held 6 && w.fs.blockIsFree 4) (by decide +kernel)
  rw [Bool.and_eq_true] at hc
  exact ⟨w, hw, hc.1, hc.2, allocator_sound hw⟩

end Allocator

end Mos
