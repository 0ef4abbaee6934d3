import Mos.Ide
/-!
# IdeBlocks — the blocks of the file system on the disk

The server has its cache from `DISKMAP` on and its blocks on disk 0, eight sectors each.  What `write_block` and
`read_block` do through the driver is what they do in the model of the server, and a range of sectors that was written
is read back.
-/
namespace Mos.Ide

open Fallible

/-- `SECT2BLK` -/
def sect2Blk : Nat := 8

/-- The server and its driver; `mem` and `disk` of the server are those of the driver. -/
structure Server where
  fs : Fs
  io : Io

namespace Server

/-- What the server has in its cache and on its disk. -/
def view (x : Server) : Fs :=
  { x.fs with
    mem := fun a => x.io.mem (diskMap.toNat / 4 + a)
    disk := fun a => x.io.ide.disks 0 (a / sectWords) (a % sectWords) }

def writeBlock (fuel : Nat) (temp : Word) (b : Nat) (x : Server) : Option Server :=
  if !x.fs.mapped b then none
  else (ideWrite fuel temp 0 (BitVec.ofNat 32 (b * sect2Blk)) (addrOf (diskAddr b)) (BitVec.ofNat 32 sect2Blk) x.io).map
    fun io => { x with io := io }

/-- `syscall_mem_alloc` for a block, which has a page. -/
def allocBlock (b : Nat) (x : Server) : Server where
  fs := { x.fs with
    mapped := Function.update x.fs.mapped b true
    dirty := Function.update x.fs.dirty b false
    pages := x.fs.pages.tail }
  io := { x.io with
    mem := fun a => if diskMap.toNat / 4 ≤ a ∧ (a - diskMap.toNat / 4) / blockWords = b then 0 else x.io.mem a }

def readBlock (fuel : Nat) (temp : Word) (b : Nat) (x : Server) : Option (Except Int Bool × Server) :=
  if x.fs.super && decide (x.view.sNblocks ≤ b) then none
  else if x.fs.bitmap && x.view.blockIsFree b then none
  else if x.fs.mapped b then some (.ok false, x)
  else if x.fs.pages.headD true then
    (ideRead fuel temp 0 (BitVec.ofNat 32 (b * sect2Blk)) (addrOf (diskAddr b)) (BitVec.ofNat 32 sect2Blk)
      (x.allocBlock b).io).map
      fun io => (.ok true, { x.allocBlock b with io := io })
  else some (.error (-eNoMem), { x with fs := { x.fs with pages := x.fs.pages.tail } })

end Server

section Blocks

variable {temp : Word} {b fuel : Nat}

theorem block_request (ht : UserRange temp 1) (hb : b < diskmaxBlocks) :
    Request temp 0 (BitVec.ofNat 32 (b * sect2Blk)) (addrOf (diskAddr b)) (BitVec.ofNat 32 sect2Blk) ∧
      (BitVec.ofNat 32 (b * sect2Blk)).toNat = b * sect2Blk ∧ (addrOf (diskAddr b)).toNat / 4 = diskMap.toNat /
      4 + diskAddr b := by
  have hlow : utemp.toNat = 0x3FE000 := by decide
  have htop : utop.toNat = 0x7F400000 := by decide
  have hmap : diskMap.toNat = 0x10000000 := by decide
  unfold diskmaxBlocks at hb
  have hsec : (BitVec.ofNat 32 (b * sect2Blk)).toNat = b * sect2Blk := by
    rw [BitVec.toNat_ofNat]
    unfold sect2Blk
    omega
  have haddr : (addrOf (diskAddr b)).toNat = 0x10000000 + 4 * (b * 1024) := by
    unfold addrOf diskAddr
    rw [BitVec.toNat_add, BitVec.toNat_ofNat, hmap, show blockWords = 1024 from rfl]
    omega
  have hn : (BitVec.ofNat 32 sect2Blk).toNat = 8 := rfl
  refine ⟨⟨ht, by decide, ?_, ?_, ?_, ?_⟩, hsec, ?_⟩
  · rw [hsec, hn]
    unfold sect2Blk
    omega
  · omega
  · rw [hn]
    omega
  · omega
  · rw [haddr, hmap]
    unfold diskAddr
    rw [show blockWords = 1024 from rfl]
    omega

/-- `write_block` writes the words of the block to its sectors, and nothing else. -/
theorem writeBlock_spec {x : Server} (ht : UserRange temp 1) (hb : b < diskmaxBlocks) (hm : x.fs.mapped b = true)
    (hp : Patient fuel sect2Blk x.io.ide) :
    ∃ c, x.writeBlock fuel temp b = some { x with io := ⟨c, x.io.mem⟩ } ∧
      (∀ n s w, c.disks n s w = if n = 0 ∧ s / sect2Blk = b ∧ w < sectWords
        then x.view.mem (sectWords * s + w) else x.io.ide.disks n s w) ∧
      c.busy < fuel ∧ c.delays = fun n => x.io.ide.delays (sect2Blk + n) := by
  obtain ⟨hreq, hsec, haddr⟩ := block_request ht hb
  obtain ⟨c, hw, hdisks, hbusy, hdelays⟩ := ideWrite_spec x.io hreq hp
  refine ⟨c, ?_, fun n s w => ?_, hbusy, hdelays⟩
  · unfold Server.writeBlock
    rw [hm, hw]
    rfl
  · rw [hdisks, written_disks, hsec, haddr]
    show (if n = 0 ∧ b * 8 ≤ s ∧ w < 128 ∧ 128 * (s - b * 8) + w < 128 * 8
      then x.io.mem (diskMap.toNat / 4 + b * 1024 + (128 * (s - b * 8) + w)) else x.io.ide.disks n s w) =
      if n = 0 ∧ s / 8 = b ∧ w < 128 then x.io.mem (diskMap.toNat / 4 + (128 * s + w)) else x.io.ide.disks n s w
    by_cases h : n = 0 ∧ s / 8 = b ∧ w < 128
    · rw [if_pos h, if_pos ⟨h.1, by omega, h.2.2, by omega⟩]
      exact congrArg x.io.mem (by omega)
    · rw [if_neg h, if_neg fun h' => h ⟨h'.1, by omega, h'.2.2.1⟩]

theorem block_sector (a : Nat) :
    a / sectWords / sect2Blk = a / blockWords ∧ sectWords * (a / sectWords) + a % sectWords = a :=
  ⟨Nat.div_div_eq_div_mul a sectWords sect2Blk, Nat.div_add_mod a sectWords⟩

/-- **`write_block` through the driver** is `write_block`. -/
theorem writeBlock_refines (x : Server) (ht : UserRange temp 1) (hb : b < diskmaxBlocks)
    (hp : Patient fuel sect2Blk x.io.ide) :
    (x.writeBlock fuel temp b).map (fun x' => (Except.ok (), x'.view)) = Mos.writeBlock b x.view := by
  unfold Mos.writeBlock
  rw [bind_read, id_eq]
  cases hm : x.fs.mapped b with
  | false =>
    unfold Server.writeBlock
    rw [hm, show x.view.mapped b = false from hm]
    rfl
  | true =>
    obtain ⟨c, hw, hdisk, -⟩ := writeBlock_spec ht hb hm hp
    rw [hw, show x.view.mapped b = true from hm]
    refine congrArg (fun disk => some (Except.ok (), { x.view with disk := disk })) (funext fun a => ?_)
    show c.disks 0 (a / sectWords) (a % sectWords) = if a / blockWords = b then x.view.mem a else x.view.disk a
    obtain ⟨hdiv, hmod⟩ := block_sector a
    rw [hdisk, hdiv, hmod]
    exact if_congr ⟨fun h => h.2.1, fun h => ⟨rfl, h, Nat.mod_lt _ (by decide)⟩⟩ rfl rfl

/-- The page of a block has the words of the disk. -/
def Server.loaded (b : Nat) (x : Server) (a : Nat) : Word :=
  if diskMap.toNat / 4 ≤ a ∧ (a - diskMap.toNat / 4) /
    blockWords = b then x.view.disk (a - diskMap.toNat / 4) else x.io.mem a

/-- `read_block` reads the words of its sectors into a new page, and nothing else. -/
theorem ideRead_block {x : Server} (ht : UserRange temp 1) (hb : b < diskmaxBlocks)
    (hp : Patient fuel sect2Blk x.io.ide) :
    ∃ c, ideRead fuel temp 0 (BitVec.ofNat 32 (b * sect2Blk)) (addrOf (diskAddr b)) (BitVec.ofNat 32 sect2Blk)
    (x.allocBlock b).io =
        some ⟨c, x.loaded b⟩ ∧ c.disks = x.io.ide.disks := by
  obtain ⟨hreq, hsec, haddr⟩ := block_request ht hb
  obtain ⟨c, hr, hdisks, -⟩ := ideRead_spec (x.allocBlock b).io hreq hp
  refine ⟨c, ?_, hdisks⟩
  rw [hr]
  refine congrArg (fun mem => some (⟨c, mem⟩ : Io)) (funext fun a => ?_)
  rw [fetched_mem, hsec, haddr]
  show (if diskMap.toNat / 4 + b * 1024 ≤ a ∧ a < diskMap.toNat / 4 + b * 1024 + 128 * 8
    then x.io.ide.disks 0 (b * 8 + (a - (diskMap.toNat / 4 + b * 1024)) / 128)
      ((a - (diskMap.toNat / 4 + b * 1024)) % 128)
    else if diskMap.toNat / 4 ≤ a ∧ (a - diskMap.toNat / 4) / 1024 = b then 0 else x.io.mem a) =
    if diskMap.toNat / 4 ≤ a ∧ (a - diskMap.toNat / 4) / 1024 = b
    then x.io.ide.disks 0 ((a - diskMap.toNat / 4) / 128) ((a - diskMap.toNat / 4) % 128) else x.io.mem a
  generalize diskMap.toNat / 4 = base
  by_cases h : base ≤ a ∧ (a - base) / 1024 = b
  · have hin : base + b * 1024 ≤ a ∧ a < base + b * 1024 + 128 * 8 := by omega
    rw [if_pos hin, if_pos h]
    exact congrArg₂ (x.io.ide.disks 0) (by omega) (by omega)
  · have hout : ¬(base + b * 1024 ≤ a ∧ a < base + b * 1024 + 128 * 8) := by omega
    rw [if_neg hout, if_neg h, if_neg h]

/-- **`read_block` through the driver** is `read_block`. -/
theorem readBlock_refines (x : Server) (ht : UserRange temp 1) (hb : b < diskmaxBlocks)
    (hp : Patient fuel sect2Blk x.io.ide) :
    (x.readBlock fuel temp b).map (fun p => (p.1, p.2.view)) = Mos.readBlock b x.view := by
  obtain ⟨c, hr, hdisks⟩ := ideRead_block (x := x) ht hb hp
  rw [readBlock_eq]
  unfold Server.readBlock
  show Option.map _ (if (x.fs.super && decide (x.view.sNblocks ≤ b)) = true then none else _) =
    if (x.fs.super && decide (x.view.sNblocks ≤ b)) = true then none
    else if (x.fs.bitmap && x.view.blockIsFree b) = true then none
    else if x.fs.mapped b = true then _ else _
  split
  · rfl
  split
  · rfl
  split
  · rfl
  split
  next hpages =>
    have hpages' : x.view.pages.headD true = true := hpages
    rw [hr, bind_of_ok (by rw [memAllocBlock_eq, if_pos hpages'])]
    refine congrArg₂ (fun mem disk =>
      some (Except.ok true, ({ (x.allocBlock b).view with mem := mem, disk := disk } : Fs)))
      (funext fun a => ?_) (funext fun a => ?_)
    · show x.loaded b (diskMap.toNat / 4 + a) = if a / blockWords = b then x.view.disk a
        else if a / blockWords = b then 0 else x.view.mem a
      unfold Server.loaded
      rw [Nat.add_sub_cancel_left]
      by_cases h : a / blockWords = b
      · rw [if_pos h, if_pos ⟨Nat.le_add_right _ _, h⟩]
      · rw [if_neg h, if_neg h, if_neg fun h' => h h'.2]
        rfl
    · exact congrArg (fun d => d 0 (a / sectWords) (a % sectWords)) hdisks
  next hpages =>
    have hpages' : ¬x.view.pages.headD true = true := hpages
    rw [bind_of_error (by rw [memAllocBlock_eq, if_neg hpages'])]
    rfl

theorem readBlock_allowed {x : Server} (hin : x.fs.super = true → b < x.view.sNblocks)
    (hused : x.fs.bitmap = true → x.view.blockIsFree b = false) : x.readBlock fuel temp b =
    if x.fs.mapped b then some (.ok false, x)
    else if x.fs.pages.headD true then
      (ideRead fuel temp 0 (BitVec.ofNat 32 (b * sect2Blk)) (addrOf (diskAddr b)) (BitVec.ofNat 32 sect2Blk)
        (x.allocBlock b).io).map
        fun io => (.ok true, { x.allocBlock b with io := io })
    else some (.error (-eNoMem), { x with fs := { x.fs with pages := x.fs.pages.tail } }) := by
  have hin' : ¬(x.fs.super && decide (x.view.sNblocks ≤ b)) = true := by
    simp only [Bool.and_eq_true, decide_eq_true_eq, not_and, not_le]
    exact hin
  have hused' : ¬(x.fs.bitmap && x.view.blockIsFree b) = true := by
    simp only [Bool.and_eq_true, not_and, Bool.not_eq_true]
    exact hused
  unfold Server.readBlock
  rw [if_neg hin', if_neg hused']

end Blocks

/-- A buffer that is written to sectors, and read back into any buffer. -/
def RoundTrip (fuel : Nat) (temp diskno secno src nsecs : Word) (io : Io) : Prop :=
  ∃ c, ideWrite fuel temp diskno secno src nsecs io = some ⟨c, io.mem⟩ ∧
    (∀ n s w, c.disks n s w =
      if n = diskno.toNat ∧ secno.toNat ≤ s ∧ s < secno.toNat + nsecs.toNat ∧ w < sectWords
      then io.mem (src.toNat / 4 + sectWords * (s - secno.toNat) + w) else io.ide.disks n s w) ∧
    ∀ (dst : Word) mem, Buffer dst nsecs.toNat →
      ∃ c', ideRead fuel temp diskno secno dst nsecs ⟨c, mem⟩ = some ⟨c', fun a =>
      if dst.toNat / 4 ≤ a ∧ a < dst.toNat / 4 + sectWords * nsecs.toNat
      then io.mem (src.toNat / 4 + (a - dst.toNat / 4)) else mem a⟩ ∧ c'.disks = c.disks

theorem roundTrip_spec {temp diskno secno src nsecs : Word} (h : Request temp diskno secno src nsecs) {io : Io}
    {fuel : Nat} (hp : Patient fuel (2 * nsecs.toNat) io.ide) : RoundTrip fuel temp diskno secno src nsecs io := by
  have hp₁ : Patient fuel nsecs.toNat io.ide :=
    ⟨hp.busy, fun i hi => hp.delays i (by omega), Nat.lt_of_le_of_lt (by omega) hp.sectors⟩
  obtain ⟨c, hw, hdisks, hbusy, hdelays⟩ := ideWrite_spec io h hp₁
  refine ⟨c, hw, fun n s w => ?_, fun dst mem hdst => ?_⟩
  · rw [hdisks, written_disks]
    unfold sectWords
    by_cases hin : n = diskno.toNat ∧ secno.toNat ≤ s ∧ s < secno.toNat + nsecs.toNat ∧ w < 128
    · rw [if_pos hin, if_pos ⟨hin.1, hin.2.1, hin.2.2.2, by omega⟩]
      exact congrArg io.mem (Nat.add_assoc _ _ _).symm
    · rw [if_neg hin, if_neg fun h' => hin ⟨h'.1, h'.2.1, by omega, h'.2.2.1⟩]
  · have hp₂ : Patient fuel nsecs.toNat c := by
      refine ⟨hbusy, fun i hi => ?_, hp₁.sectors⟩
      rw [hdelays]
      exact hp.delays _ (by omega)
    obtain ⟨c', hr, hdisks', -⟩ := ideRead_spec ⟨c, mem⟩ ⟨h.temp, h.disk, h.sectors, hdst⟩ hp₂
    refine ⟨c', ?_, hdisks'⟩
    rw [hr]
    refine congrArg (fun mem => some (⟨c', mem⟩ : Io)) (funext fun a => ?_)
    rw [fetched_mem]
    by_cases ha : dst.toNat / 4 ≤ a ∧ a < dst.toNat / 4 + sectWords * nsecs.toNat
    · rw [if_pos ha, if_pos ha]
      show c.disks _ _ _ = _
      rw [hdisks, written_disks, Nat.add_sub_cancel_left, Nat.div_add_mod]
      exact if_pos ⟨rfl, Nat.le_add_right _ _, Nat.mod_lt _ (by decide), by omega⟩
    · rw [if_neg ha, if_neg ha]

/-- A block that is written, and read again by a server that has lost its page or has it still. -/
def BlockKept (fuel : Nat) (temp : Word) (b : Nat) (x : Server) : Prop :=
  ∃ x', x.writeBlock fuel temp b = some x' ∧ x'.fs = x.fs ∧ x'.io.mem = x.io.mem ∧
    x'.io.ide.disks 1 = x.io.ide.disks 1 ∧
    (∀ a, x'.view.disk a = if a / blockWords = b then x.view.mem a else x.view.disk a) ∧
    ∀ y : Server, y.io.ide = x'.io.ide → (y.fs.super = true → b < y.view.sNblocks) →
      (y.fs.bitmap = true → y.view.blockIsFree b = false) →
      (y.fs.mapped b = true → y.readBlock fuel temp b = some (.ok false, y)) ∧
      (y.fs.mapped b = false → y.fs.pages.headD true = true → ∃ y', y.readBlock fuel temp b = some (.ok true, y') ∧
        (∀ a, y'.view.mem a = if a / blockWords = b then x.view.mem a else y.view.mem a) ∧
        y'.fs.mapped = Function.update y.fs.mapped b true ∧
        y'.io.ide.disks = x'.io.ide.disks)

theorem blockKept_spec {x : Server} {fuel b : Nat} {temp : Word} (ht : UserRange temp 1) (hb : b < diskmaxBlocks)
    (hm : x.fs.mapped b = true) (hp : Patient fuel (2 * sect2Blk) x.io.ide) : BlockKept fuel temp b x := by
  have hp₁ : Patient fuel sect2Blk x.io.ide :=
    ⟨hp.busy, fun i hi => hp.delays i (Nat.lt_of_lt_of_le hi (by decide)), Nat.lt_trans (by decide) hp.sectors⟩
  obtain ⟨c, hw, hdisks, hbusy, hdelays⟩ := writeBlock_spec ht hb hm hp₁
  have hdisk : ∀ a, c.disks 0 (a / sectWords) (a % sectWords) = if a / blockWords = b then x.view.mem a
      else x.view.disk a := by
    intro a
    obtain ⟨hdiv, hmod⟩ := block_sector a
    rw [hdisks, hdiv, hmod]
    exact if_congr ⟨fun h => h.2.1, fun h => ⟨rfl, h, Nat.mod_lt _ (by decide)⟩⟩ rfl rfl
  refine ⟨_, hw, rfl, rfl, ?_, hdisk, fun y hide hin hused => ⟨fun hthere => ?_, fun hlost hpages => ?_⟩⟩
  · funext s w
    exact (hdisks 1 s w).trans (if_neg fun h => absurd h.1 (by decide))
  · rw [readBlock_allowed hin hused, hthere]
    rfl
  · have hp₂ : Patient fuel sect2Blk y.io.ide := by
      rw [hide]
      refine ⟨hbusy, fun i hi => ?_, hp₁.sectors⟩
      show c.delays i < fuel
      rw [hdelays]
      exact hp.delays _ (by omega)
    obtain ⟨c', hr, hdisks'⟩ := ideRead_block (x := y) ht hb hp₂
    refine ⟨{ y.allocBlock b with io := ⟨c', y.loaded b⟩ }, ?_, fun a => ?_, rfl,
      hdisks'.trans (congrArg Controller.disks hide)⟩
    · rw [readBlock_allowed hin hused, hlost, if_neg Bool.false_ne_true, if_pos hpages, hr]
      rfl
    show y.loaded b (diskMap.toNat / 4 + a) = _
    unfold Server.loaded
    rw [Nat.add_sub_cancel_left]
    by_cases h : a / blockWords = b
    · rw [if_pos ⟨Nat.le_add_right _ _, h⟩, if_pos h]
      show y.io.ide.disks 0 (a / sectWords) (a % sectWords) = _
      rw [hide]
      exact (hdisk a).trans (if_pos h)
    · rw [if_neg h, if_neg fun h' => h h'.2]
      rfl

theorem patient_enough (c : Controller) : ∀ n, ∃ enough, ∀ fuel ≥ enough, Patient fuel n c
  | 0 =>
    ⟨c.busy + 1, fun _ hf => ⟨hf, fun _ hi => absurd hi (Nat.not_lt_zero _), Nat.lt_of_lt_of_le (Nat.succ_pos _) hf⟩⟩
  | n + 1 => by
    obtain ⟨enough, h⟩ := patient_enough c n
    refine ⟨enough + c.delays n + n + 2, fun fuel hf => ⟨(h fuel (by omega)).busy, fun i hi => ?_, by omega⟩⟩
    rcases Nat.lt_succ_iff_lt_or_eq.1 hi with hlt | rfl
    · exact (h fuel (by omega)).delays i hlt
    · omega

/-- **What is written is read back**: a buffer in any sectors of a disk, and a block in use of the file system. -/
theorem ide_round_trip {temp diskno secno src nsecs : Word} (h : Request temp diskno secno src nsecs) (io : Io) :
    (∃ enough, ∀ fuel ≥ enough, RoundTrip fuel temp diskno secno src nsecs io) ∧
    ∀ (x : Server) (b : Nat), b < x.view.sNblocks → x.view.sNblocks ≤ diskmaxBlocks → x.fs.mapped b = true →
      ∃ enough, ∀ fuel ≥ enough, BlockKept fuel temp b x := by
  constructor
  · obtain ⟨enough, hp⟩ := patient_enough io.ide (2 * nsecs.toNat)
    exact ⟨enough, fun fuel hf => roundTrip_spec h (hp fuel hf)⟩
  · intro x b hb hsize hm
    obtain ⟨enough, hp⟩ := patient_enough x.io.ide (2 * sect2Blk)
    exact ⟨enough, fun fuel hf => blockKept_spec h.temp (Nat.lt_of_lt_of_le hb hsize) hm (hp fuel hf)⟩

/-- A controller that is never busy, with empty disks. -/
def idle : Controller where
  nsect := 0
  lbal := 0
  lbam := 0
  lbah := 0
  device := 0
  command := 0
  disk := 0
  sector := 0
  count := 0
  done := 0
  busy := 0
  delays := fun _ => 0
  disks := fun _ _ _ => 0

/-- A server with the super block and the bitmap of a disk of eight blocks, of which some are free. -/
def eight (free : Word) : Server where
  fs := {
    mem := fun _ => 0
    mapped := fun b => decide (b < 8)
    dirty := fun _ => false
    disk := fun _ => 0
    super := true
    bitmap := true
    pages := [] }
  io := ⟨idle, fun a => if a = diskMap.toNat / 4 + (blockWords + 1) then 8
    else if a = diskMap.toNat / 4 + 2 * blockWords then free else BitVec.ofNat 32 a⟩

theorem ide_round_trip_eight :
    (∃ enough, ∀ fuel ≥ enough, RoundTrip fuel utemp 1 4096 0x400000 32 (eight 0).io) ∧
      ∃ enough, ∀ fuel ≥ enough, BlockKept fuel utemp 3 (eight 0) := by
  have h : Request utemp 1 4096 0x400000 32 :=
    ⟨⟨by decide, by decide⟩, by decide, by decide, ⟨by decide, by decide, by decide⟩⟩
  obtain ⟨hdisk, hblock⟩ := ide_round_trip h (eight 0).io
  have hn : (eight 0).view.sNblocks = 8 := rfl
  exact ⟨hdisk, hblock (eight 0) 3 (by rw [hn]; decide) (by rw [hn]; decide) rfl⟩

theorem transferSector_unaligned {word : Word → Io → Option Io} {buf : Word} (h : ∀ io, word buf io = none)
    (cmd : BitVec 8) (fuel : Nat) (temp diskno : Word) {t : Turn} (ht : t.offset = 0) :
    transferSector cmd word fuel temp diskno buf t = none := by
  have hwords : ∀ io, (List.range sectWords).foldlM (fun io i =>
    word (buf + t.offset + BitVec.ofNat 32 (i * 4)) io) io = none := by
    intro io
    have hbuf : buf + t.offset + BitVec.ofNat 32 (0 * 4) = buf := by simp [ht]
    rw [show List.range sectWords = 0 :: (List.range 127).map Nat.succ from rfl, List.foldlM_cons, hbuf, h]
    rfl
  unfold transferSector
  simp only [hwords, Option.bind_none, Option.bind_fun_none]

theorem ideWrite_unaligned {temp diskno secno src nsecs : Word} (h : src.toNat % 4 ≠ 0) (hgo : secno < nsecs + secno)
    (fuel : Nat) (io : Io) :
    ideWrite fuel temp diskno secno src nsecs io = none := by
  have hno : ∀ io, writeWord src io = none := fun io => if_pos (.inr h)
  unfold ideWrite transfer
  dsimp only
  split
  · rfl
  · cases fuel with
    | zero => rfl
    | succ fuel =>
      rw [whileDo, decide_eq_true hgo, transferSector_unaligned hno _ _ _ _ rfl]
      rfl

theorem readBlock_free {x : Server} {fuel b : Nat} {temp : Word} (hbitmap : x.fs.bitmap = true)
    (hfree : x.view.blockIsFree b = true) :
    x.readBlock fuel temp b = none := by
  unfold Server.readBlock
  rw [hbitmap, hfree]
  exact ite_self _

theorem blockIsFree_disk (x : Server) (c : Controller) (b : Nat) :
    (Server.view { x with io := ⟨c, x.io.mem⟩ }).blockIsFree b = x.view.blockIsFree b := rfl

/-- **A buffer may not be aligned, and a free block may not be read**: the server is at an end. -/
theorem ide_round_trip_fails :
    (∀ fuel io, ideWrite fuel utemp 0 0 0x400001 1 io = none) ∧
      3 < (eight 8).view.sNblocks ∧ (eight 8).view.sNblocks ≤ diskmaxBlocks ∧ (eight 8).fs.mapped 3 = true ∧
      ∃ enough, ∀ fuel ≥ enough, ∃ x', (eight 8).writeBlock fuel utemp 3 = some x' ∧
        x'.readBlock fuel utemp 3 = none := by
  have hn : (eight 8).view.sNblocks = 8 := rfl
  have ht : UserRange utemp 1 := ⟨by decide, by decide⟩
  refine ⟨fun fuel io => ideWrite_unaligned (by decide) (by decide) fuel io, by rw [hn]; decide,
    by rw [hn]; decide, rfl, ?_⟩
  obtain ⟨enough, hp⟩ := patient_enough (eight 8).io.ide sect2Blk
  refine ⟨enough, fun fuel hf => ?_⟩
  obtain ⟨c, hw, -⟩ := writeBlock_spec (x := eight 8) ht (b := 3) (by decide) rfl (hp fuel hf)
  have hfree : (eight 8).view.blockIsFree 3 = true := by decide
  exact ⟨_, hw, readBlock_free rfl ((blockIsFree_disk _ c 3).trans hfree)⟩

end Mos.Ide
