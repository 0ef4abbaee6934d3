import Mos.Devices
import Mos.FsView
import Mos.Lib.While
/-!
# Ide — the driver of the disks (`fs/ide.c`)

The controller has registers for a sector number and a disk, a command register and a data port, and two disks of
sectors of 128 words.  A command says what the port transfers, word by word in order; how long the controller is busy
with it is not known.  What the driver must not do has no effect that is known, `none`: a write while the controller
is busy, an access to the port that no command asked for, or another command.
-/
namespace Mos.Ide

/-! ## The controller -/

def maltaIdeData : Word := 0x180001f0
def maltaIdeNsect : Word := maltaIdeData + 0x02
def maltaIdeLbal : Word := maltaIdeData + 0x03
def maltaIdeLbam : Word := maltaIdeData + 0x04
def maltaIdeLbah : Word := maltaIdeData + 0x05
def maltaIdeDevice : Word := maltaIdeData + 0x06
def maltaIdeStatus : Word := maltaIdeData + 0x07

/-- `MALTA_IDE_CMD_PIO_READ`, `MALTA_IDE_CMD_PIO_WRITE` -/
def cmdPioRead : BitVec 8 := 0x20
def cmdPioWrite : BitVec 8 := 0x30

/-- `MALTA_IDE_BUSY` -/
def ideBusy : BitVec 8 := 0x80

/-- The words of a sector. -/
def sectWords : Nat := 128

structure Controller where
  nsect : BitVec 8
  lbal : BitVec 8
  lbam : BitVec 8
  lbah : BitVec 8
  device : BitVec 8
  /-- The last command, with its disk, its first sector, the number of its sectors, and the words transferred so far. -/
  command : BitVec 8
  disk : Nat
  sector : Nat
  count : Nat
  done : Nat
  /-- How many more times the status says busy. -/
  busy : Nat
  /-- How long the next commands take. -/
  delays : Nat → Nat
  /-- The words of the sectors of the disks. -/
  disks : Nat → Nat → Nat → Word

namespace Controller

/-- The sector number in the registers. -/
def lba (c : Controller) : Nat :=
  c.lbal.toNat + 2 ^ 8 * c.lbam.toNat + 2 ^ 16 * c.lbah.toNat + 2 ^ 24 * (c.device.toNat % 16)

/-- A command that addresses a sector by its number. -/
def start (c : Controller) (v : BitVec 8) : Option Controller :=
  if c.device &&& 0x40 = 0 ∨ (v ≠ cmdPioRead ∧ v ≠ cmdPioWrite) then none
  else some { c with
    command := v
    disk := c.device.toNat / 16 % 2
    sector := c.lba
    count := if c.nsect = 0 then 256 else c.nsect.toNat
    done := 0
    busy := c.delays 0
    delays := fun n => c.delays (n + 1) }

def iowrite8 (c : Controller) (pa : Word) (v : BitVec 8) : Option Controller :=
  if c.busy ≠ 0 then none
  else if pa = maltaIdeNsect then some { c with nsect := v }
  else if pa = maltaIdeLbal then some { c with lbal := v }
  else if pa = maltaIdeLbam then some { c with lbam := v }
  else if pa = maltaIdeLbah then some { c with lbah := v }
  else if pa = maltaIdeDevice then some { c with device := v }
  else if pa = maltaIdeStatus then c.start v
  else none

/-- `ioread8` of the status. -/
def ioread8 (c : Controller) (pa : Word) : Option (BitVec 8 × Controller) :=
  if pa = maltaIdeStatus then some (if c.busy = 0 then (0x40, c) else (ideBusy, { c with busy := c.busy - 1 }))
    else none

/-- The port transfers a word for the command. -/
def transfers (c : Controller) (pa : Word) (v : BitVec 8) : Prop :=
  pa = maltaIdeData ∧ c.busy = 0 ∧ c.command = v ∧ c.done < sectWords * c.count

instance (c : Controller) (pa : Word) (v : BitVec 8) : Decidable (c.transfers pa v) :=
  inferInstanceAs (Decidable (_ ∧ _))

/-- `iowrite32` to the port. -/
def iowrite32 (c : Controller) (pa w : Word) : Option Controller :=
  if c.transfers pa cmdPioWrite then
    some { c with
      done := c.done + 1
      disks := fun d s i =>
        if d = c.disk ∧ s = c.sector + c.done / sectWords ∧ i = c.done % sectWords then w else c.disks d s i }
  else none

/-- `ioread32` from the port. -/
def ioread32 (c : Controller) (pa : Word) : Option (Word × Controller) :=
  if c.transfers pa cmdPioRead then
    some (c.disks c.disk (c.sector + c.done / sectWords) (c.done % sectWords), { c with done := c.done + 1 })
  else none

end Controller

/-! ## The system calls -/

/-- The controller, and the words of the memory of the caller. -/
structure Io where
  ide : Controller
  mem : Nat → Word

/-- `panic_on(syscall_write_dev(&temp, pa, 1))`, with the value of `temp`. -/
def writeDev8 (temp : Word) (v : BitVec 8) (pa : Word) (io : Io) : Option Io :=
  if badDevArgs temp pa 1 then none else (io.ide.iowrite8 pa v).map fun c => { io with ide := c }

/-- `panic_on(syscall_read_dev(&temp, pa, 1))`, and the value of `temp` after it. -/
def readDev8 (temp pa : Word) (io : Io) : Option (BitVec 8 × Io) :=
  if badDevArgs temp pa 1 then none else (io.ide.ioread8 pa).map fun (v, c) => (v, { io with ide := c })

/-- `panic_on(syscall_write_dev(va, MALTA_IDE_DATA, 4))`; a word that is not aligned is an exception. -/
def writeWord (va : Word) (io : Io) : Option Io :=
  if badDevArgs va maltaIdeData 4 ∨ va.toNat % 4 ≠ 0 then none
  else (io.ide.iowrite32 maltaIdeData (io.mem (va.toNat / 4))).map fun c => { io with ide := c }

/-- `panic_on(syscall_read_dev(va, MALTA_IDE_DATA, 4))` -/
def readWord (va : Word) (io : Io) : Option Io :=
  if badDevArgs va maltaIdeData 4 ∨ va.toNat % 4 ≠ 0 then none
  else (io.ide.ioread32 maltaIdeData).map fun (w, c) => ⟨c, Function.update io.mem (va.toNat / 4) w⟩

/-! ## The driver -/

def waitIdeReady (temp : Word) : Nat → Io → Option Io
  | 0, _ => none
  | fuel + 1, io => (readDev8 temp maltaIdeStatus io).bind fun (flag, io) =>
    if flag &&& ideBusy = 0 then some io else waitIdeReady temp fuel io

/-- Steps 1 to 6: the registers, and the command. -/
def setRegisters (temp diskno secno : Word) (cmd : BitVec 8) (io : Io) : Option Io :=
  (writeDev8 temp 1 maltaIdeNsect io).bind fun io =>
  (writeDev8 temp ((secno &&& 0xff).setWidth 8) maltaIdeLbal io).bind fun io =>
  (writeDev8 temp (((secno >>> 8) &&& 0xff).setWidth 8) maltaIdeLbam io).bind fun io =>
  (writeDev8 temp (((secno >>> 16) &&& 0xff).setWidth 8) maltaIdeLbah io).bind fun io =>
  (writeDev8 temp ((((secno >>> 24) &&& 0x0f) ||| 0xE0 ||| (diskno <<< 4)).setWidth 8) maltaIdeDevice io).bind fun io =>
  writeDev8 temp cmd maltaIdeStatus io

/-- The loop of both functions: `secno` and `offset`. -/
structure Turn where
  io : Io
  secno : Word
  offset : Word

/-- The body of the loop. -/
def transferSector (cmd : BitVec 8) (word : Word → Io → Option Io) (fuel : Nat) (temp diskno buf : Word) (t : Turn) :
    Option Turn :=
  (waitIdeReady temp fuel t.io).bind fun io =>
  (setRegisters temp diskno t.secno cmd io).bind fun io =>
  (waitIdeReady temp fuel io).bind fun io =>
  ((List.range sectWords).foldlM (fun io i => word (buf + t.offset + BitVec.ofNat 32 (i * 4)) io) io).bind fun io =>
  (readDev8 temp maltaIdeStatus io).map fun (_, io) => ⟨io, t.secno + 1, t.offset + 512⟩

/-- What `ide_read` and `ide_write` share. -/
def transfer (cmd : BitVec 8) (word : Word → Io → Option Io) (fuel : Nat) (temp diskno secno buf nsecs : Word)
    (io : Io) : Option Io :=
  let max := nsecs + secno
  if diskno ≥ 2 then none
  else (whileDo (fun t : Turn => decide (t.secno < max)) (transferSector cmd word fuel temp diskno buf) fuel
    ⟨io, secno, 0⟩).map (·.io)

/-- `ide_read`, with `temp` at an address on the stack. -/
def ideRead (fuel : Nat) (temp diskno secno dst nsecs : Word) (io : Io) : Option Io :=
  transfer cmdPioRead readWord fuel temp diskno secno dst nsecs io

def ideWrite (fuel : Nat) (temp diskno secno src nsecs : Word) (io : Io) : Option Io :=
  transfer cmdPioWrite writeWord fuel temp diskno secno src nsecs io

/-! ## The steps -/

section Steps

variable {temp : Word} {io : Io} {c : Controller} {v : BitVec 8}

theorem writeDev8_eq (ht : UserRange temp 1) {pa : Word} (hpa : InDevice 0x180001f0 0x8 pa 1)
    (hw : pa.toNat + 1 < 2 ^ 32) :
    writeDev8 temp v pa io = (io.ide.iowrite8 pa v).map fun c => { io with ide := c } := by
  have hgood : badDevArgs temp pa 1 = false :=
    (badDevArgs_iff fun h => absurd h.2.2 (Nat.not_le.2 hw)).2 ⟨.inl rfl, ht, .inr hpa⟩
  unfold writeDev8
  rw [hgood]
  rfl

theorem readStatus_eq (ht : UserRange temp 1) : readDev8 temp maltaIdeStatus io =
    some (if io.ide.busy = 0 then (0x40, io)
      else (ideBusy, { io with ide := { io.ide with busy := io.ide.busy - 1 } })) := by
  have hgood : badDevArgs temp maltaIdeStatus 1 = false :=
    (badDevArgs_iff fun h => absurd h.2.2 (by decide)).2 ⟨.inl rfl, ht, .inr (by unfold InDevice; decide)⟩
  unfold readDev8 Controller.ioread8
  rw [hgood, if_pos rfl]
  show some _ = _
  split <;> rfl

theorem writeRegister (ht : UserRange temp 1) (io : Io) (pa : Word)
    (hpa : InDevice 0x180001f0 0x8 pa 1 ∧ pa.toNat + 1 < 2 ^ 32) (hc : io.ide.iowrite8 pa v = some c) :
    writeDev8 temp v pa io = some ⟨c, io.mem⟩ := by
  rw [writeDev8_eq ht hpa.1 hpa.2, hc]
  rfl

theorem iowrite8_nsect (c : Controller) (v : BitVec 8) (h : c.busy = 0) :
    c.iowrite8 maltaIdeNsect v = some { c with nsect := v } := by
  unfold Controller.iowrite8
  rw [if_neg (not_not.2 h), if_pos rfl]

theorem iowrite8_lbal (c : Controller) (v : BitVec 8) (h : c.busy = 0) :
    c.iowrite8 maltaIdeLbal v = some { c with lbal := v } := by
  unfold Controller.iowrite8
  rw [if_neg (not_not.2 h), if_neg (by decide), if_pos rfl]

theorem iowrite8_lbam (c : Controller) (v : BitVec 8) (h : c.busy = 0) :
    c.iowrite8 maltaIdeLbam v = some { c with lbam := v } := by
  unfold Controller.iowrite8
  rw [if_neg (not_not.2 h), if_neg (by decide), if_neg (by decide), if_pos rfl]

theorem iowrite8_lbah (c : Controller) (v : BitVec 8) (h : c.busy = 0) :
    c.iowrite8 maltaIdeLbah v = some { c with lbah := v } := by
  unfold Controller.iowrite8
  rw [if_neg (not_not.2 h), if_neg (by decide), if_neg (by decide), if_neg (by decide), if_pos rfl]

theorem iowrite8_device (c : Controller) (v : BitVec 8) (h : c.busy = 0) :
    c.iowrite8 maltaIdeDevice v = some { c with device := v } := by
  unfold Controller.iowrite8
  rw [if_neg (not_not.2 h), if_neg (by decide), if_neg (by decide), if_neg (by decide), if_neg (by decide), if_pos rfl]

theorem iowrite8_status (c : Controller) (v : BitVec 8) (h : c.busy = 0) : c.iowrite8 maltaIdeStatus v = c.start v := by
  unfold Controller.iowrite8
  rw [if_neg (not_not.2 h), if_neg (by decide), if_neg (by decide), if_neg (by decide), if_neg (by decide),
    if_neg (by decide),
    if_pos rfl]

/-- **The driver waits until the controller is ready.** -/
theorem wait_spec (ht : UserRange temp 1) : ∀ (fuel : Nat) (io : Io), io.ide.busy < fuel →
    waitIdeReady temp fuel io = some { io with ide := { io.ide with busy := 0 } }
  | 0, _, h => absurd h (Nat.not_lt_zero _)
  | fuel + 1, io, h => by
    rw [waitIdeReady, readStatus_eq ht, Option.bind_some]
    by_cases h0 : io.ide.busy = 0
    · rw [if_pos h0]
      refine (if_pos (by decide)).trans ?_
      rw [← h0]
    · rw [if_neg h0]
      refine (if_neg (by decide)).trans ?_
      exact wait_spec ht fuel _ (show io.ide.busy - 1 < fuel by omega)

/-- The disk and the mode are in the register with the highest bits of the sector number. -/
theorem device_bits {x diskno : Word} (hx : x.toNat < 16) (hd : diskno.toNat < 2) :
    ((x ||| 0xE0 ||| (diskno <<< 4)).setWidth 8 : BitVec 8).toNat % 16 = x.toNat ∧
      ((x ||| 0xE0 ||| (diskno <<< 4)).setWidth 8 : BitVec 8).toNat / 16 % 2 = diskno.toNat ∧
      ((x ||| 0xE0 ||| (diskno <<< 4)).setWidth 8 : BitVec 8) &&& 0x40 ≠ 0 := by
  have hall : ∀ (i : Fin 16) (j : Fin 2),
      ((BitVec.ofNat 32 i ||| 0xE0 ||| (BitVec.ofNat 32 j <<< 4)).setWidth 8 : BitVec 8).toNat % 16 = i ∧
      ((BitVec.ofNat 32 i ||| 0xE0 ||| (BitVec.ofNat 32 j <<< 4)).setWidth 8 : BitVec 8).toNat / 16 % 2 = j ∧
      ((BitVec.ofNat 32 i ||| 0xE0 ||| (BitVec.ofNat 32 j <<< 4)).setWidth 8 : BitVec 8) &&& 0x40 ≠ 0 := by decide
  have h := hall ⟨x.toNat, hx⟩ ⟨diskno.toNat, hd⟩
  simp only [BitVec.ofNat_toNat, BitVec.setWidth_eq] at h
  exact h

theorem toNat_part (w : Word) (k : Nat) :
    ((w >>> k &&& 0xff).setWidth 8 : BitVec 8).toNat = w.toNat / 2 ^ k % 2 ^ 8 := by
  rw [BitVec.toNat_setWidth, BitVec.toNat_and, BitVec.toNat_ushiftRight, Nat.shiftRight_eq_div_pow]
  rw [show (0xff : Word).toNat = 2 ^ 8 - 1 from rfl, Nat.and_two_pow_sub_one_eq_mod, Nat.mod_mod]

/-- What the status register is given starts a command for the sector in the registers. -/
theorem start_spec (h : ¬(c.device &&& 0x40 = 0 ∨ (v ≠ cmdPioRead ∧ v ≠ cmdPioWrite))) (hn : c.nsect = 1) :
    c.start v = some { c with
    command := v, disk := c.device.toNat / 16 % 2, sector := c.lba, count := 1, done := 0, busy := c.delays 0,
    delays := fun n => c.delays (n + 1) } := by
  unfold Controller.start
  rw [if_neg h, hn]
  rfl

theorem inDevice_registers :
    ∀ pa ∈ [maltaIdeNsect, maltaIdeLbal, maltaIdeLbam, maltaIdeLbah, maltaIdeDevice, maltaIdeStatus],
    InDevice 0x180001f0 0x8 pa 1 ∧ pa.toNat + 1 < 2 ^ 32 := by
  intro pa h
  simp only [List.mem_cons, List.not_mem_nil, or_false] at h
  rcases h with rfl | rfl | rfl | rfl | rfl | rfl <;> exact ⟨by unfold InDevice; decide, by decide⟩

/-- The command for one sector, of which some words are transferred. -/
structure Serving (cmd : BitVec 8) (disk sector done : Nat) (delays : Nat → Nat) (disks : Nat → Nat → Nat → Word)
    (c : Controller) : Prop where
  command : c.command = cmd
  disk : c.disk = disk
  sector : c.sector = sector
  count : c.count = 1
  done : c.done = done
  delays : c.delays = delays
  disks : c.disks = disks

/-- **The registers say which sector**, and the command is given. -/
theorem setRegisters_spec (io : Io) (ht : UserRange temp 1) (hbusy : io.ide.busy = 0) {diskno secno : Word}
    (hd : diskno.toNat < 2) (hs : secno.toNat < 2 ^ 28) {cmd : BitVec 8} (hcmd : cmd = cmdPioRead ∨ cmd = cmdPioWrite) :
    ∃ c, setRegisters temp diskno secno cmd io = some ⟨c, io.mem⟩ ∧ c.busy = io.ide.delays 0 ∧
      Serving cmd diskno.toNat secno.toNat 0 (fun n => io.ide.delays (n + 1)) io.ide.disks c := by
  have hhigh : (secno >>> 24 &&& 0x0f).toNat = secno.toNat / 2 ^ 24 := by
    rw [BitVec.toNat_and, BitVec.toNat_ushiftRight, Nat.shiftRight_eq_div_pow,
      show (0x0f : Word).toNat = 2 ^ 4 - 1 from rfl,
      Nat.and_two_pow_sub_one_eq_mod]
    omega
  obtain ⟨hlow, hdisk, hmode⟩ := device_bits (x := secno >>> 24 &&& 0x0f) (by omega) hd
  have hlbal : ((secno &&& 0xff).setWidth 8 : BitVec 8).toNat = secno.toNat % 2 ^ 8 := by
    have h := toNat_part secno 0
    rwa [BitVec.ushiftRight_zero, Nat.pow_zero, Nat.div_one] at h
  have hlbam := toNat_part secno 8
  have hlbah := toNat_part secno 16
  unfold setRegisters
  generalize ((secno &&& 0xff).setWidth 8 : BitVec 8) = v₁ at hlbal ⊢
  generalize ((secno >>> 8 &&& 0xff).setWidth 8 : BitVec 8) = v₂ at hlbam ⊢
  generalize ((secno >>> 16 &&& 0xff).setWidth 8 : BitVec 8) = v₃ at hlbah ⊢
  generalize ((secno >>> 24 &&& 0x0f ||| 0xE0 ||| diskno <<< 4).setWidth 8 : BitVec 8) = v₄ at hlow hdisk hmode ⊢
  let c₁ : Controller := { io.ide with nsect := 1 }
  let c₂ : Controller := { c₁ with lbal := v₁ }
  let c₃ : Controller := { c₂ with lbam := v₂ }
  let c₄ : Controller := { c₃ with lbah := v₃ }
  let c₅ : Controller := { c₄ with device := v₄ }
  have hlba : c₅.lba = secno.toNat := by
    show v₁.toNat + 2 ^ 8 * v₂.toNat + 2 ^ 16 * v₃.toNat + 2 ^ 24 * (v₄.toNat % 16) = _
    rw [hlbal, hlbam, hlbah, hlow, hhigh]
    omega
  have hno : ¬(c₅.device &&& 0x40 = 0 ∨ (cmd ≠ cmdPioRead ∧ cmd ≠ cmdPioWrite)) :=
    not_or.2 ⟨hmode, fun h => hcmd.elim h.1 h.2⟩
  have h₁ : writeDev8 temp 1 maltaIdeNsect io = some ⟨c₁, io.mem⟩ :=
    writeRegister ht io _ (inDevice_registers _ (by simp)) (iowrite8_nsect io.ide 1 hbusy)
  have h₂ : writeDev8 temp v₁ maltaIdeLbal ⟨c₁, io.mem⟩ = some ⟨c₂, io.mem⟩ :=
    writeRegister ht _ _ (inDevice_registers _ (by simp)) (iowrite8_lbal c₁ v₁ hbusy)
  have h₃ : writeDev8 temp v₂ maltaIdeLbam ⟨c₂, io.mem⟩ = some ⟨c₃, io.mem⟩ :=
    writeRegister ht _ _ (inDevice_registers _ (by simp)) (iowrite8_lbam c₂ v₂ hbusy)
  have h₄ : writeDev8 temp v₃ maltaIdeLbah ⟨c₃, io.mem⟩ = some ⟨c₄, io.mem⟩ :=
    writeRegister ht _ _ (inDevice_registers _ (by simp)) (iowrite8_lbah c₃ v₃ hbusy)
  have h₅ : writeDev8 temp v₄ maltaIdeDevice ⟨c₄, io.mem⟩ = some ⟨c₅, io.mem⟩ :=
    writeRegister ht _ _ (inDevice_registers _ (by simp)) (iowrite8_device c₄ v₄ hbusy)
  rw [h₁, Option.bind_some, h₂, Option.bind_some, h₃, Option.bind_some, h₄, Option.bind_some, h₅, Option.bind_some]
  exact ⟨_, writeRegister ht ⟨c₅, io.mem⟩ maltaIdeStatus (inDevice_registers _ (by simp))
    ((iowrite8_status c₅ cmd hbusy).trans (start_spec hno rfl)), rfl, rfl, hdisk, hlba, rfl, rfl, rfl, rfl⟩

/-! ## Transfers -/

/-- The words of the buffer. -/
structure Buffer (buf : Word) (nsecs : Nat) : Prop where
  low : utemp.toNat ≤ buf.toNat
  high : buf.toNat + 512 * nsecs ≤ utop.toNat
  aligned : buf.toNat % 4 = 0

/-- The disks and the memory after some words are transferred. -/
structure Data where
  disks : Nat → Nat → Nat → Word
  mem : Nat → Word

/-- One word is transferred, of any sector of the command. -/
def Moves (cmd : BitVec 8) (word : Word → Io → Option Io) (diskno secno nsecs : Nat) (buf : Word) (data : Nat → Data) :
    Prop :=
  ∀ i < nsecs, ∀ j < sectWords, ∀ (va : Word) c delays, va.toNat = buf.toNat + 512 * i + 4 * j → c.busy = 0 →
    Serving cmd diskno (secno + i) j delays (data (sectWords * i + j)).disks c →
    ∃ c', word va ⟨c, (data (sectWords * i + j)).mem⟩ = some ⟨c', (data (sectWords * i + (j + 1))).mem⟩ ∧ c'.busy = 0 ∧
      Serving cmd diskno (secno + i) (j + 1) delays (data (sectWords * i + (j + 1))).disks c'

section Transfer

variable {cmd : BitVec 8} {word : Word → Io → Option Io} {diskno secno nsecs : Nat} {buf : Word} {data : Nat → Data}

theorem words_spec (hb : Buffer buf nsecs) (hw : Moves cmd word diskno secno nsecs buf data) {i : Nat} (hi : i < nsecs)
    {delays : Nat → Nat} {offset : Word} (ho : offset = BitVec.ofNat 32 (512 * i)) (hbusy : c.busy = 0)
    (hc : Serving cmd diskno (secno + i) 0 delays (data (sectWords * i)).disks c) : ∀ n ≤ sectWords,
    ∃ c', (List.range n).foldlM (fun io j => word (buf + offset + BitVec.ofNat 32 (j * 4)) io)
    ⟨c, (data (sectWords * i)).mem⟩ =
        some ⟨c', (data (sectWords * i + n)).mem⟩ ∧ c'.busy = 0 ∧
      Serving cmd diskno (secno + i) n delays (data (sectWords * i + n)).disks c'
  | 0, _ => ⟨c, rfl, hbusy, hc⟩
  | n + 1, hn => by
    obtain ⟨c₁, h₁, hbusy₁, hc₁⟩ := words_spec hb hw hi ho hbusy hc n (Nat.le_of_succ_le hn)
    have hva : (buf + offset + BitVec.ofNat 32 (n * 4)).toNat = buf.toNat + 512 * i + 4 * n := by
      have hend : buf.toNat + 512 * i + 4 * n < 2 ^ 32 := by
        have htop : utop.toNat < 2 ^ 32 := BitVec.isLt _
        have hhigh := hb.high
        unfold sectWords at hn
        omega
      rw [ho, BitVec.toNat_add, BitVec.toNat_add, BitVec.toNat_ofNat, BitVec.toNat_ofNat]
      omega
    obtain ⟨c₂, h₂, hc₂⟩ := hw i hi n hn _ c₁ delays hva hbusy₁ hc₁
    refine ⟨c₂, ?_, hc₂⟩
    rw [List.range_succ, List.foldlM_append, h₁]
    exact (bind_pure _).trans h₂

/-- The state between two turns of the loop, after `k` of them. -/
structure Between (secno : Nat) (data : Nat → Data) (fuel : Nat) (delays : Nat → Nat) (k : Nat) (t : Turn) : Prop where
  secno : t.secno.toNat = secno + k
  offset : t.offset = BitVec.ofNat 32 (512 * k)
  mem : t.io.mem = (data (sectWords * k)).mem
  disks : t.io.ide.disks = (data (sectWords * k)).disks
  delays : t.io.ide.delays = fun n => delays (k + n)
  busy : t.io.ide.busy < fuel

/-- **One sector is transferred.** -/
theorem transferSector_spec (ht : UserRange temp 1) (hcmd : cmd = cmdPioRead ∨ cmd = cmdPioWrite) {dw : Word}
    (hdw : dw.toNat = diskno) (hd : diskno < 2) (hs : secno + nsecs ≤ 2 ^ 28) (hb : Buffer buf nsecs)
    (hw : Moves cmd word diskno secno nsecs buf data) {fuel : Nat} {delays : Nat → Nat}
    (hpatient : ∀ i < nsecs, delays i < fuel) {k : Nat} (hk : k < nsecs) {t : Turn}
    (h : Between secno data fuel delays k t) :
    ∃ t', transferSector cmd word fuel temp dw buf t = some t' ∧ Between secno data fuel delays (k + 1) t' := by
  have hsec : t.secno.toNat < 2 ^ 28 := by
    rw [h.secno]
    omega
  -- the controller is ready, and then busy with the command
  obtain ⟨c₁, h₁, hbusy₁, hc₁⟩ := setRegisters_spec { t.io with ide := { t.io.ide with busy := 0 } } ht rfl
    (show dw.toNat < 2 by omega) hsec hcmd
  have hwait : c₁.busy < fuel := by
    rw [hbusy₁]
    show t.io.ide.delays 0 < fuel
    rw [h.delays]
    exact hpatient k hk
  have hc₂ : Serving cmd diskno (secno + k) 0 (fun n => delays (k + 1 + n)) (data (sectWords * k)).disks
      { c₁ with busy := 0 } := by
    refine ⟨hc₁.command, hc₁.disk.trans hdw, hc₁.sector.trans h.secno, hc₁.count, hc₁.done, hc₁.delays.trans ?_,
      hc₁.disks.trans h.disks⟩
    funext n
    show t.io.ide.delays (n + 1) = _
    rw [h.delays, Nat.add_assoc, Nat.add_comm 1 n]
  obtain ⟨c₃, h₃, hbusy₃, hc₃⟩ :=
    words_spec hb hw hk h.offset (c := { c₁ with busy := 0 }) rfl hc₂ sectWords (Nat.le_refl _)
  refine ⟨⟨⟨c₃, (data (sectWords * k + sectWords)).mem⟩, t.secno + 1, t.offset + 512⟩, ?_, ?_, ?_, rfl,
    hc₃.disks, hc₃.delays, ?_⟩
  · unfold transferSector
    rw [wait_spec ht fuel t.io h.busy, Option.bind_some, h₁, Option.bind_some,
      wait_spec ht fuel _ hwait, Option.bind_some]
    show Option.bind (List.foldlM _ (⟨{ c₁ with busy := 0 }, t.io.mem⟩ : Io) _) _ = _
    rw [h.mem, h₃, Option.bind_some, readStatus_eq ht, if_pos hbusy₃]
    rfl
  · show (t.secno + 1).toNat = _
    rw [BitVec.toNat_add, h.secno]
    show (secno + k + 1) % 2 ^ 32 = _
    omega
  · show t.offset + 512 = _
    rw [h.offset, Nat.mul_succ, BitVec.ofNat_add]
    rfl
  · show c₃.busy < fuel
    rw [hbusy₃]
    exact Nat.lt_of_le_of_lt (Nat.zero_le _) h.busy

/-- **All sectors are transferred**, by a driver that waits long enough. -/
theorem transfer_spec (ht : UserRange temp 1) (hcmd : cmd = cmdPioRead ∨ cmd = cmdPioWrite) {dw sw nw : Word}
    (hdw : dw.toNat = diskno) (hsw : sw.toNat = secno) (hnw : nw.toNat = nsecs) (hd : diskno < 2)
    (hs : secno + nsecs ≤ 2 ^ 28) (hb : Buffer buf nsecs) (hw : Moves cmd word diskno secno nsecs buf data)
    (h0 : data 0 = ⟨io.ide.disks, io.mem⟩) {fuel : Nat} (hbusy : io.ide.busy < fuel)
    (hpatient : ∀ i < nsecs, io.ide.delays i < fuel) (hfuel : nsecs < fuel) :
    ∃ c, transfer cmd word fuel temp dw sw buf nw io = some ⟨c, (data (sectWords * nsecs)).mem⟩ ∧
      c.disks = (data (sectWords * nsecs)).disks ∧ c.busy < fuel ∧ c.delays = fun n => io.ide.delays (nsecs + n) := by
  have hmax : (nw + sw).toNat = secno + nsecs := by
    rw [BitVec.toNat_add, hnw, hsw]
    omega
  have hstart : Between secno data fuel io.ide.delays 0 ⟨io, sw, 0⟩ := by
    refine ⟨hsw, rfl, ?_, ?_, ?_, hbusy⟩
    · rw [Nat.mul_zero, h0]
    · rw [Nat.mul_zero, h0]
    · funext n
      rw [Nat.zero_add]
  obtain ⟨t, ht, hend⟩ :=
    whileDo_rounds (fun t : Turn => decide (t.secno < nw + sw)) (transferSector cmd word fuel temp dw buf)
    (Between secno data fuel io.ide.delays) (n := nsecs)
    (fun k hk t h => by
      refine ⟨decide_eq_true ?_, transferSector_spec ht hcmd hdw hd hs hb hw hpatient hk h⟩
      show t.secno.toNat < (nw + sw).toNat
      rw [hmax, h.secno]
      omega)
    (fun t h => by
      refine decide_eq_false ?_
      show ¬t.secno.toNat < (nw + sw).toNat
      rw [hmax, h.secno]
      omega)
    fuel 0 ⟨io, sw, 0⟩ (Nat.zero_le _) hstart (by omega)
  refine ⟨t.io.ide, ?_, hend.disks, hend.busy, hend.delays⟩
  have hdw2 : ¬dw ≥ 2 := by
    show ¬2 ≤ dw.toNat
    omega
  unfold transfer
  rw [if_neg hdw2, ht, ← hend.mem]
  rfl

end Transfer

/-! ## The data -/

/-- A buffer on the disk: its first words. -/
def written (diskno secno base k : Nat) (d : Data) : Data :=
  { d with disks := fun n s w => if n = diskno ∧ secno ≤ s ∧ w < sectWords ∧ sectWords * (s - secno) + w < k
      then d.mem (base + (sectWords * (s - secno) + w)) else d.disks n s w }

/-- Sectors in a buffer: their first words. -/
def fetched (diskno secno base k : Nat) (d : Data) : Data :=
  { d with mem := fun a => if base ≤ a ∧ a < base + k
      then d.disks diskno (secno + (a - base) / sectWords) ((a - base) % sectWords) else d.mem a }

section Moves

variable {buf : Word} {diskno secno nsecs : Nat} {d : Data}

theorem written_disks (base k n s w : Nat) : (written diskno secno base k d).disks n s w =
    if n = diskno ∧ secno ≤ s ∧ w < sectWords ∧ sectWords * (s - secno) + w < k
    then d.mem (base + (sectWords * (s - secno) + w)) else d.disks n s w := rfl

theorem fetched_mem (base k a : Nat) : (fetched diskno secno base k d).mem a =
    if base ≤ a ∧ a < base + k then d.disks diskno (secno + (a - base) / sectWords) ((a - base) % sectWords)
    else d.mem a := rfl

theorem written_zero (base : Nat) : written diskno secno base 0 d = d := by
  unfold written
  simp

theorem fetched_zero (base : Nat) : fetched diskno secno base 0 d = d := by
  unfold fetched
  have hno : ∀ a, ¬(base ≤ a ∧ a < base + 0) := by omega
  simp only [hno, if_false]

theorem word_allowed (hb : Buffer buf nsecs) {i j : Nat} (hi : i < nsecs) (hj : j < sectWords) {va : Word}
    (hva : va.toNat = buf.toNat + 512 * i + 4 * j) :
    ¬(badDevArgs va maltaIdeData 4 ∨ va.toNat % 4 ≠ 0) ∧ va.toNat / 4 = buf.toNat / 4 + (sectWords * i + j) := by
  have hlow := hb.low
  have hhigh := hb.high
  have haligned := hb.aligned
  unfold sectWords at hj ⊢
  have huser : UserRange va 4 := by
    refine ⟨by omega, ?_⟩
    show va.toNat + 4 ≤ utop.toNat
    omega
  have hgood : badDevArgs va maltaIdeData 4 = false :=
    (badDevArgs_iff fun h => absurd h.2.2 (by decide)).2 ⟨.inr (.inr rfl), huser, .inr (by unfold InDevice; decide)⟩
  refine ⟨?_, by omega⟩
  rw [hgood]
  rintro (h | h)
  · exact Bool.false_ne_true h
  · omega

theorem transfers_ready {cmd : BitVec 8} {sector j : Nat} {delays : Nat → Nat} {disks : Nat → Nat → Nat → Word}
    (hbusy : c.busy = 0) (hc : Serving cmd diskno sector j delays disks c) (hj : j < sectWords) :
    c.transfers maltaIdeData cmd := by
  refine ⟨rfl, hbusy, hc.command, ?_⟩
  rw [hc.done, hc.count]
  omega

theorem writeWord_moves (hb : Buffer buf nsecs) (d : Data) :
    Moves cmdPioWrite writeWord diskno secno nsecs buf fun k => written diskno secno (buf.toNat / 4) k d := by
  intro i hi j hj va c delays hva hbusy hc
  obtain ⟨hgood, haddr⟩ := word_allowed hb hi hj hva
  refine ⟨{ c with
      done := c.done + 1
      disks := fun n s w => if n = c.disk ∧ s = c.sector + c.done / sectWords ∧ w = c.done % sectWords
        then d.mem (va.toNat / 4) else c.disks n s w }, ?_, hbusy,
    hc.command, hc.disk, hc.sector, hc.count, congrArg (· + 1) hc.done, hc.delays, ?_⟩
  · unfold writeWord Controller.iowrite32
    rw [if_neg hgood, if_pos (transfers_ready hbusy hc hj)]
    rfl
  · funext n s w
    show (if n = c.disk ∧ s = c.sector + c.done / sectWords ∧ w = c.done % sectWords
      then d.mem (va.toNat / 4) else c.disks n s w) = _
    rw [hc.disk, hc.sector, hc.done, hc.disks, haddr, Nat.div_eq_of_lt hj, Nat.mod_eq_of_lt hj,
      written_disks, written_disks]
    unfold sectWords at *
    by_cases hthis : n = diskno ∧ s = secno + i + 0 ∧ w = j
    · obtain ⟨rfl, rfl, rfl⟩ := hthis
      have hat : secno + i + 0 - secno = i := by omega
      rw [if_pos ⟨rfl, rfl, rfl⟩, hat, if_pos ⟨rfl, by omega, hj, by omega⟩]
    · rw [if_neg hthis]
      refine if_congr ?_ rfl rfl
      constructor
      · exact fun h => ⟨h.1, h.2.1, h.2.2.1, by omega⟩
      · refine fun h => ⟨h.1, h.2.1, h.2.2.1, ?_⟩
        by_contra hge
        exact hthis ⟨h.1, by omega, by omega⟩

theorem readWord_moves (hb : Buffer buf nsecs) (d : Data) :
    Moves cmdPioRead readWord diskno secno nsecs buf fun k => fetched diskno secno (buf.toNat / 4) k d := by
  intro i hi j hj va c delays hva hbusy hc
  obtain ⟨hgood, haddr⟩ := word_allowed hb hi hj hva
  refine ⟨{ c with done := c.done + 1 }, ?_, hbusy,
    hc.command, hc.disk, hc.sector, hc.count, congrArg (· + 1) hc.done, hc.delays, hc.disks⟩
  unfold readWord Controller.ioread32
  rw [if_neg hgood, if_pos (transfers_ready hbusy hc hj)]
  refine congrArg (fun mem => some (⟨{ c with done := c.done + 1 }, mem⟩ : Io)) ?_
  rw [hc.disk, hc.sector, hc.done, hc.disks, haddr, Nat.div_eq_of_lt hj, Nat.mod_eq_of_lt hj]
  funext a
  by_cases ha : a = buf.toNat / 4 + (sectWords * i + j)
  · rw [ha, Function.update_self, fetched_mem, if_pos (by omega), Nat.add_sub_cancel_left]
    unfold sectWords at *
    exact congrArg₂ (d.disks diskno) (by omega) (by omega)
  · refine (Function.update_of_ne ha _ _).trans ?_
    show (fetched diskno secno (buf.toNat / 4) (sectWords * i + j) d).mem a = _
    rw [fetched_mem, fetched_mem]
    exact if_congr (by omega) rfl rfl

end Moves

/-! ## The driver -/

section Driver

variable {diskno secno nsecs : Word} {buf : Word}

/-- What the driver needs: a disk, sectors with 28 bits, and a buffer. -/
structure Request (temp diskno secno buf nsecs : Word) : Prop where
  temp : UserRange temp 1
  disk : diskno.toNat < 2
  sectors : secno.toNat + nsecs.toNat ≤ 2 ^ 28
  buffer : Buffer buf nsecs.toNat

/-- The driver waits longer than the controller is busy. -/
structure Patient (fuel nsecs : Nat) (c : Controller) : Prop where
  busy : c.busy < fuel
  delays : ∀ i < nsecs, c.delays i < fuel
  sectors : nsecs < fuel

/-- **`ide_write`** writes the sectors, and nothing else. -/
theorem ideWrite_spec (io : Io) (h : Request temp diskno secno buf nsecs) {fuel : Nat}
    (hp : Patient fuel nsecs.toNat io.ide) :
    ∃ c, ideWrite fuel temp diskno secno buf nsecs io = some ⟨c, io.mem⟩ ∧
      c.disks = (written diskno.toNat secno.toNat (buf.toNat / 4) (sectWords * nsecs.toNat)
        ⟨io.ide.disks, io.mem⟩).disks ∧
      c.busy < fuel ∧ c.delays = fun n => io.ide.delays (nsecs.toNat + n) :=
  transfer_spec h.temp (.inr rfl) rfl rfl rfl h.disk h.sectors h.buffer
    (writeWord_moves h.buffer ⟨io.ide.disks, io.mem⟩)
    (written_zero _) hp.busy hp.delays hp.sectors

/-- **`ide_read`** reads the sectors into the buffer, and nothing else. -/
theorem ideRead_spec (io : Io) (h : Request temp diskno secno buf nsecs) {fuel : Nat}
    (hp : Patient fuel nsecs.toNat io.ide) :
    ∃ c, ideRead fuel temp diskno secno buf nsecs io =
        some ⟨c, (fetched diskno.toNat secno.toNat (buf.toNat / 4) (sectWords * nsecs.toNat)
          ⟨io.ide.disks, io.mem⟩).mem⟩ ∧
      c.disks = io.ide.disks ∧ c.busy < fuel ∧ c.delays = fun n => io.ide.delays (nsecs.toNat + n) :=
  transfer_spec h.temp (.inl rfl) rfl rfl rfl h.disk h.sectors h.buffer (readWord_moves h.buffer ⟨io.ide.disks, io.mem⟩)
    (fetched_zero _) hp.busy hp.delays hp.sectors

end Driver

end Steps

end Mos.Ide
