import Mos.Elf
import Mos.Fs
/-!
# Headers — the program headers that `spawn` reads (`user/lib/spawn.c`)

`ehdr` points into `elfbuf`, and so does `ph`: each header is read over the one before, and over the file header.  The
count and the stride of the loop are read back from there at every turn.

`read_map` and `elf_load_seg` are given by what they do; what that is comes in `Loaders`.
-/
namespace Mos
namespace Spawning

abbrev Bytes := Nat → BitVec 8

/-- The file behind a descriptor. -/
structure File where
  size : Word
  byte : Bytes
  bounded : size.toNat ≤ maxFileSize

/-- `file_read`: the bytes that it copies. -/
def File.fileRead (f : File) (n : Nat) (offset : Word) : Nat :=
  if f.size < offset then 0
  else if f.size < offset + BitVec.ofNat 32 n then (f.size - offset).toNat
  else n

/-- The loop of `readn`, behind `seek` to `off`. -/
def File.readnLoop (f : File) (off : Word) (n tot : Nat) : Nat :=
  if tot < n then
    let m := f.fileRead (n - tot) (off + BitVec.ofNat 32 tot)
    if m = 0 then tot else f.readnLoop off n (tot + m)
  else tot
termination_by n - tot

def File.readn (f : File) (off : Word) (n : Nat) : Nat := f.readnLoop off n 0

/-! ## `spawn` -/

def sizeofElfbuf : Nat := 512

/-- `elfbuf`, with the size that `elf_from` is given. -/
def elfOf (buf : Bytes) : Binary := ⟨sizeofElf32Ehdr, buf⟩

/-- `ehdr->e_phentsize` -/
def phentsize (buf : Bytes) : Nat := (elfOf buf).u16 42

/-- `ehdr->e_phnum` -/
def phnum (buf : Bytes) : Nat := (elfOf buf).u16 44

/-- `elfbuf` behind a `readn` of `n` bytes. -/
def File.fill (f : File) (off : Word) (n : Nat) (buf : Bytes) : Bytes :=
  fun i => if i < n then f.byte (off.toNat + i) else buf i

/-- What the calls do: `init_stack` with the stack pointer, `read_map` and `elf_load_seg` for a header, where `none`
is the end of the machine, and `syscall_set_trapframe`. -/
structure Results (σ : Type) where
  initStack : Int
  initSp : Word
  load : Elf32Phdr → σ → Option (Int × σ)
  setTrapframe : Int

inductive Event where
  /-- A header of `n` bytes is read at `off`. -/
  | phdr (off : Word) (n : Nat)
  /-- `syscall_set_trapframe`, with `cp0_epc` and `regs[29]`. -/
  | trapframe (epc sp : Word)
deriving DecidableEq

inductive Ending where
  /-- The child has its registers. -/
  | started
  | failed (r : Int)
  /-- A read has gone beyond `elfbuf`. -/
  | overrun
  | halted
deriving DecidableEq

theorem u16_lt (b : Binary) (o : Nat) : b.u16 o < 65536 := by
  have := (b.byte o).isLt
  have := (b.byte (o + 1)).isLt
  unfold Binary.u16
  omega

/-- A turn of the loop: the header at `off` is read, and loaded if it is `PT_LOAD`; then `elfbuf`, or how `spawn`
ends. -/
def turn {σ : Type} (r : Results σ) (f : File) (off : Word) (buf : Bytes) (s : σ) : σ × Except Ending Bytes :=
  let n := f.readn off (phentsize buf)
  if sizeofElfbuf < n then (s, .error .overrun)
  else
    let buf' := f.fill off n buf
    let ph := (elfOf buf').phdr 0
    match if ph.pType = ptLoad then r.load ph s else some (0, s) with
    | none => (s, .error .halted)
    | some (x, s') => (s', if x < 0 then .error (.failed x) else .ok buf')

/-- `ELF_FOREACH_PHDR_OFF`, from turn `idx` on; without an ending it is through. -/
def phdrLoop {σ : Type} (r : Results σ) (f : File) (idx : Nat) (off : Word) (buf : Bytes) (s : σ) :
    List Event × σ × Option Ending :=
  if _h : idx < phnum buf then
    match turn r f off buf s with
    | (s', .error e) => ([.phdr off (phentsize buf)], s', some e)
    | (s', .ok buf') =>
      let rest := phdrLoop r f (idx + 1) (off + BitVec.ofNat 32 (phentsize buf')) buf' s'
      (.phdr off (phentsize buf) :: rest.1, rest.2)
  else ([], s, none)
termination_by 65536 - idx
decreasing_by
  have := u16_lt (elfOf buf) 44
  unfold phnum at _h
  omega

/-- `spawn` behind `open`, to `syscall_set_trapframe`; `elfbuf` is what the stack had there. -/
def spawn {σ : Type} (r : Results σ) (f : File) (elfbuf : Bytes) (s : σ) : List Event × σ × Ending :=
  if f.readn 0 sizeofElf32Ehdr ≠ sizeofElf32Ehdr then ([], s, .failed (f.readn 0 sizeofElf32Ehdr))
  else
    let buf := f.fill 0 sizeofElf32Ehdr elfbuf
    match elfFrom (elfOf buf) with
    | none => ([], s, .failed (-eNotExec))
    | some ehdr =>
      if r.initStack < 0 then ([], s, .failed r.initStack)
      else
        match phdrLoop r f 0 ehdr.ePhoff buf s with
        | (es, s', some e) => (es, s', e)
        | (es, s', none) =>
          (es ++ [.trapframe ehdr.eEntry r.initSp], s', if r.setTrapframe ≠ 0 then .failed r.setTrapframe else .started)

/-! ## What is meant -/

/-- The offset of header `k`. -/
def offsetOf (ehdr : Elf32Ehdr) (k : Nat) : Word := ehdr.ePhoff + BitVec.ofNat 32 (k * ehdr.ePhentsize)

/-- The headers from `k` on, in turn. -/
def headersFrom (ehdr : Elf32Ehdr) (k : Nat) : List Event :=
  (List.range' k (ehdr.ePhnum - k)).map fun i => .phdr (offsetOf ehdr i) ehdr.ePhentsize

/-- `elfbuf`, with the file header in it. -/
def File.header (f : File) (elfbuf : Bytes) : Bytes := f.fill 0 sizeofElf32Ehdr elfbuf

/-- The file has a header that `elf_from` accepts. -/
structure Accepted (f : File) (elfbuf : Bytes) (ehdr : Elf32Ehdr) : Prop where
  long : f.readn 0 sizeofElf32Ehdr = sizeofElf32Ehdr
  accepts : elfFrom (elfOf (f.header elfbuf)) = some ehdr

/-- **The headers are read as the file header says**, inside `elfbuf`, and the child starts at `e_entry`.  A call that
fails ends this early. -/
structure ReadsHeaders (f : File) (elfbuf : Bytes) (ehdr : Elf32Ehdr) : Prop where
  inside : ∀ (σ : Type) (r : Results σ) (s : σ), (spawn r f elfbuf s).2.2 ≠ .overrun
  inTurn : ∀ (σ : Type) (r : Results σ) (s : σ), (spawn r f elfbuf s).1 <+: headersFrom ehdr 0 ++
    [.trapframe ehdr.eEntry r.initSp]
  whole : ∀ (σ : Type) (r : Results σ) (s : σ), (spawn r f elfbuf s).2.2 = .started →
    (spawn r f elfbuf s).1 = headersFrom ehdr 0 ++ [.trapframe ehdr.eEntry r.initSp]

/-- `elfbuf` behind the headers before `k`, read where they are meant to be. -/
def File.held (f : File) (elfbuf : Bytes) (ehdr : Elf32Ehdr) : Nat → Bytes
  | 0 => f.header elfbuf
  | k + 1 =>
    f.fill (offsetOf ehdr k) (min ehdr.ePhentsize (f.size.toNat - (offsetOf ehdr k).toNat)) (f.held elfbuf ehdr k)

/-- **The file header outlives the headers read over it**: each leaves the count and the stride of the loop what they
do, and none is longer than `elfbuf`. -/
structure Outlives (f : File) (elfbuf : Bytes) (ehdr : Elf32Ehdr) : Prop where
  stride : ∀ k < ehdr.ePhnum, phentsize (f.held elfbuf ehdr k) = ehdr.ePhentsize
  count : ∀ k ≤ ehdr.ePhnum, k < phnum (f.held elfbuf ehdr k) ↔ k < ehdr.ePhnum
  inside : ∀ k < ehdr.ePhnum, min ehdr.ePhentsize (f.size.toNat - (offsetOf ehdr k).toNat) ≤ sizeofElfbuf

/-! ## `readn` -/

section

variable {f : File} {off : Word} {n k : Nat} {buf elfbuf : Bytes} {ehdr : Elf32Ehdr} {σ : Type}
    {r : Results σ} {s s' : σ}

theorem fileRead_eq (hn : n < 65536) : f.fileRead n off = min n (f.size.toNat - off.toNat) := by
  have hmax : f.size.toNat ≤ 4194304 := f.bounded
  have hsum : ¬f.size < off → (off + BitVec.ofNat 32 n).toNat = off.toNat + n := by
    intro h
    rw [BitVec.lt_def, Nat.not_lt] at h
    rw [BitVec.toNat_add, BitVec.toNat_ofNat]
    omega
  unfold File.fileRead
  by_cases h : f.size < off
  · rw [if_pos h]
    rw [BitVec.lt_def] at h
    omega
  · have hle : off.toNat ≤ f.size.toNat := by
      rw [BitVec.lt_def, Nat.not_lt] at h
      exact h
    rw [if_neg h]
    split
    · rename_i hlt
      rw [BitVec.lt_def, hsum h] at hlt
      rw [BitVec.toNat_sub_of_le (BitVec.le_def.2 hle)]
      omega
    · rename_i hlt
      rw [BitVec.lt_def, hsum h] at hlt
      omega

/-- **`readn` stops at the end of the file only.** -/
theorem readn_eq (hn : n < 65536) : f.readn off n = min n (f.size.toNat - off.toNat) := by
  have hmax : f.size.toNat ≤ 4194304 := f.bounded
  unfold File.readn File.readnLoop
  rw [Nat.sub_zero, BitVec.add_zero, fileRead_eq hn]
  dsimp only
  by_cases h0 : 0 < n
  · rw [if_pos h0]
    by_cases hm : min n (f.size.toNat - off.toNat) = 0
    · rw [if_pos hm, hm]
    · rw [if_neg hm, Nat.zero_add]
      unfold File.readnLoop
      by_cases hlt : min n (f.size.toNat - off.toNat) < n
      · -- the second read is at the end
        have hend : (off + BitVec.ofNat 32 (min n (f.size.toNat - off.toNat))).toNat = f.size.toNat := by
          rw [BitVec.toNat_add, BitVec.toNat_ofNat]
          omega
        rw [if_pos hlt, fileRead_eq (by omega), hend, Nat.sub_self, Nat.min_zero]
        exact if_pos rfl
      · rw [if_neg hlt]
  · rw [if_neg h0]
    omega

/-! ## The loop -/

theorem headersFrom_cons (hk : k < ehdr.ePhnum) :
    headersFrom ehdr k = .phdr (offsetOf ehdr k) ehdr.ePhentsize :: headersFrom ehdr (k + 1) := by
  unfold headersFrom
  have hsub : ehdr.ePhnum - k = (ehdr.ePhnum - (k + 1)) + 1 := by omega
  rw [hsub, List.range'_succ, List.map_cons]

theorem headersFrom_nil (hk : ehdr.ePhnum ≤ k) : headersFrom ehdr k = [] := by
  unfold headersFrom
  rw [Nat.sub_eq_zero_of_le hk]
  rfl

theorem offsetOf_succ (ehdr : Elf32Ehdr) (k : Nat) :
    offsetOf ehdr (k + 1) = offsetOf ehdr k + BitVec.ofNat 32 ehdr.ePhentsize := by
  unfold offsetOf
  rw [Nat.succ_mul, BitVec.ofNat_add, BitVec.add_assoc]

theorem phentsize_lt (buf : Bytes) : phentsize buf < 65536 := u16_lt _ _

theorem fill_held (hs : phentsize (f.held elfbuf ehdr k) = ehdr.ePhentsize) :
    f.fill (offsetOf ehdr k) (f.readn (offsetOf ehdr k) (phentsize (f.held elfbuf ehdr k))) (f.held elfbuf ehdr k) =
      f.held elfbuf ehdr (k + 1) := by
  rw [readn_eq (phentsize_lt _), hs]
  rfl

theorem turn_held (hs : phentsize (f.held elfbuf ehdr k) = ehdr.ePhentsize)
    (hin : min ehdr.ePhentsize (f.size.toNat - (offsetOf ehdr k).toNat) ≤ sizeofElfbuf) (r : Results σ) (s : σ) :
    turn r f (offsetOf ehdr k) (f.held elfbuf ehdr k) s =
      match if ((elfOf (f.held elfbuf ehdr (k + 1))).phdr 0).pType = ptLoad then r.load
        ((elfOf (f.held elfbuf ehdr (k + 1))).phdr 0) s
        else some (0, s) with
      | none => (s, .error .halted)
      | some (x, s') => (s', if x < 0 then .error (.failed x) else .ok (f.held elfbuf ehdr (k + 1))) := by
  have hfits : ¬sizeofElfbuf < f.readn (offsetOf ehdr k) (phentsize (f.held elfbuf ehdr k)) := by
    rw [readn_eq (phentsize_lt _), hs]
    exact Nat.not_lt.2 hin
  unfold turn
  dsimp only
  rw [if_neg hfits, fill_held hs]

theorem turn_ok {buf' : Bytes} (hs : phentsize (f.held elfbuf ehdr k) = ehdr.ePhentsize)
    (h : turn r f (offsetOf ehdr k) (f.held elfbuf ehdr k) s = (s', .ok buf')) :
    min ehdr.ePhentsize (f.size.toNat - (offsetOf ehdr k).toNat) ≤ sizeofElfbuf ∧
    buf' = f.held elfbuf ehdr (k + 1) := by
  unfold turn at h
  dsimp only at h
  split at h
  · cases (Prod.mk.inj h).2
  · rename_i hfits
    rw [readn_eq (phentsize_lt _), hs] at hfits
    rw [fill_held hs] at h
    refine ⟨Nat.not_lt.1 hfits, ?_⟩
    split at h
    · cases (Prod.mk.inj h).2
    · have hres := (Prod.mk.inj h).2
      split at hres
      · cases hres
      · exact (Except.ok.inj hres).symm

theorem phdrLoop_turn (h : Outlives f elfbuf ehdr) (r : Results σ) (hk : k < ehdr.ePhnum) (s : σ) :
    phdrLoop r f k (offsetOf ehdr k) (f.held elfbuf ehdr k) s =
      match turn r f (offsetOf ehdr k) (f.held elfbuf ehdr k) s with
      | (s', .error e) => ([.phdr (offsetOf ehdr k) ehdr.ePhentsize], s', some e)
      | (s', .ok buf') =>
        let rest := phdrLoop r f (k + 1) (offsetOf ehdr k + BitVec.ofNat 32 (phentsize buf')) buf' s'
        (.phdr (offsetOf ehdr k) ehdr.ePhentsize :: rest.1, rest.2) := by
  rw [phdrLoop, dif_pos ((h.count k (Nat.le_of_lt hk)).2 hk), h.stride k hk]

theorem phdrLoop_end (h : Outlives f elfbuf ehdr) (r : Results σ) (off : Word) (s : σ) :
    phdrLoop r f ehdr.ePhnum off (f.held elfbuf ehdr ehdr.ePhnum) s = ([], s, none) := by
  rw [phdrLoop, dif_neg]
  rw [h.count ehdr.ePhnum (Nat.le_refl _)]
  exact Nat.lt_irrefl _

theorem offset_turn (h : Outlives f elfbuf ehdr) (hk : k + 1 < ehdr.ePhnum) :
    offsetOf ehdr k + BitVec.ofNat 32 (phentsize (f.held elfbuf ehdr (k + 1))) = offsetOf ehdr (k + 1) := by
  rw [h.stride (k + 1) hk, offsetOf_succ]

/-- **The loop over a file header that outlives the headers.** -/
theorem phdrLoop_outlives (h : Outlives f elfbuf ehdr) (r : Results σ) :
    ∀ (n k : Nat) (off : Word) (s : σ), ehdr.ePhnum - k = n →
    k ≤ ehdr.ePhnum → (k < ehdr.ePhnum → off = offsetOf ehdr k) →
    (phdrLoop r f k off (f.held elfbuf ehdr k) s).1 <+: headersFrom ehdr k ∧
      ((phdrLoop r f k off (f.held elfbuf ehdr k) s).2.2 = none ∧ (phdrLoop r f k off (f.held elfbuf ehdr k) s).1 =
        headersFrom ehdr k ∨
        (phdrLoop r f k off (f.held elfbuf ehdr k) s).2.2 = some .halted ∨
        ∃ x, (phdrLoop r f k off (f.held elfbuf ehdr k) s).2.2 = some (.failed x))
  | 0, k, off, s, hn, hk, _ => by
    obtain rfl : k = ehdr.ePhnum := by omega
    rw [phdrLoop_end h, headersFrom_nil (Nat.le_refl _)]
    exact ⟨List.prefix_refl _, .inl ⟨rfl, rfl⟩⟩
  | n + 1, k, off, s, hn, hk, hoff => by
    have hlt : k < ehdr.ePhnum := by omega
    obtain rfl := hoff hlt
    rw [phdrLoop_turn h r hlt, headersFrom_cons hlt, turn_held (h.stride k hlt) (h.inside k hlt)]
    cases hload : if ((elfOf (f.held elfbuf ehdr (k + 1))).phdr 0).pType = ptLoad then
        r.load ((elfOf (f.held elfbuf ehdr (k + 1))).phdr 0) s else some (0, s) with
    | none => exact ⟨List.prefix_append [_] _, .inr (.inl rfl)⟩
    | some xs =>
      obtain ⟨x, s'⟩ := xs
      dsimp only
      by_cases hx : x < 0
      · rw [if_pos hx]
        exact ⟨List.prefix_append [_] _, .inr (.inr ⟨_, rfl⟩)⟩
      · rw [if_neg hx]
        obtain ⟨hpre, hend⟩ := phdrLoop_outlives h r n (k + 1)
          (offsetOf ehdr k + BitVec.ofNat 32 (phentsize (f.held elfbuf ehdr (k + 1)))) s' (by omega) hlt (offset_turn h)
        exact ⟨(List.prefix_cons_inj _).2 hpre, hend.imp_left fun hd => ⟨hd.1, congrArg _ hd.2⟩⟩

/-- What is asked of the header in `elfbuf` at turn `k`. -/
def KeptAt (f : File) (elfbuf : Bytes) (ehdr : Elf32Ehdr) (k : Nat) : Prop :=
  (k < ehdr.ePhnum → phentsize (f.held elfbuf ehdr k) = ehdr.ePhentsize ∧
    min ehdr.ePhentsize (f.size.toNat - (offsetOf ehdr k).toNat) ≤ sizeofElfbuf) ∧
  (k < phnum (f.held elfbuf ehdr k) ↔ k < ehdr.ePhnum)

/-- **A loop that reads the headers in turn** reads them over a file header that outlives them. -/
theorem kept_of_phdrLoop : ∀ (n k : Nat) (off : Word) (s s' : σ), ehdr.ePhnum - k = n → k ≤ ehdr.ePhnum →
    phdrLoop r f k off (f.held elfbuf ehdr k) s = (headersFrom ehdr k, s', none) →
    ∀ i, k ≤ i → i ≤ ehdr.ePhnum → KeptAt f elfbuf ehdr i
  | 0, k, off, s, s', hn, hk, hloop, i, hki, hi => by
    obtain rfl : i = k := by omega
    have hno : ¬i < ehdr.ePhnum := by omega
    refine ⟨fun hlt => absurd hlt hno, ⟨fun hlt => ?_, fun hlt => absurd hlt hno⟩⟩
    rw [headersFrom_nil (by omega), phdrLoop, dif_pos hlt] at hloop
    split at hloop
    · cases (Prod.mk.inj hloop).1
    · cases (Prod.mk.inj hloop).1
  | n + 1, k, off, s, s', hn, hk, hloop, i, hki, hi => by
    have hlt : k < ehdr.ePhnum := by omega
    rw [headersFrom_cons hlt, phdrLoop] at hloop
    by_cases hcount : k < phnum (f.held elfbuf ehdr k)
    · rw [dif_pos hcount] at hloop
      split at hloop
      · cases (Prod.mk.inj (Prod.mk.inj hloop).2).2
      · rename_i s₁ buf' hturn
        obtain ⟨hes, hrest⟩ := Prod.mk.inj hloop
        obtain ⟨hev, hes⟩ := List.cons.inj hes
        obtain ⟨rfl, hstride⟩ := Event.phdr.inj hev
        obtain ⟨hfits, rfl⟩ := turn_ok hstride hturn
        by_cases hik : i = k
        · subst hik
          exact ⟨fun _ => ⟨hstride, hfits⟩, fun _ => hlt, fun _ => hcount⟩
        · exact kept_of_phdrLoop n (k + 1) _ _ s' (by omega) hlt (Prod.ext hes hrest) i (by omega) hi
    · rw [dif_neg hcount] at hloop
      cases (Prod.mk.inj hloop).1

/-! ## The whole of `spawn` -/

theorem spawn_eq (h : Accepted f elfbuf ehdr) (hinit : ¬r.initStack < 0) (s : σ) : spawn r f elfbuf s =
    match phdrLoop r f 0 ehdr.ePhoff (f.held elfbuf ehdr 0) s with
    | (es, s', some e) => (es, s', e)
    | (es, s', none) =>
      (es ++ [.trapframe ehdr.eEntry r.initSp], s', if r.setTrapframe ≠ 0 then .failed r.setTrapframe
        else .started) := by
  unfold spawn
  rw [if_neg (not_not.2 h.long)]
  dsimp only
  have hheader : elfFrom (elfOf (f.fill 0 sizeofElf32Ehdr elfbuf)) = some ehdr := h.accepts
  rw [hheader]
  dsimp only
  rw [if_neg hinit]
  rfl

theorem spawn_unstacked (h : Accepted f elfbuf ehdr) (hinit : r.initStack < 0) (s : σ) :
    spawn r f elfbuf s = ([], s, .failed r.initStack) := by
  unfold spawn
  rw [if_neg (not_not.2 h.long)]
  dsimp only
  have hheader : elfFrom (elfOf (f.fill 0 sizeofElf32Ehdr elfbuf)) = some ehdr := h.accepts
  rw [hheader]
  exact if_pos hinit

theorem offsetOf_zero (ehdr : Elf32Ehdr) : offsetOf ehdr 0 = ehdr.ePhoff := by
  unfold offsetOf
  rw [Nat.zero_mul]
  exact BitVec.add_zero _

theorem reads_of_outlives (hacc : Accepted f elfbuf ehdr) (h : Outlives f elfbuf ehdr) :
    ReadsHeaders f elfbuf ehdr := by
  -- how every run ends
  have hrun : ∀ (σ : Type) (r : Results σ) (s : σ), (spawn r f elfbuf s).2.2 ≠ .overrun ∧
      (spawn r f elfbuf s).1 <+: headersFrom ehdr 0 ++ [.trapframe ehdr.eEntry r.initSp] ∧
      ((spawn r f elfbuf s).2.2 = .started → (spawn r f elfbuf s).1 = headersFrom ehdr 0 ++
        [.trapframe ehdr.eEntry r.initSp]) := by
    intro σ r s
    by_cases hinit : r.initStack < 0
    · rw [spawn_unstacked hacc hinit]
      exact ⟨Ending.noConfusion, List.nil_prefix, Ending.noConfusion⟩
    · rw [spawn_eq hacc hinit]
      obtain ⟨hpre, hend⟩ := phdrLoop_outlives h r _ 0 ehdr.ePhoff s rfl (Nat.zero_le _) fun _ =>
          (offsetOf_zero ehdr).symm
      generalize phdrLoop r f 0 ehdr.ePhoff (f.held elfbuf ehdr 0) s = loop at hpre hend
      obtain ⟨es, s', e⟩ := loop
      rcases hend with ⟨rfl, rfl⟩ | rfl | ⟨x, rfl⟩
      · refine ⟨?_, List.prefix_refl _, fun _ => rfl⟩
        dsimp only
        split <;> exact Ending.noConfusion
      · exact ⟨Ending.noConfusion, hpre.trans (List.prefix_append _ _), Ending.noConfusion⟩
      · exact ⟨Ending.noConfusion, hpre.trans (List.prefix_append _ _), Ending.noConfusion⟩
  exact ⟨fun σ r s => (hrun σ r s).1, fun σ r s => (hrun σ r s).2.1, fun σ r s => (hrun σ r s).2.2⟩

/-- Every call succeeds. -/
def granting : Results Unit := ⟨0, 0, fun _ s => some (0, s), 0⟩

theorem turn_granting (off : Word) (buf : Bytes) :
    turn granting f off buf () = ((), .error .overrun) ∨ ∃ buf', turn granting f off buf () = ((), .ok buf') := by
  unfold turn
  dsimp only
  split
  · exact .inl rfl
  · refine .inr ⟨f.fill off (f.readn off (phentsize buf)) buf, ?_⟩
    have hload : ∀ ph, (if ph.pType = ptLoad then granting.load ph () else some (0, ())) = some (0, ()) :=
      fun _ => ite_self _
    rw [hload]
    rfl

theorem phdrLoop_granting : ∀ (n k : Nat) (off : Word) (buf : Bytes), 65536 - k ≤ n →
    (phdrLoop granting f k off buf ()).2.2 = none ∨ (phdrLoop granting f k off buf ()).2.2 = some .overrun
  | 0, k, off, buf, hn => by
    have hnum : phnum buf < 65536 := u16_lt _ _
    rw [phdrLoop, dif_neg (by omega)]
    exact .inl rfl
  | n + 1, k, off, buf, hn => by
    rw [phdrLoop]
    by_cases hlt : k < phnum buf
    · rw [dif_pos hlt]
      rcases turn_granting (f := f) off buf with hturn | ⟨buf', hturn⟩
      · rw [hturn]
        exact .inr rfl
      · rw [hturn]
        exact phdrLoop_granting n (k + 1) _ _ (by omega)
    · rw [dif_neg hlt]
      exact .inl rfl

theorem outlives_of_reads (hacc : Accepted f elfbuf ehdr) (h : ReadsHeaders f elfbuf ehdr) :
    Outlives f elfbuf ehdr := by
  have hinside := h.inside Unit granting ()
  have hwhole := h.whole Unit granting ()
  rw [spawn_eq hacc (Int.lt_irrefl 0)] at hinside hwhole
  have hloop : phdrLoop granting f 0 ehdr.ePhoff (f.held elfbuf ehdr 0) () = (headersFrom ehdr 0, (), none) := by
    have hend := phdrLoop_granting (f := f) 65536 0 ehdr.ePhoff (f.held elfbuf ehdr 0) (Nat.sub_le _ _)
    generalize phdrLoop granting f 0 ehdr.ePhoff (f.held elfbuf ehdr 0) () = loop at hinside hwhole hend
    obtain ⟨es, s, e⟩ := loop
    rcases hend with rfl | rfl
    · exact congrArg (·, (), none) (List.append_cancel_right (hwhole rfl))
    · exact absurd rfl hinside
  have hkept := kept_of_phdrLoop _ 0 _ () () rfl (Nat.zero_le _) hloop
  exact ⟨fun k hk => ((hkept k (Nat.zero_le _) (Nat.le_of_lt hk)).1 hk).1, fun k hk => (hkept k (Nat.zero_le _) hk).2,
    fun k hk => ((hkept k (Nat.zero_le _) (Nat.le_of_lt hk)).1 hk).2⟩

/-- **`spawn` reads the program headers as the file header says exactly when the file header outlives them in
`elfbuf`.** -/
theorem headers_read_iff (h : Accepted f elfbuf ehdr) : ReadsHeaders f elfbuf ehdr ↔ Outlives f elfbuf ehdr :=
  ⟨outlives_of_reads h, reads_of_outlives h⟩

theorem held_behind (h : ehdr.ePhentsize ≤ 42) :
    ∀ (k : Nat) {i : Nat}, 42 ≤ i → f.held elfbuf ehdr k i = f.header elfbuf i
  | 0, _, _ => rfl
  | k + 1, i, hi => by
    have hno : ¬i < min ehdr.ePhentsize (f.size.toNat - (offsetOf ehdr k).toNat) := by omega
    show (if _ then _ else _) = _
    rw [if_neg hno]
    exact held_behind h k hi

/-- **Headers that end before `e_phentsize`** leave it as it is. -/
theorem outlives_short (hacc : Accepted f elfbuf ehdr) (h : ehdr.ePhentsize ≤ 42) : Outlives f elfbuf ehdr := by
  have hfields : ehdr.ePhentsize = phentsize (f.header elfbuf) ∧ ehdr.ePhnum = phnum (f.header elfbuf) := by
    have haccepts := hacc.accepts
    unfold elfFrom at haccepts
    split at haccepts
    · cases haccepts
      exact ⟨rfl, rfl⟩
    · cases haccepts
  have hsize : ∀ k, phentsize (f.held elfbuf ehdr k) = ehdr.ePhentsize := by
    intro k
    rw [hfields.1]
    show (f.held elfbuf ehdr k 42).toNat + (f.held elfbuf ehdr k 43).toNat * 256 = _
    rw [held_behind h k (by decide), held_behind h k (by decide)]
    rfl
  have hnum : ∀ k, phnum (f.held elfbuf ehdr k) = ehdr.ePhnum := by
    intro k
    rw [hfields.2]
    show (f.held elfbuf ehdr k 44).toNat + (f.held elfbuf ehdr k 45).toNat * 256 = _
    rw [held_behind h k (by decide), held_behind h k (by decide)]
    rfl
  refine ⟨fun k _ => hsize k, fun k _ => by rw [hnum], fun k _ => ?_⟩
  exact Nat.le_trans (Nat.min_le_left _ _) (Nat.le_trans h (by decide))

end

/-! ## Two files -/

/-- A file header with its first headers at 52, of `size` bytes each, and zeros behind it. -/
def headerBytes (size num : BitVec 8) : Bytes := fun i =>
  match i with
  | 0 => 0x7F
  | 1 => 0x45
  | 2 => 0x4C
  | 3 => 0x46
  | 16 => 2
  | 28 => 52
  | 42 => size
  | 44 => num
  | _ => 0

/-- Two headers of `size` bytes. -/
def twoHeaders (size : BitVec 8) : File := ⟨164, headerBytes size 2, by decide⟩

def twoHeadersEhdr (size : BitVec 8) : Elf32Ehdr := ⟨0, 52, size.toNat, 2⟩

theorem twoHeaders_long (size : BitVec 8) : (twoHeaders size).readn 0 sizeofElf32Ehdr = sizeofElf32Ehdr :=
  readn_eq (by decide)

/-- **Two headers of 32 bytes.** -/
theorem headers_read_two : ReadsHeaders (twoHeaders 32) (fun _ => 0) (twoHeadersEhdr 32) :=
  have hacc : Accepted (twoHeaders 32) (fun _ => 0) (twoHeadersEhdr 32) := ⟨twoHeaders_long 32, by rfl⟩
  (headers_read_iff hacc).2 (outlives_short hacc (by decide))

/-- **Two headers of 56 bytes**: the first has zeros where the file header has its count, and the second is not read. -/
theorem headers_read_fails : Accepted (twoHeaders 56) (fun _ => 0) (twoHeadersEhdr 56) ∧
    ¬ReadsHeaders (twoHeaders 56) (fun _ => 0) (twoHeadersEhdr 56) := by
  have hacc : Accepted (twoHeaders 56) (fun _ => 0) (twoHeadersEhdr 56) := ⟨twoHeaders_long 56, by rfl⟩
  refine ⟨hacc, fun h => ?_⟩
  have hcount := ((outlives_of_reads hacc h).count 1 (by decide)).2 (by decide)
  exact absurd hcount (by decide +kernel)

end Spawning
end Mos
