import Mos.Descriptors
import Mos.Memcpy
/-!
# Transfers — the bytes that `file_read` and `file_write` copy

Both compare the 32-bit sum `offset + n` with a size.  Where the sum wraps, the comparison is with a small number; then
`memcpy`, whose `max` wraps as well, copies nothing, and `n` is returned all the same.
-/
namespace Mos

open Fallible FilePtr

namespace Client

variable {c c' : Client} {i buf n offset size : Word} {j : Nat}

theorem maxFileSizeW_toNat : maxFileSizeW.toNat = 0x400000 := rfl

theorem roundUp_toNat (h : size.toNat ≤ 0x400000) : (roundUp size).toNat = (size.toNat + 4095) / 4096 * 4096 := by
  have hm : (4095 : Word).toNat = 2 ^ 12 - 1 := rfl
  unfold roundUp
  rw [toNat_and_not_mask hm, BitVec.toNat_add, hm]
  omega

/-! ## `ftruncate` of an open file -/

namespace OpenFile

theorem setSize (h : OpenFile c i j size) (size' : Word) :
    OpenFile (c.setWord fFileSize size' (.openFile j)) i j size' := by
  refine ⟨h.lt, h.page, ?_⟩
  show Function.update c.srv.oFf j (Function.update (c.srv.oFf j) fFileSize size') j fFileSize = size'
  rw [Function.update_self, Function.update_self]

theorem beside (h : OpenFile c i j size) (hb : Beside (index2fd i) c c') : OpenFile c' i j size := by
  obtain ⟨perm, hp⟩ := h.page
  exact ⟨h.lt, ⟨perm, hb.page.trans hp⟩, by rw [hb.words]; exact h.size⟩

end OpenFile

/-- What `ftruncate` does when its arguments are right. -/
def resize (fd fileid oldsize size : Word) : ClientM Unit := do
  fsipcSetSize fileid size
  mapNew fileid (fd2data fd) oldsize (pagesOf (roundUp oldsize).toNat (roundUp size).toNat)
  orPanic (unmapAll (fd2data fd) (pagesOf (roundUp size).toNat (roundUp oldsize).toNat))

/-- **`ftruncate` sets the size of the descriptor first.** -/
theorem ftruncate_eq (h : OpenFile c i j size) {size' : Word} (hmax : ¬maxFileSizeW < size') : ftruncate i size' c =
    if c.srv.oFf j fdDevId ≠ devfileId then some (.error (-eInval), c)
    else resize (index2fd i) (c.srv.oFf j fFileid) size size' (c.setWord fFileSize size' (.openFile j)) := by
  obtain ⟨perm, hp⟩ := h.page
  have hset : setField (index2fd i) fFileSize size' c = some (.ok (), c.setWord fFileSize size' (.openFile j)) := by
    unfold setField
    rw [hp]
    rfl
  unfold ftruncate
  rw [if_neg hmax, bind_of_ok h.fdLookup, bind_of_ok (h.field fdDevId)]
  split
  · rfl
  · rw [bind_of_ok (h.field fFileid), bind_of_ok (h.field fFileSize), bind_of_ok hset, h.size]
    rfl

theorem pagesOf_data (hi : i.toNat < maxFd) {a b : Word} (hb : b.toNat ≤ 0x400000) :
    ∀ o ∈ pagesOf (roundUp a).toNat (roundUp b).toNat, ¬Same (index2fd i) (fd2data (index2fd i) + o) := by
  intro o ho
  have hr := roundUp_toNat hb
  have := (mem_pagesOf ho (by omega)).2
  rw [fd2data_index2fd hi]
  exact not_same_data hi (by omega)

theorem orPanic_eq_some {S α : Type} {x : Fallible S α} {s s' : S} {r : Except Int α} (h : orPanic x s = some (r, s')) :
    ∃ a, r = .ok a ∧ x s = some (.ok a, s') := by
  obtain ⟨⟨r₁, s₁⟩, hx, hr⟩ := Option.bind_eq_some_iff.1 h
  cases r₁ with
  | error e => cases hr
  | ok a =>
    cases hr
    exact ⟨a, rfl, hx⟩

theorem resize_beside (hi : i.toNat < maxFd) {fileid oldsize : Word} (ho : oldsize.toNat ≤ 0x400000)
    (hs : size.toNat ≤ 0x400000) : Relates (Beside (index2fd i)) (resize (index2fd i) fileid oldsize size) :=
  Relates.bind (fun _ _ _ => Beside.trans) (fsipc_zero_beside (w := fileid) rfl) fun _ =>
    Relates.bind (fun _ _ _ => Beside.trans) (mapNew_beside (pagesOf_data hi hs)) fun _ =>
      Relates.orPanic (unmapAll_beside (pagesOf_data hi ho))

/-! ## `memcpy` -/

/-- **The count is that of `lib/string.c`**: as many bytes are copied, from the lowest address up. -/
theorem memcpy_copies {dst src : Word} {k fuel : Nat} (h : memcpy dst src n c = some (.ok k, c')) (hf : n.toNat < fuel)
    (m : Libc.Ram) : c' = c ∧ Libc.memcpy fuel m dst src n = some (Libc.bytewise m dst.toNat src.toNat k, dst) := by
  have htop : utop.toNat = 0x7f400000 := rfl
  have hlim : ulim.toNat = 0x80000000 := rfl
  unfold memcpy at h
  split at h
  · split at h
    · rename_i huser
      obtain ⟨⟨-, hdst⟩, -, hsrc⟩ := huser
      cases h
      exact ⟨rfl, Libc.memcpy_spec (by omega) (by omega) hf⟩
    · cases h
  · rename_i hend
    split at h
    · cases h
    · rename_i hword
      cases h
      obtain ⟨fuel, rfl⟩ := Nat.exists_eq_succ_of_ne_zero (Nat.ne_of_gt (Nat.zero_lt_of_lt hf))
      refine ⟨rfl, ?_⟩
      -- no loop is entered
      have hbyte : Libc.eachByte Libc.Copy.dst (dst + n) Libc.copyByte (fuel + 1) ⟨m, dst, src⟩ = some ⟨m, dst, src⟩ :=
        whileDo_done (decide_eq_false hend)
      unfold Libc.memcpy
      dsimp only
      split
      · rw [hbyte]
        rfl
      · rename_i hsame
        have hlong : ¬dst + 4 ≤ dst + n := fun hc => hword ⟨(not_not.1 hsame).symm, hc⟩
        have hhead : whileDo (fun s : Libc.Copy => decide (s.dst &&& 3 ≠ 0) && decide (s.dst < dst + n)) Libc.copyByte
            (fuel + 1) ⟨m, dst, src⟩ = some ⟨m, dst, src⟩ :=
          whileDo_done (Bool.and_eq_false_iff.2 (.inr (decide_eq_false hend)))
        have hwords : whileDo (fun s : Libc.Copy => decide (s.dst + 4 ≤ dst + n)) Libc.copyWord
            (fuel + 1) ⟨m, dst, src⟩ =
            some ⟨m, dst, src⟩ := whileDo_done (decide_eq_false hlong)
        unfold Libc.inWords
        rw [hhead, Option.bind_some, hwords, Option.bind_some, hbyte]
        rfl

theorem memcpy_ok {dst src : Word} (hdst : InUser utop dst n.toNat) (hsrc : InUser ulim src n.toNat) (c : Client) :
    memcpy dst src n c = some (.ok n.toNat, c) := by
  have htop : utop.toNat = 0x7f400000 := rfl
  have hsum : (dst + n).toNat = dst.toNat + n.toNat := by
    rw [BitVec.toNat_add]
    exact Nat.mod_eq_of_lt (by have := hdst.2; omega)
  unfold memcpy
  split
  · rw [if_pos ⟨hdst, hsrc⟩]
    rfl
  · rename_i hend
    rw [BitVec.lt_def, hsum] at hend
    have h4 : (4 : Word).toNat = 4 := rfl
    have hfour : (dst + 4).toNat = dst.toNat + 4 := by
      rw [BitVec.toNat_add, h4]
      exact Nat.mod_eq_of_lt (by have := hdst.2; omega)
    rw [if_neg fun hc => by rw [BitVec.le_def, hfour, hsum] at hc; omega, show n.toNat = 0 by omega]
    rfl

theorem memcpy_wrapped {dst src : Word} (hdst : dst.toNat + 4 < 2 ^ 32) (hwrap : 2 ^ 32 ≤ dst.toNat + n.toNat)
    (c : Client) :
    memcpy dst src n c = some (.ok 0, c) := by
  have hn := n.isLt
  have hsum : (dst + n).toNat = dst.toNat + n.toNat - 2 ^ 32 := by
    rw [BitVec.toNat_add]
    omega
  have h4 : (4 : Word).toNat = 4 := rfl
  have hfour : (dst + 4).toNat = dst.toNat + 4 := by
    rw [BitVec.toNat_add, h4]
    exact Nat.mod_eq_of_lt hdst
  unfold memcpy
  rw [if_neg (by rw [BitVec.lt_def, hsum]; omega), if_neg fun hc => by rw [BitVec.le_def, hfour, hsum] at hc; omega]
  rfl

theorem memcpy_eq_some {dst src : Word} {r : Except Int Nat} (h : memcpy dst src n c = some (r, c')) :
    c' = c ∧ ∃ k, r = .ok k ∧ (k = n.toNat ∨ k = 0 ∧ ¬dst < dst + n) := by
  unfold memcpy at h
  split at h
  · split at h
    · cases h
      exact ⟨rfl, _, rfl, .inl rfl⟩
    · cases h
  · rename_i hend
    split at h
    · cases h
    · cases h
      exact ⟨rfl, _, rfl, .inr ⟨rfl, hend⟩⟩

/-- A transfer after the count is known. -/
def transfer (dst src va n : Word) : ClientM Copy := do
  let len ← memcpy dst src n
  pure ⟨va, len, n⟩

theorem transfer_of_memcpy {dst src va : Word} {k : Nat} (h : memcpy dst src n c = some (.ok k, c')) :
    transfer dst src va n c = some (.ok ⟨va, k, n⟩, c') :=
  bind_of_ok h

theorem transfer_eq_some {dst src va : Word} {r : Except Int Copy} (h : transfer dst src va n c = some (r, c')) :
    c' = c ∧ ∃ k, r = .ok ⟨va, k, n⟩ ∧ (k = n.toNat ∨ k = 0 ∧ ¬dst < dst + n) := by
  rcases bind_eq_some h with ⟨e, he, -⟩ | ⟨k, c₁, hk, hret⟩
  · obtain ⟨-, k, hc, -⟩ := memcpy_eq_some he
    cases hc
  · obtain ⟨rfl, k', hk', hor⟩ := memcpy_eq_some hk
    cases hk'
    cases hret
    exact ⟨rfl, k, rfl, hor⟩

/-! ## `file_read` -/

/-- **What is asked for is read**, as far as there is a file, and its length is returned. -/
def ReadsExactly (c : Client) (i buf n offset size : Word) : Prop :=
  ∃ x, fileRead (index2fd i) buf n offset c = some (.ok x, c) ∧ x.va = index2data i + offset ∧
    x.len = min n.toNat (size.toNat - offset.toNat) ∧ x.ret.toNat = x.len ∧
    (x.len = 0 ∨ offset.toNat + x.len ≤ size.toNat)

theorem fileRead_eq (h : OpenFile c i j size) : fileRead (index2fd i) buf n offset c =
    if size < offset then some (.ok ⟨index2data i + offset, 0, 0⟩, c)
    else transfer buf (index2data i + offset) (index2data i + offset)
    (if size < offset + n then size - offset else n) c := by
  unfold fileRead
  rw [bind_of_ok (h.field fFileSize), h.size, fd2data_index2fd h.lt]
  dsimp only
  split
  · rfl
  · rfl

theorem inUser_data (hi : i.toNat < maxFd) {k : Nat} (h : offset.toNat + k ≤ 0x400000) :
    InUser utop (index2data i + offset) k := by
  have hm : maxFd = 32 := rfl
  have hu : utop.toNat = 0x7f400000 := rfl
  have ht : utemp.toNat = 0x3FE000 := rfl
  have hd : (index2data i + offset).toNat = (index2data i).toNat + offset.toNat := by
    rw [BitVec.toNat_add, index2data_toNat hi]
    omega
  refine ⟨?_, ?_⟩
  · rw [hd, index2data_toNat hi, ht]
    omega
  · rw [hd, index2data_toNat hi, hu]
    omega

theorem InUser.ulim {va : Word} {k : Nat} (h : InUser utop va k) : InUser ulim va k :=
  ⟨h.1, Nat.le_trans h.2 (by decide)⟩

/-- The bytes that `file_read` asks `memcpy` for, when the sum does not wrap. -/
theorem clamped_toNat (hle : offset.toNat ≤ size.toNat) (hw : offset.toNat + n.toNat < 2 ^ 32) :
    (if size < offset + n then size - offset else n).toNat = min n.toNat (size.toNat - offset.toNat) := by
  have hsum : (offset + n).toNat = offset.toNat + n.toNat := by
    rw [BitVec.toNat_add]
    exact Nat.mod_eq_of_lt hw
  split
  · rename_i hend
    rw [BitVec.lt_def, hsum] at hend
    rw [BitVec.toNat_sub_of_le (BitVec.le_def.2 hle)]
    omega
  · rename_i hend
    rw [BitVec.lt_def, hsum] at hend
    omega

/-- **`file_read` is right unless the sum wraps before the end of the file**, when the buffer has room. -/
theorem reads_exactly_iff (h : OpenFile c i j size) (hmax : size.toNat ≤ maxFileSize)
    (hbuf : InUser utop buf (min n.toNat (size.toNat - offset.toNat))) :
    ReadsExactly c i buf n offset size ↔ size.toNat < offset.toNat ∨ offset.toNat + n.toNat < 2 ^ 32 := by
  have hf : maxFileSize = 0x400000 := rfl
  rw [hf] at hmax
  unfold ReadsExactly
  rw [fileRead_eq h]
  by_cases hlt : size < offset
  · rw [if_pos hlt]
    have hlt' := BitVec.lt_def.1 hlt
    refine ⟨fun _ => .inl hlt', fun _ => ⟨_, rfl, rfl, ?_, rfl, .inl rfl⟩⟩
    show 0 = _
    omega
  rw [if_neg hlt]
  have hle : offset.toNat ≤ size.toNat := Nat.not_lt.1 fun hc => hlt (BitVec.lt_def.2 hc)
  by_cases hw : offset.toNat + n.toNat < 2 ^ 32
  · refine ⟨fun _ => .inr hw, fun _ => ?_⟩
    have hn := clamped_toNat hle hw
    have hsrc : InUser utop (index2data i + offset) (min n.toNat (size.toNat - offset.toNat)) :=
      inUser_data h.lt (by omega)
    have hcopy := memcpy_ok (hn ▸ hbuf) (hn ▸ hsrc.ulim) c
    exact ⟨_, transfer_of_memcpy hcopy, rfl, hn, rfl, .inr (by dsimp only; rw [hn]; omega)⟩
  · refine ⟨?_, fun hc => absurd hc (by omega)⟩
    -- the sum has wrapped to less than `offset`, and `n` is returned
    have hn := n.isLt
    have hsum : (offset + n).toNat = offset.toNat + n.toNat - 2 ^ 32 := by
      rw [BitVec.toNat_add]
      omega
    have hend : ¬size < offset + n := by
      rw [BitVec.lt_def]
      omega
    rw [if_neg hend]
    rintro ⟨x, hx, -, hcount, hret, -⟩
    obtain ⟨-, k, hk, -⟩ := transfer_eq_some hx
    cases hk
    dsimp only at hcount hret
    omega

/-! ## `file_write` -/

/-- `-E_NO_DISK` is returned, and nothing is copied: as an error code, or as a count that reads as one. -/
def NoDisk (r : Except Int Copy) : Prop :=
  r = .error (-eNoDisk) ∨ ∃ x, r = .ok x ∧ x.len = 0 ∧ x.ret.toInt = -eNoDisk

/-- **All of it is written, or nothing for want of room.** -/
def WritesExactly (c : Client) (i buf n offset size : Word) : Prop :=
  (∀ r c', fileWrite (index2fd i) buf n offset c = some (r, c') → NoDisk r ∨
    ∃ x j size', r = .ok x ∧ x.va = index2data i + offset ∧ x.len = n.toNat ∧ x.ret = n ∧
      offset.toNat + n.toNat ≤ maxFileSize ∧
      OpenFile c' i j size' ∧ size'.toNat = max size.toNat (offset.toNat + n.toNat)) ∧
  (maxFileSize < offset.toNat + n.toNat → ∃ r c', fileWrite (index2fd i) buf n offset c = some (r, c') ∧ NoDisk r)

/-- The file may grow to `size`, or there is no room on the disk: no other error code. -/
def MayGrow (c : Client) (i size : Word) : Prop := ∀ e c', ftruncate i size c = some (.error e, c') → e = -eNoDisk

/-- There is no room for the file to grow. -/
def DiskFull (c : Client) (i size : Word) : Prop := ∃ c', ftruncate i size c = some (.error (-eNoDisk), c')

/-- The file grows to `size`. -/
def Grows (c : Client) (i size : Word) : Prop := ∃ c', ftruncate i size c = some (.ok (), c')

/-- **When `file_write` is right**: it sees that the end is too far; or the end does not wrap, and the file has the
size or may grow; or the disk is full; or the length that was asked for reads as `-E_NO_DISK`, and the file has the
size or grows. -/
def WriteFits (c : Client) (i n offset size : Word) : Prop :=
  maxFileSize < (offset + n).toNat ∨
    offset.toNat + n.toNat < 2 ^ 32 ∧ ((offset + n).toNat ≤ size.toNat ∨ MayGrow c i (offset + n)) ∨
    size.toNat < (offset + n).toNat ∧ DiskFull c i (offset + n) ∨
    n.toInt = -eNoDisk ∧ ((offset + n).toNat ≤ size.toNat ∨ Grows c i (offset + n))

theorem fileWrite_eq (h : OpenFile c i j size) : fileWrite (index2fd i) buf n offset c =
    if maxFileSizeW < offset + n then some (.error (-eNoDisk), c)
    else if size < offset + n then
      (ftruncate i (offset + n) >>= fun _ => transfer (index2data i + offset) buf (index2data i + offset) n) c
    else transfer (index2data i + offset) buf (index2data i + offset) n c := by
  unfold fileWrite
  dsimp only
  split
  · rfl
  · rw [bind_of_ok (h.field fFileSize), h.size, fd2data_index2fd h.lt, fd2num_index2fd h.lt]
    split
    · rfl
    · rfl

theorem ftruncate_ok (h : OpenFile c i j size) (hold : size.toNat ≤ 0x400000) {size' : Word}
    (hr : ftruncate i size' c = some (.ok (), c')) : OpenFile c' i j size' := by
  by_cases hmax : maxFileSizeW < size'
  · unfold ftruncate at hr
    rw [if_pos hmax] at hr
    cases hr
  · rw [ftruncate_eq h hmax] at hr
    split at hr
    · cases hr
    · have hs : size'.toNat ≤ 0x400000 := Nat.not_lt.1 fun hc => hmax (BitVec.lt_def.2 hc)
      exact (h.setSize size').beside (resize_beside h.lt hold hs _ _ _ hr)

theorem bind_transfer {x : ClientM Unit} {dst src va : Word} {r : Except Int Copy}
    (h : (x >>= fun _ => transfer dst src va n) c = some (r, c')) : (∃ e, x c = some (.error e, c') ∧ r = .error e) ∨
      x c = some (.ok (), c') ∧ transfer dst src va n c' = some (r, c') := by
  rcases bind_eq_some h with he | ⟨_, c₁, hx, hm⟩
  · exact .inl he
  · obtain rfl := (transfer_eq_some hm).1
    exact .inr ⟨hx, hm⟩

theorem noDisk_toNat {w : Word} (h : w.toInt = -eNoDisk) : w.toNat = 2 ^ 32 - 8 := by
  have he : w = BitVec.ofInt 32 (-eNoDisk) := by
    rw [← h]
    exact (BitVec.ofInt_toInt).symm
  rw [he]
  rfl

/-- **A length whose top bit is set** that wraps to an end in the file: nothing is copied. -/
theorem memcpy_negative (hi : i.toNat < maxFd) (hn : 2 ^ 31 ≤ n.toNat) (hend : (offset + n).toNat ≤ 0x400000)
    (c : Client) :
    memcpy (index2data i + offset) buf n c = some (.ok 0, c) := by
  have hm : maxFd = 32 := rfl
  have hlt := n.isLt
  have ho := offset.isLt
  have hd := index2data_toNat hi
  rw [BitVec.toNat_add] at hend
  have hdst : (index2data i + offset).toNat = (index2data i).toNat + offset.toNat := by
    rw [BitVec.toNat_add]
    omega
  exact memcpy_wrapped (by omega) (by omega) c

theorem transfer_whole (hi : i.toNat < maxFd) (hw : offset.toNat + n.toNat < 2 ^ 32)
    (hend : (offset + n).toNat ≤ 0x400000) {r : Except Int Copy}
    (h : transfer (index2data i + offset) buf (index2data i + offset) n c = some (r, c')) :
    c' = c ∧ r = .ok ⟨index2data i + offset, n.toNat, n⟩ := by
  have hm : maxFd = 32 := rfl
  have hd := index2data_toNat hi
  have hsum : (offset + n).toNat = offset.toNat + n.toNat := by
    rw [BitVec.toNat_add]
    exact Nat.mod_eq_of_lt hw
  obtain ⟨rfl, k, rfl, rfl | ⟨rfl, hnone⟩⟩ := transfer_eq_some h
  · exact ⟨rfl, rfl⟩
  · -- nothing is copied only when nothing is asked for
    have hdst : (index2data i + offset).toNat = (index2data i).toNat + offset.toNat := by
      rw [BitVec.toNat_add]
      omega
    have hzero : n.toNat = 0 := by
      rw [BitVec.lt_def, BitVec.toNat_add (index2data i + offset), hdst] at hnone
      omega
    rw [hzero]
    exact ⟨rfl, rfl⟩

/-- A write whose end does not wrap and is in bounds. -/
theorem writes_whole_iff (h : OpenFile c i j size) (hmax : size.toNat ≤ maxFileSize)
    (hsmall : (offset + n).toNat ≤ maxFileSize) (hw : offset.toNat + n.toNat < 2 ^ 32) :
    WritesExactly c i buf n offset size ↔ WriteFits c i n offset size := by
  have hf : maxFileSize = 0x400000 := rfl
  have hn := n.isLt
  have ho := offset.isLt
  have hsum : (offset + n).toNat = (offset.toNat + n.toNat) % 2 ^ 32 := BitVec.toNat_add _ _
  unfold WritesExactly WriteFits
  rw [hf] at hmax hsmall ⊢
  rw [fileWrite_eq h, if_neg fun hc => Nat.not_lt.2 hsmall (maxFileSizeW_toNat ▸ BitVec.lt_def.1 hc)]
  rw [Nat.mod_eq_of_lt hw] at hsum
  have hneg : n.toInt ≠ -eNoDisk := fun hc => by
    have := noDisk_toNat hc
    omega
  by_cases hgrow : size < offset + n
  · rw [if_pos hgrow]
    have hgrow' := BitVec.lt_def.1 hgrow
    constructor
    · rintro ⟨hall, -⟩
      refine .inr (.inl ⟨hw, .inr fun e c' he => ?_⟩)
      rcases hall _ _ (bind_of_error he) with (hr | ⟨x, hr, -⟩) | ⟨x, -, -, hr, -⟩
      · cases hr
        rfl
      · cases hr
      · cases hr
    · intro hfit
      have hmay : MayGrow c i (offset + n) := by
        rcases hfit with hc | ⟨-, hc | hm⟩ | ⟨-, c₁, hfull⟩ | ⟨hc, -⟩
        · exact absurd hc (Nat.not_lt.2 hsmall)
        · exact absurd hgrow' (Nat.not_lt.2 hc)
        · exact hm
        · intro e c' he
          cases hfull.symm.trans he
          rfl
        · exact absurd hc hneg
      refine ⟨fun r c' hr => ?_, fun hc => absurd hc (by omega)⟩
      rcases bind_transfer hr with ⟨e, he, rfl⟩ | ⟨hok, htr⟩
      · exact .inl (.inl (by rw [hmay e c' he]))
      · obtain ⟨-, rfl⟩ := transfer_whole h.lt hw hsmall htr
        exact .inr ⟨_, j, _, rfl, rfl, rfl, rfl, by omega, ftruncate_ok h hmax hok, by omega⟩
  · rw [if_neg hgrow]
    have hle : (offset + n).toNat ≤ size.toNat := Nat.not_lt.1 fun hc => hgrow (BitVec.lt_def.2 hc)
    refine ⟨fun _ => .inr (.inl ⟨hw, .inl hle⟩), fun _ => ⟨fun r c' hr => ?_, fun hc => absurd hc (by omega)⟩⟩
    obtain ⟨rfl, rfl⟩ := transfer_whole h.lt hw hsmall hr
    exact .inr ⟨_, j, size, rfl, rfl, rfl, rfl, by omega, h, by omega⟩

/-- A write whose end wraps to one in bounds. -/
theorem writes_wrapped_iff (h : OpenFile c i j size) (hsmall : (offset + n).toNat ≤ maxFileSize)
    (hw : ¬offset.toNat + n.toNat < 2 ^ 32) :
    WritesExactly c i buf n offset size ↔ WriteFits c i n offset size := by
  have hf : maxFileSize = 0x400000 := rfl
  have hn := n.isLt
  have ho := offset.isLt
  have hsum : (offset + n).toNat = (offset.toNat + n.toNat) % 2 ^ 32 := BitVec.toNat_add _ _
  unfold WritesExactly WriteFits
  rw [hf] at hsmall ⊢
  rw [fileWrite_eq h, if_neg fun hc => Nat.not_lt.2 hsmall (maxFileSizeW_toNat ▸ BitVec.lt_def.1 hc)]
  -- the sum wraps: the only right answer is that there is no room
  have hfar : 0x400000 < offset.toNat + n.toNat := by omega
  have hanswer : ∀ {k : Nat} {va : Word}, NoDisk (.ok ⟨va, k, n⟩) → n.toInt = -eNoDisk := by
    rintro k va (hc | ⟨x, hx, -, hret⟩)
    · cases hc
    · cases hx
      exact hret
  by_cases hgrow : size < offset + n
  · rw [if_pos hgrow]
    have hgrow' := BitVec.lt_def.1 hgrow
    constructor
    · rintro ⟨-, hfull⟩
      obtain ⟨r, c', hc', hno⟩ := hfull hfar
      rcases bind_transfer hc' with ⟨e, he, rfl⟩ | ⟨hok, htr⟩
      · rcases hno with hr | ⟨x, hx, -⟩
        · cases hr
          exact .inr (.inr (.inl ⟨hgrow', c', he⟩))
        · cases hx
      · obtain ⟨-, k, rfl, -⟩ := transfer_eq_some htr
        exact .inr (.inr (.inr ⟨hanswer hno, .inr ⟨c', hok⟩⟩))
    · rintro (hc | ⟨hc, -⟩ | ⟨-, c₁, hfull⟩ | ⟨hcode, hgrows⟩)
      · exact absurd hc (Nat.not_lt.2 hsmall)
      · exact absurd hc hw
      · refine ⟨fun r c' hr => .inl ?_, fun _ => ⟨_, c₁, bind_of_error hfull, .inl rfl⟩⟩
        cases (bind_of_error hfull).symm.trans hr
        exact .inl rfl
      · obtain ⟨c₁, hok⟩ := hgrows.resolve_left (Nat.not_le.2 hgrow')
        have hnone := @memcpy_negative _ buf _ _ h.lt (by rw [noDisk_toNat hcode]; decide) hsmall c₁
        have hrun := (bind_of_ok
          (f := fun _ => transfer (index2data i + offset) buf (index2data i + offset) n) hok).trans
          (transfer_of_memcpy hnone)
        have hno : NoDisk (.ok ⟨index2data i + offset, 0, n⟩) := .inr ⟨_, rfl, rfl, hcode⟩
        refine ⟨fun r c' hr => .inl ?_, fun _ => ⟨_, c₁, hrun, hno⟩⟩
        cases hrun.symm.trans hr
        exact hno
  · rw [if_neg hgrow]
    have hle : (offset + n).toNat ≤ size.toNat := Nat.not_lt.1 fun hc => hgrow (BitVec.lt_def.2 hc)
    constructor
    · rintro ⟨-, hfull⟩
      obtain ⟨r, c', hc', hno⟩ := hfull hfar
      obtain ⟨-, k, rfl, -⟩ := transfer_eq_some hc'
      exact .inr (.inr (.inr ⟨hanswer hno, .inl hle⟩))
    · rintro (hc | ⟨hc, -⟩ | ⟨hc, -⟩ | ⟨hcode, -⟩)
      · exact absurd hc (Nat.not_lt.2 hsmall)
      · exact absurd hc hw
      · exact absurd hc (Nat.not_lt.2 hle)
      · have hnone := @memcpy_negative _ buf _ _ h.lt (by rw [noDisk_toNat hcode]; decide) hsmall c
        have hno : NoDisk (.ok ⟨index2data i + offset, 0, n⟩) := .inr ⟨_, rfl, rfl, hcode⟩
        refine ⟨fun r c' hr => .inl ?_, fun _ => ⟨_, c, transfer_of_memcpy hnone, hno⟩⟩
        cases (transfer_of_memcpy hnone).symm.trans hr
        exact hno

/-- **`file_write` is right unless the sum wraps to a size that is allowed**, or the server has other reasons. -/
theorem writes_exactly_iff (h : OpenFile c i j size) (hmax : size.toNat ≤ maxFileSize) :
    WritesExactly c i buf n offset size ↔ WriteFits c i n offset size := by
  by_cases hbig : maxFileSizeW < offset + n
  · unfold WritesExactly WriteFits
    rw [fileWrite_eq h, if_pos hbig]
    have hbig' := BitVec.lt_def.1 hbig
    rw [maxFileSizeW_toNat] at hbig'
    refine ⟨fun _ => .inl hbig', fun _ => ⟨fun r c' hr => ?_, fun _ => ⟨_, c, rfl, .inl rfl⟩⟩⟩
    cases hr
    exact .inl (.inl rfl)
  have hsmall : (offset + n).toNat ≤ maxFileSize := Nat.not_lt.1 fun hc =>
    hbig (BitVec.lt_def.2 (maxFileSizeW_toNat.symm ▸ hc))
  by_cases hw : offset.toNat + n.toNat < 2 ^ 32
  · exact writes_whole_iff h hmax hsmall hw
  · exact writes_wrapped_iff h hsmall hw

/-- **The bytes that are copied**, whatever is asked for; a buffer to read into has room for what there is. -/
theorem transfers_exact_iff (h : OpenFile c i j size) (hmax : size.toNat ≤ maxFileSize)
    (hbuf : InUser utop buf (min n.toNat (size.toNat - offset.toNat))) :
    (ReadsExactly c i buf n offset size ↔ size.toNat < offset.toNat ∨ offset.toNat + n.toNat < 2 ^ 32) ∧
      (WritesExactly c i buf n offset size ↔ WriteFits c i n offset size) :=
  ⟨reads_exactly_iff h hmax hbuf, writes_exactly_iff h hmax⟩

/-! ## One open file -/

/-- A client with a file of one size open as descriptor 0. -/
def oneFile (size : Word) : Client where
  srv :=
    { fs := { mem := fun _ => 0, mapped := fun _ => true, dirty := fun _ => false, disk := fun _ => 0, super := true,
              bitmap := true, pages := [] }
      oFile := fun _ => 0
      oMode := fun _ => 2
      oFf := fun _ w => if w = fdDevId then devfileId else if w = fdOmode then 2
        else if w = fFileSize then size else 0 }
  refs := fun k => if k = 0 then 2 else 0
  tables := fun d => if d = 0x17F then
    some fun t => if t = 0 then some ⟨.openFile 0, pteD ||| pteLibrary ||| pteCCacheable ||| pteV⟩ else none
    else none
  mem := fun _ _ => 0
  supply := []

theorem oneFile_open (size : Word) : OpenFile (oneFile size) 0 0 size := ⟨by decide, ⟨_, rfl⟩, rfl⟩

theorem transfers_exact_five : (ReadsExactly (oneFile 5) 0 utemp 10 2 5 ↔ (5 : Word).toNat < (2 : Word).toNat ∨
    (2 : Word).toNat + (10 : Word).toNat < 2 ^ 32) ∧
      (WritesExactly (oneFile 5) 0 utemp 10 2 5 ↔ WriteFits (oneFile 5) 0 10 2 5) :=
  transfers_exact_iff (oneFile_open 5) (by decide) ⟨by decide, by decide⟩

/-- **At the end of a file of one byte**, 2^32 - 1 bytes are read and written. -/
theorem transfers_exact_fails :
    ¬(ReadsExactly (oneFile 1) 0 utemp 0xFFFFFFFF 1 1 ∧ WritesExactly (oneFile 1) 0 utemp 0xFFFFFFFF 1 1) := by
  rintro ⟨h, -⟩
  rw [reads_exactly_iff (oneFile_open 1) (by decide) ⟨by decide, by decide⟩] at h
  exact absurd h (by decide)

end Client
end Mos
