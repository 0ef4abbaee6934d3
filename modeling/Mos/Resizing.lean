import Mos.Desk
/-!
# Resizing — what a client gets for `set_size`

`file_set_size` raises the size of a file without a block, and `file_truncate` panics where it comes to a slot that is
not there.  Where it gets to all of them it frees what is behind the new size, if that is before the old one: a block
that was attached behind the old size stays, and so does none where `ROUND` wraps.
-/
namespace Mos

open Fallible FilePtr Fs

namespace Fs

/-- The slots that a file loses with a smaller size: those from the new number of blocks on, and the one with the other
numbers where no more than `NDIRECT` blocks are left. -/
def Drops (s : Fs) (f : Nat) (n : Word) (w : Use) : Prop :=
  n < s.view (fSize f) ∧ ((∃ i, blocksFor n ≤ i ∧ w = .block i) ∨ (blocksFor n ≤ nDirect ∧ w = .indirect))

/-- **A file has got another size**: the blocks of these slots are freed, and nothing else is. -/
structure SizeSet (f : Nat) (n : Word) (s s' : Fs) : Prop where
  size : s'.view (fSize f) = n
  free : ∀ c, s'.blockIsFree c = true ↔ s.blockIsFree c = true ∨ ∃ w, s.Drops f n w ∧ s.vol.holds f w = some c
  gone : ∀ w, s.Drops f n w → s'.vol.holds f w = none
  keeps : ∀ w, ¬s.Drops f n w → s'.vol.holds f w = s.vol.holds f w
  others : ∀ e, File s e → e ≠ f → s'.vol.holds e = s.vol.holds e

/-- Every block to free is before the old size, and a size in the last block there is comes without a block of
numbers. -/
def Counts (s : Fs) (f : Nat) (n : Word) : Prop :=
  (∀ i b, s.blockAt f i = some b → blocksFor n ≤ i → i < nblocksOf (s.view (fSize f))) ∧
    (n.toNat ≤ 2 ^ 32 - 4096 ∨ s.indirect f = none)

/-- **The new size fits**: it is no smaller, or `file_truncate` gets to all the slots and counts them right. -/
def Fits (s : Fs) (f : Nat) (n : Word) : Prop := n < s.view (fSize f) → s.Trims f n ∧ s.Counts f n

end Fs

variable {s s' : Fs} {f : Nat} {n : Word}

theorem blocksFor_wraps (h : ¬n.toNat ≤ 2 ^ 32 - 4096) : nIndirect ≤ blocksFor n := by
  unfold blocksFor nIndirect blockSize pageSize
  omega

/-- **The blocks are counted right** if a new size that is smaller frees what it should. -/
theorem Resized.counts (hr : Resized f n s s') (ho : Owned s) (hf : File s f) (hx : SizeSet f n s s')
    (hlt : n < s.view (fSize f)) :
    s.Counts f n := by
  constructor
  · intro i b hb hi
    by_contra hge
    have hfreed : s'.blockIsFree b = true := (hx.free b).2 (.inr ⟨.block i, ⟨hlt, .inl ⟨i, hi, rfl⟩⟩, hb⟩)
    rcases (hr.free b).1 hfreed with hfree | ⟨w, ⟨-, hw⟩, hwb⟩
    · rw [(ho.data_block hf hb).used] at hfree
      cases hfree
    · obtain rfl := (ho.vol.sole f f w (.block i) b hf hf hwb hb).2
      rcases hw with ⟨j, -, hj, heq⟩ | ⟨-, heq⟩
      · cases heq
        exact hge hj
      · cases heq
  · by_contra hc
    obtain ⟨hwraps, hsome⟩ := not_or.1 hc
    have hn : nblocksOf n = 0 := (nblocksOf_eq n).trans (if_neg hwraps)
    have hgone : s'.vol.holds f .indirect = none := by
      refine hr.gone .indirect ⟨hlt, .inr ⟨?_, .inl rfl⟩⟩
      rw [hn]
      exact Nat.zero_le _
    refine hsome ((hx.keeps .indirect ?_).symm.trans hgone)
    rintro ⟨-, ⟨i, -, heq⟩ | ⟨hle, -⟩⟩
    · cases heq
    · exact absurd (Nat.le_trans (blocksFor_wraps hwraps) hle) (by decide)

theorem Resized.grows (hr : Resized f n s s') (ho : Owned s) (hf : File s f) (hlt : ¬n < s.view (fSize f)) :
    SizeSet f n s s' := by
  have hl : ∀ P w, ¬s.Lets f n P w := fun _ _ hc => hlt hc.1
  have hd : ∀ w, ¬s.Drops f n w := fun _ hc => hlt hc.1
  refine ⟨hr.size, fun c => (hr.free c).trans (or_congr_right ?_), fun w hw => absurd hw (hd w),
    fun w _ => hr.keeps w (hl _ w),
    fun e he hef => (hr.edit.cut_others ho hf he hef).holds⟩
  exact ⟨fun ⟨w, hw, _⟩ => absurd hw (hl _ w), fun ⟨w, hw, _⟩ => absurd hw (hd w)⟩

/-- **A smaller size frees what it should**, where `ROUND` does not wrap. -/
theorem Resized.shrinks (hr : Resized f n s s') (ho : Owned s) (hf : File s f) (hlt : n < s.view (fSize f))
    (hc : s.Counts f n) (hle : n.toNat ≤ 2 ^ 32 - 4096) : SizeSet f n s s' := by
  have hn : nblocksOf n = blocksFor n := (nblocksOf_eq n).trans (if_pos hle)
  have hfrees : ∀ w c, s.vol.holds f w = some c → (s.Lets f n CutFree w ↔ s.Drops f n w) := by
    intro w c hw
    unfold Fs.Lets Fs.Drops CutFree Cut
    rw [hn]
    refine and_congr_right fun _ => or_congr_left ⟨?_, ?_⟩
    · rintro ⟨i, hi, -, rfl⟩
      exact ⟨i, hi, rfl⟩
    · rintro ⟨i, hi, rfl⟩
      exact ⟨i, hi, hc.1 i c hw hi, rfl⟩
  have hgone : ∀ w, s.Drops f n w → s'.vol.holds f w = none := by
    intro w hw
    by_cases hg : s.Lets f n CutGone w
    · exact hr.gone w hg
    · refine (hr.keeps w hg).trans (Option.eq_none_iff_forall_ne_some.2 fun c hwc => hg ?_)
      refine ((hfrees w c hwc).2 hw).imp_right fun h => h.imp_right fun ⟨h10, hi⟩ => ⟨h10, ?_⟩
      exact .inl hi
  refine ⟨hr.size, fun c => (hr.free c).trans (or_congr_right (exists_congr fun w => ?_)), hgone,
    fun w hw => hr.keeps w fun hg => hw ?_,
    fun e he hef => (hr.edit.cut_others ho hf he hef).holds⟩
  · exact and_congr_left fun hwc => hfrees w c hwc
  · obtain ⟨-, hcut⟩ := hg
    refine ⟨hlt, ?_⟩
    rw [hn] at hcut
    rcases hcut with ⟨i, hi, -, rfl⟩ | ⟨h10, rfl | ⟨-, i, hi, rfl⟩⟩
    · exact .inl ⟨i, hi, rfl⟩
    · exact .inr ⟨h10, rfl⟩
    · exact .inl ⟨i, Nat.le_trans h10 hi, rfl⟩

/-- A size in the last block there is frees nothing of a file without a block of numbers. -/
theorem Resized.wraps (hr : Resized f n s s') (ho : Owned s) (hf : File s f) (hlt : n < s.view (fSize f))
    (hle : ¬n.toNat ≤ 2 ^ 32 - 4096) (hnone : s.indirect f = none) : SizeSet f n s s' := by
  have hold : nblocksOf (s.view (fSize f)) = 0 := by
    rw [nblocksOf_eq, if_neg]
    have := BitVec.lt_def.1 hlt
    omega
  have hcut : ∀ m w, ¬Cut m 0 w := fun _ _ ⟨i, _, hi, _⟩ => absurd hi (Nat.not_lt_zero i)
  have hbig := blocksFor_wraps hle
  have hdrops : ∀ w, s.Drops f n w → s.vol.holds f w = none := by
    rintro w ⟨-, ⟨i, hi, rfl⟩ | ⟨h10, -⟩⟩
    · refine Option.eq_none_iff_forall_ne_some.2 fun c hc => ?_
      exact absurd (blockAt_lt hc) (Nat.not_lt.2 (Nat.le_trans hbig hi))
    · exact absurd (Nat.le_trans hbig h10) (by decide)
  have hsame : ∀ w, s'.vol.holds f w = s.vol.holds f w := by
    intro w
    by_cases hg : s.Lets f n CutGone w
    · have hw : Goes .indirect w := by
        obtain ⟨-, hc | ⟨-, hw⟩⟩ := hg
        · rw [hold] at hc
          exact absurd hc (hcut _ w)
        · exact hw
      rw [hr.gone w hg, holds_indirect_none hnone hw]
    · exact hr.keeps w hg
  refine ⟨hr.size, fun c => (hr.free c).trans (or_congr_right ?_), fun w hw => (hsame w).trans (hdrops w hw),
    fun w _ => hsame w,
    fun e he hef => (hr.edit.cut_others ho hf he hef).holds⟩
  constructor
  · rintro ⟨w, ⟨-, hc | ⟨-, rfl⟩⟩, hwc⟩
    · rw [hold] at hc
      exact absurd hc (hcut _ w)
    · exact absurd (hwc.symm.trans hnone) (Option.some_ne_none c)
  · rintro ⟨w, hw, hwc⟩
    exact absurd ((hdrops w hw).symm.trans hwc).symm (Option.some_ne_none c)

/-- **A file that gets another size loses what it should** exactly where its blocks are counted right. -/
theorem Resized.sizeSet_iff (hr : Resized f n s s') (ho : Owned s) (hf : File s f) :
    SizeSet f n s s' ↔ (n < s.view (fSize f) → s.Counts f n) := by
  refine ⟨fun hx hlt => hr.counts ho hf hx hlt, fun hc => ?_⟩
  by_cases hlt : n < s.view (fSize f)
  · by_cases hle : n.toNat ≤ 2 ^ 32 - 4096
    · exact hr.shrinks ho hf hlt (hc hlt) hle
    · exact hr.wraps ho hf hlt hle ((hc hlt).2.resolve_left hle)
  · exact hr.grows ho hf hlt

/-! ## The request -/

theorem Serv.onOpen_stuck {refs : Nat → Nat} {fileid : Word} {op : Nat → FsM ReplyPage} {srv : Server}
    (hopen : fileid.toNat < maxOpen ∧ 1 < refs fileid.toNat) (h : op (srv.oFile fileid.toNat) srv.fs = none) :
    onOpen refs fileid op srv = none := by
  have hlook : openLookup refs fileid srv = some (.ok fileid.toNat, srv) :=
    (openLookup_eq refs fileid srv).trans (if_pos hopen)
  have hop : onFs (op (srv.oFile fileid.toNat)) srv = none := by
    unfold onFs
    rw [h]
    rfl
  unfold onOpen answer
  rw [bind_run]
  unfold attempt
  rw [bind_of_ok hlook, bind_read, id_eq, bind_run, hop]
  rfl

namespace Desk

variable {d : Desk} {fileid size : Word}

/-- **The request is answered, and the file has the size**, with the blocks for it that it had. -/
def SetsSize (d : Desk) (fileid size : Word) : Prop :=
  ∃ srv, serveTable d.refs (.setSize fileid size) d.server = some (.ok ⟨0, .none⟩, srv) ∧
    SizeSet (d.file fileid) size d.server.fs srv.fs

/-- **In every safe run a client gets the size that it asks for** exactly where the size fits. -/
theorem sets_size_iff (h : Run Init step Safe d) (hopen : d.Opens fileid) (size : Word) :
    d.SetsSize fileid size ↔ d.server.fs.Fits (d.file fileid) size := by
  have hi := inv_run h
  obtain ⟨hf, hheld⟩ := hi.files _ hopen.1 hopen.2
  have ho := hi.kept.toOwned
  have hruns : (size < d.server.fs.view (fSize (d.file fileid)) → d.server.fs.Trims (d.file fileid) size) →
      ∃ t, serveTable d.refs (.setSize fileid size) d.server = some (.ok ⟨0, .none⟩, { d.server with fs := t }) ∧
        Resized (d.file fileid) size d.server.fs t := fun htrim => by
    obtain ⟨t, hrun, hr⟩ := fileSetSize_resizes hi.kept.toSound hf hheld (hi.kept.linked hf) htrim
    exact ⟨t, Serv.onOpen_ok (x := fun f => fileSetSize f size) hopen hrun, hr⟩
  constructor
  · rintro ⟨srv, hrun, hx⟩ hlt
    have htrim : d.server.fs.Trims (d.file fileid) size := by
      by_contra hno
      have hpanic : fileSetSize (d.file fileid) size d.server.fs = none := fileSetSize_stuck ho hf hheld hlt hno
      have hstuck : (fileSetSize (d.file fileid) size >>= fun _ => pure ReplyPage.none) d.server.fs = none := by
        rw [bind_run, hpanic]
        rfl
      have hnone := @Serv.onOpen_stuck d.refs fileid (fun f => fileSetSize f size >>= fun _ => pure .none)
          d.server hopen hstuck
      exact Option.some_ne_none _ (hrun.symm.trans hnone)
    obtain ⟨t, hrun', hr⟩ := hruns fun _ => htrim
    cases hrun.symm.trans hrun'
    exact ⟨htrim, hr.counts ho hf hx hlt⟩
  · intro hfits
    obtain ⟨t, hrun, hr⟩ := hruns fun hlt => (hfits hlt).1
    exact ⟨_, hrun, (hr.sizeSet_iff ho hf).2 fun hlt => (hfits hlt).2⟩

/-! ### An empty volume -/

/-- The root has nothing in it, and the blocks from 3 to 7 are free. -/
def emptyVolume (pages : List Bool) : Fs where
  mem a := if a = 1025 then 8 else if a = 1059 then ftypeDir else if a = 2048 then 0xF8 else 0
  mapped b := b == 1 || b == 2
  dirty _ := false
  disk _ := 0
  super := true
  bitmap := true
  pages

section emptyVolume

variable (pages : List Bool)

theorem emptyVolume_bare : (emptyVolume pages).Bare sRoot := by
  constructor
  · show (emptyVolume []).view (fSize sRoot) = 0
    decide
  · intro k h34 h45
    unfold Fs.view
    rw [if_pos (by rw [root_word (show k < fileWords from Nat.lt_trans h45 (by decide))]; rfl)]
    show (if sRoot + k = 1025 then (8 : Word) else if sRoot + k = 1059 then ftypeDir
      else if sRoot + k = 2048 then 0xF8 else 0) = 0
    unfold sRoot blockWords
    rw [if_neg (by omega), if_neg (by omega), if_neg (by omega)]

theorem emptyVolume_file {f : Nat} (h : File (emptyVolume pages) f) : f = sRoot := by
  induction h with
  | root => rfl
  | entry d i b e _ _ hi _ _ ih =>
    subst ih
    have hi : i < (emptyVolume pages).nblocks sRoot := hi
    rw [(emptyVolume_bare pages).nblocks] at hi
    exact absurd hi (Nat.not_lt_zero i)

theorem emptyVolume_low : ∀ b < 3, (emptyVolume pages).blockIsFree b = false := by
  show ∀ b < 3, (emptyVolume []).blockIsFree b = false
  decide

theorem emptyVolume_kept : Fs.Kept (emptyVolume pages) := by
  have hnone : ∀ f, File (emptyVolume pages) f → ∀ w, (emptyVolume pages).vol.holds f w = none := fun f hf w => by
    rw [emptyVolume_file pages hf]
    exact (emptyVolume_bare pages).holds w
  have hreserved : (emptyVolume pages).reserved = 3 := by
    show (emptyVolume []).reserved = 3
    decide
  refine ⟨⟨⟨⟨rfl, rfl, fun b h1 hb => ?_⟩, ?_, fun b hb => emptyVolume_low pages b (hreserved ▸ hb),
    ⟨fun f u b hf hb => ?_,
    fun f f' u u' b hf _ hb _ => ?_⟩⟩, fun d hd _ i => ?_, fun d hd _ => ?_⟩, ?_, fun d i b e hd _ hb _ => ?_⟩
  · rw [hreserved] at hb
    obtain rfl | rfl : b = 1 ∨ b = 2 := by omega
    · rfl
    · rfl
  · show (emptyVolume []).sNblocks ≤ diskmaxBlocks
    decide
  · rw [hnone f hf] at hb
    cases hb
  · rw [hnone f hf] at hb
    cases hb
  · rw [hnone d hd]
    obtain rfl := emptyVolume_file pages hd
    show i < (emptyVolume pages).nblocks sRoot ↔ _
    rw [(emptyVolume_bare pages).nblocks]
    exact ⟨fun hc => absurd hc (Nat.not_lt_zero i), fun hc => by cases hc⟩
  · obtain rfl := emptyVolume_file pages hd
    rw [(emptyVolume_bare pages).nblocks, (emptyVolume_bare pages).size]
    rfl
  · show (emptyVolume []).view (fDir sRoot) = 0
    decide
  · have hb : (emptyVolume pages).vol.holds d (.block i) = some b := hb
    rw [hnone d hd] at hb
    cases hb

def atBoot : Desk := ⟨⟨emptyVolume pages, fun _ => 0, fun _ => 0, fun _ _ => 0⟩, fun _ => 0⟩

theorem atBoot_init : Init (atBoot pages) := ⟨emptyVolume_kept pages, fun _ _ => Nat.zero_le 1⟩

end emptyVolume

/-- A client opens the file `a`, which is not there yet, and is given the page of the first open file. -/
def opensFirst : DeskAct := .ask (.openFile [0x61] oCreat) (Function.update (fun _ => 0) 0 2)

theorem emptyVolume_resolve :
    (emptyVolume []).resolve none sRoot (components [0x61]) = ⟨-eNotFound, some sRoot, none, [0x61]⟩ := by
  decide

theorem emptyVolume_room : (emptyVolume []).Room sRoot := by
  have hfirst : (emptyVolume []).freeBlocks.take (1 + (emptyVolume []).wants sRoot ((emptyVolume []).nblocks sRoot)) =
      [3] := by decide
  refine ⟨by decide, by decide, fun b hb k _ => ?_, List.not_mem_nil⟩
  rw [hfirst] at hb
  obtain rfl := List.mem_singleton.1 hb
  rfl

theorem opensFirst_safe : (atBoot []).Safe opensFirst := by
  refine ⟨by decide, ⟨fun _ d name hr _ => ?_, fun hm => absurd rfl hm, fun ht => absurd rfl ht⟩⟩
  cases emptyVolume_resolve.symm.trans hr
  exact emptyVolume_room

theorem sets_size_page :
    ∃ d, Run Init step Safe d ∧ d.Opens 0 ∧ (d.SetsSize 0 4096 ↔ d.server.fs.Fits (d.file 0) 4096) := by
  have hone : ((atBoot []).step opensFirst).any (fun d => decide (d.refs 0 = 2)) = true := by decide +kernel
  obtain ⟨d, hd, hr⟩ := (Option.any_eq_true _ _).1 hone
  have hrun : Run Init step Safe d := .next (atBoot []) opensFirst d (.start _ (atBoot_init [])) opensFirst_safe hd
  have hopen : d.Opens 0 := ⟨by decide, by rw [show d.refs (0 : Word).toNat = 2 from of_decide_eq_true hr]; decide⟩
  exact ⟨d, hrun, hopen, sets_size_iff hrun hopen 4096⟩

/-- **A file with a size for 11 blocks, and without a block, panics the server** when it is made empty. -/
theorem sets_size_fails : ¬∀ d, Reach Init step d → ∀ fileid size, d.Opens fileid → d.SetsSize fileid size := by
  obtain ⟨d, hrun, hd⟩ :=
    @Run.exists_of_exec Desk DeskAct Init step (fun _ _ => True) (fun _ _ => true) (fun _ _ _ => trivial)
    [opensFirst, .ask (.setSize 0 45056) (Function.update (fun _ => 0) 0 2)] (some (atBoot []))
    (fun _ h => Option.some.inj h ▸ atBoot_init [])
    (fun d => decide (d.refs 0 = 2) && (serveTable d.refs (.setSize 0 0) d.server).isNone) (by decide +kernel)
  rw [Bool.and_eq_true, decide_eq_true_eq, Option.isNone_iff_eq_none] at hd
  intro hall
  obtain ⟨srv, hserve, -⟩ := hall d hrun 0 0 ⟨by decide, by rw [show d.refs (0 : Word).toNat = 2 from hd.1]; decide⟩
  exact Option.some_ne_none _ (hserve.symm.trans hd.2)

end Desk

end Mos
