import Mos.FsShrink
/-!
# FsResize — `file_set_size`

The number of blocks of a size is what `ROUND` makes of it, which is 0 for the last sizes there are.  A file that gets
smaller loses the blocks from the new number on to the old one, and its indirect block where the new number is no more
than `NDIRECT`; it panics where one of the slots in between cannot be got to.  The directory of the file is flushed.
-/
namespace Mos

open Fallible FilePtr Fs

variable {s s' s'' : Fs} {e f a b i : Nat} {u w : Use}

/-! ## Flushing -/

theorem writeBlock_quiet (hm : s.mapped b = true) : ∃ s', writeBlock b s = some (.ok (), s') ∧ Quiet s s' := by
  have hview : ∀ a, Fs.view { s with disk := fun a => if a / blockWords = b then s.mem a else s.disk a } a =
      s.view a := by
    intro a
    unfold Fs.view
    by_cases hab : a / blockWords = b
    · simp only [hab, hm, if_true]
    · simp only [hab, if_false]
  refine ⟨{ s with disk := fun a => if a / blockWords = b then s.mem a else s.disk a }, ?_, ⟨fun a _ => hview a,
    fun a _ hs => hs.imp id fun hs => (hview a).trans ?_, fun _ h => h, rfl, rfl, List.suffix_refl _⟩, fun _ => .inl⟩
  · unfold writeBlock
    rw [bind_read]
    simp only [id_eq, hm, Bool.not_true, Bool.false_eq_true, if_false]
    rfl
  · by_cases hab : a / blockWords = b
    · exact (mem_eq_view (hab ▸ hm)).symm.trans (if_pos hab).symm
    · exact hs.trans (if_neg hab).symm

/-- **`file_map_block`**, with `alloc` not set. -/
theorem fileMapBlock_keep (ho : Owned s) (hf : File s f) (hheld : Held s f) (i : Nat) :
    ∃ r s', fileMapBlock f i false s = some (r, s') ∧ Quiet s s' := by
  by_cases h : s.Walkable f i
  · obtain ⟨a, s₁, hwalk, hq, -, -, -⟩ := @fileBlockWalk_walkable _ _ _ false ho hf hheld h
    unfold fileMapBlock
    rw [bind_of_ok hwalk, bind_of_ok (show loadWord a s₁ = some (.ok (s₁.mem a), s₁) from rfl)]
    by_cases h0 : s₁.mem a = 0
    · rw [if_pos h0]
      exact ⟨_, s₁, rfl, hq⟩
    · rw [if_neg h0]
      exact ⟨_, s₁, rfl, hq⟩
  · obtain ⟨e, s₁, hwalk, hq⟩ := fileBlockWalk_stuck ho hf hheld h
    exact ⟨_, s₁, bind_of_error hwalk, hq⟩

theorem fileFlushBlock_quiet (ho : Owned s) (hf : File s f) (hheld : Held s f) (i : Nat) :
    ∃ s', fileFlushBlock f i s = some (.ok (), s') ∧ Quiet s s' := by
  obtain ⟨r, s₁, hmap, hq⟩ := fileMapBlock_keep ho hf hheld i
  unfold fileFlushBlock
  rw [bind_attempt hmap]
  cases r with
  | error e => exact ⟨s₁, rfl, hq⟩
  | ok diskno =>
    simp only [bind_read, id_eq]
    by_cases hd : (s₁.mapped diskno && s₁.dirty diskno) = true
    · rw [if_pos hd]
      obtain ⟨s₂, hw, hq₂⟩ := writeBlock_quiet (Bool.and_eq_true_iff.1 hd).1
      exact ⟨s₂, hw, hq.trans hq₂ ho⟩
    · rw [if_neg hd]
      exact ⟨s₁, rfl, hq⟩

theorem fileFlushBlocks_quiet (bnos : List Nat) : ∀ s, Owned s → File s f → Held s f →
    ∃ s', fileFlushBlocks f bnos s = some (.ok (), s') ∧ Quiet s s' := by
  induction bnos with
  | nil => exact fun s _ _ _ => ⟨s, rfl, .refl s⟩
  | cons i bnos ih =>
    intro s ho hf hheld
    obtain ⟨s₁, hrun, hq⟩ := fileFlushBlock_quiet ho hf hheld i
    have hs := hq.still ho
    obtain ⟨s₂, hrun₂, hq₂⟩ := ih s₁ hs.owned ((hs.file f).2 hf) (hq.held hheld)
    exact ⟨s₂, (bind_of_ok hrun).trans hrun₂, hq.trans hq₂ ho⟩

/-- **`file_flush`** changes nothing that can be read. -/
theorem fileFlush_quiet (ho : Owned s) (hf : File s f) (hheld : Held s f) :
    ∃ s', fileFlush f s = some (.ok (), s') ∧ Quiet s s' :=
  fileFlushBlocks_quiet _ s ho hf hheld

/-- The directory of the file can be flushed, or there is none. -/
def Fs.Flushable (s : Fs) (f : Nat) : Prop :=
  s.view (fDir f) = 0 ∨ ∃ d, File s d ∧ Held s d ∧ wordOf (s.view (fDir f)) = d

theorem flushDir_quiet (ho : Owned s) (hheld : Held s f) (hl : s.Flushable f) :
    ∃ s', flushDir f s = some (.ok (), s') ∧ Quiet s s' := by
  have hview : s.mem (fDir f) = s.view (fDir f) := mem_eq_view (hheld 45 (by decide))
  unfold flushDir
  rw [bind_of_ok (show loadWord (fDir f) s = some (.ok (s.mem (fDir f)), s) from rfl), hview]
  by_cases h0 : s.view (fDir f) = 0
  · rw [if_pos h0]
    exact ⟨s, rfl, .refl s⟩
  · rw [if_neg h0]
    obtain ⟨d, hd, hheld, rfl⟩ := hl.resolve_left h0
    exact fileFlush_quiet ho hd hheld

/-! ## The number of blocks -/

/-- The number of blocks that a size takes. -/
def blocksFor (size : Word) : Nat := (size.toNat + 4095) / 4096

theorem roundMask_div (w : Word) : (w &&& ~~~4095).toNat / 4096 = w.toNat / 4096 := by
  have hm : (4095 : Word).toNat = 2 ^ 12 - 1 := rfl
  rw [toNat_and_not_mask hm]
  exact Nat.mul_div_cancel _ (by decide)

/-- **`ROUND` wraps round** for sizes in the last block there is. -/
theorem nblocksOf_eq (size : Word) : nblocksOf size = if size.toNat ≤ 2 ^ 32 - 4096 then blocksFor size else 0 := by
  have hp : nblocksOf size = (size + 4095).toNat / 4096 := roundMask_div (size + 4095)
  have h32 := size.isLt
  rw [hp, BitVec.toNat_add]
  have h4095 : (4095 : Word).toNat = 4095 := rfl
  rw [h4095]
  unfold blocksFor
  by_cases h : size.toNat ≤ 2 ^ 32 - 4096
  · rw [if_pos h, Nat.mod_eq_of_lt (by omega)]
  · rw [if_neg h]
    omega

theorem blockAt_lt (h : s.blockAt f i = some b) : i < nIndirect := by
  by_contra hc
  have h₁ : ¬i < nDirect := fun h10 => hc (Nat.lt_trans h10 (by decide))
  unfold blockAt slot at h
  rw [if_neg h₁, if_neg hc] at h
  cases h

/-! ## Truncating -/

/-- The slots that the loop of `file_truncate` goes over, from the new number of blocks to the old one. -/
def Cut (n m : Nat) (w : Use) : Prop := ∃ i, n ≤ i ∧ i < m ∧ w = .block i

/-- The slots of which the blocks are freed, and those that are empty then. -/
def CutFree (n m : Nat) (w : Use) : Prop := Cut n m w ∨ (n ≤ nDirect ∧ w = .indirect)

def CutGone (n m : Nat) (w : Use) : Prop := Cut n m w ∨ (n ≤ nDirect ∧ Goes .indirect w)

/-- **The loop gets to all of them.** -/
def Fs.Trims (s : Fs) (f : Nat) (n : Word) : Prop :=
  ∀ i, nblocksOf n ≤ i → i < nblocksOf (s.view (fSize f)) → s.Walkable f i

theorem holds_indirect_none (h : s.indirect f = none) (hw : Goes .indirect w) : s.vol.holds f w = none := by
  rcases hw with rfl | ⟨-, i, h10, rfl⟩
  · exact h
  · rw [holds_eq, slot_indirect (Nat.not_lt.2 h10), h]
    by_cases h₂ : i < nIndirect
    · rw [if_pos h₂]
      rfl
    · rw [if_neg h₂]
      rfl

theorem clearIndirect_run {β : Type} (ho : Owned s) (hf : File s f) (hheld : Held s f) (k : Unit → FsM β) :
    ∃ s', (loadWord (fIndirect f) >>= fun r =>
        if r ≠ 0 then freeBlock r.toNat >>= fun _ => storeWord (fIndirect f) 0 >>= k else k ()) s = k () s' ∧
      Sheds f (· = .indirect) (Goes .indirect) s s' := by
  have hm : s.mapped (fIndirect f / blockWords) = true := hheld 44 (by decide)
  have hload : loadWord (fIndirect f) s = some (.ok (s.view (fIndirect f)), s) := by rw [← mem_eq_view hm]; rfl
  rw [bind_of_ok hload]
  by_cases h0 : s.view (fIndirect f) = 0
  · have hnone : s.indirect f = none := if_pos h0
    simp only [ne_eq, h0, not_true_eq_false, if_false]
    refine ⟨s, rfl, ho, .refl s _, rfl, fun _ => .inl, fun c => ⟨.inl, fun h => h.elim id ?_⟩,
      fun w hw => holds_indirect_none hnone hw, fun _ _ => rfl, Iff.rfl, rfl, fun _ => id, fun _ => .inl,
        fun _ => .refl s _⟩
    rintro ⟨w, rfl, hc⟩
    exact absurd (hc.symm.trans hnone) (Option.some_ne_none c)
  · have hsome : s.vol.holds f .indirect = some (s.view (fIndirect f)).toNat := if_neg h0
    simp only [ne_eq, h0, not_false_eq_true, if_true]
    have hd : Data s (s.view (fIndirect f)).toNat := ho.data_indirect hf hsome
    have hne : (s.view (fIndirect f)).toNat ≠ 0 :=
      Nat.ne_of_gt (Nat.lt_of_lt_of_le (by decide) (Nat.le_trans (reserved_ge s) hd.le))
    refine ⟨_, ?_, .of_detached (ho.detach hf (u := .indirect) rfl hm hsome) ho hf⟩
    rw [bind_of_ok (freeBlock_eq hne hd.lt)]
    rfl

/-- **The size of a file is written.** -/
structure Sized (f : Nat) (n : Word) (s s' : Fs) : Prop where
  owned : Owned s'
  edit : Edit (· = fSize f) s s'
  sNblocks : s'.sNblocks = s.sNblocks
  free : ∀ c, s'.blockIsFree c = s.blockIsFree c
  mapped : s'.mapped = s.mapped
  holds : s'.vol.holds f = s.vol.holds f
  dir : s'.IsDir f ↔ s.IsDir f
  size : s'.view (fSize f) = n
  file_back : ∀ e, File s' e → File s e
  file : ∀ e, File s e → File s' e ∨ s.vol.Below Inside f e

theorem touches_size (f : Nat) (s : Fs) : Touches s f (fSize f) := .inl ⟨32, by decide, by decide, rfl⟩

theorem Fs.Edit.same_holds {k : Nat} (h : Edit (· = f + k) s s') (ho : Owned s) (hf : File s f) (hk : k < 34) :
    s'.vol.holds f = s.vol.holds f := by
  have hview : ∀ w a, s.slotWord f w = some a → s'.view a = s.view a := fun w a ha =>
    h.view a fun hc => ho.slot_ne hf ha hk hc.symm
  have hind : s'.indirect f = s.indirect f := holds_congr (w := .indirect) rfl (hview .indirect)
  exact funext fun w => holds_congr (slotWord_congr hind w) (hview w)

theorem Fs.Owned.put_size (ho : Owned s) (hf : File s f) (hheld : Held s f) (n : Word)
    (hk : s.IsDir f → ∀ i b, s.blockAt f i = some b → i < s.nblocks f) : Sized f n s (s.put (fSize f) n) := by
  have hm : s.mapped (fSize f / blockWords) = true := hheld 32 (by decide)
  have htouch := touches_size f s
  have he : Edit (· = fSize f) s (s.put (fSize f) n) := put_edit n
  obtain ⟨hn, hfree⟩ := put_free n (ho.touches_ne_super hf htouch) (ho.touches_ne hf htouch).1
  have hothers : ∀ e, File s e → e ≠ f → s.vol.Agree (s.put (fSize f) n).vol e := fun e hfe hef =>
    agree_of_view fun a ha => he.view a fun hc => hef (ho.touches_sole hfe hf ha (hc ▸ htouch))
  have hholds := he.same_holds ho hf (by decide)
  have hdir : (s.put (fSize f) n).IsDir f ↔ s.IsDir f := by
    show (s.put (fSize f) n).view (f + 33) = ftypeDir ↔ s.view (f + 33) = ftypeDir
    rw [he.view (f + 33) fun hc => absurd (Nat.add_left_cancel hc) (by decide)]
  have hback : ∀ e, File (s.put (fSize f) n) e → File s e := fun e => Volume.node_back fun m hm => by
    by_cases hmf : m = f
    · subst hmf
      refine fun hd => ⟨hdir.1 hd, fun i b _ hb => ?_⟩
      rw [hholds] at hb
      exact ⟨hk (hdir.1 hd) i b hb, hb⟩
    · exact (hothers m hm hmf).keeps_back
  have hr : (s.put (fSize f) n).reserved = s.reserved := by
    unfold reserved
    rw [hn]
  have hold : ∀ m w c, File (s.put (fSize f) n) m → (s.put (fSize f) n).vol.holds m w = some c →
      File s m ∧ s.vol.holds m w = some c := by
    intro m w c hm hc
    have hms := hback m hm
    by_cases hmf : m = f
    · subst hmf
      exact ⟨hms, hholds ▸ hc⟩
    · rw [(hothers m hms hmf).holds] at hc
      exact ⟨hms, hc⟩
  refine ⟨⟨he.up hn ho.up, hn ▸ ho.small, fun c hc => (hfree c).trans (ho.low c (hr ▸ hc)),
    ho.vol.step (x := f) (T := fun _ _ => False) (fun m w c hm hc => .inl (hold m w c hm hc)) (fun _ _ _ h => h.elim)
      (fun _ _ h => h.elim) fun m w c hm hc => ?_⟩, he, hn, hfree, rfl, hholds, hdir, ?_, hback, fun e hfe =>
    Volume.node_above (fun m hm hmf => (hothers m hm hmf).keeps) hfe⟩
  · obtain ⟨hm, hc⟩ := hold m w c hm hc
    have hd : Data s c := ho.vol.used m w c hm hc
    exact hd.of_free hn ((hfree c).trans hd.used)
  · rw [put_view hm, if_pos rfl]

theorem nblocksOf_zero : nblocksOf 0 = 0 := by decide

theorem mem_cut {n m : Nat} : i ∈ List.range' n (m - n) ↔ n ≤ i ∧ i < m := by
  rw [List.mem_range'_1]
  omega

/-- **`file_truncate`**, where the loop gets to all its slots. -/
theorem fileTruncate_trims (ho : Owned s) (hf : File s f) (hheld : Held s f) {n : Word} (h : s.Trims f n) :
    ∃ s', fileTruncate f n s = some (.ok (), s'.put (fSize f) n) ∧
      Sheds f (CutFree (nblocksOf n) (nblocksOf (s.view (fSize f))))
        (CutGone (nblocksOf n) (nblocksOf (s.view (fSize f)))) s s' := by
  have hm : s.mapped (fSize f / blockWords) = true := hheld 32 (by decide)
  have hload : loadWord (fSize f) s = some (.ok (s.view (fSize f)), s) := by rw [← mem_eq_view hm]; rfl
  have hnew : (if n = 0 then 0 else nblocksOf n) = nblocksOf n := by
    by_cases h0 : n = 0
    · rw [if_pos h0, h0, nblocksOf_zero]
    · exact if_neg h0
  unfold fileTruncate
  rw [bind_of_ok hload]
  simp only [hnew]
  unfold Fs.Trims at h
  generalize nblocksOf (s.view (fSize f)) = old at h ⊢
  generalize nblocksOf n = new at h ⊢
  obtain ⟨s₁, hrun, hsheds⟩ := fileClearBlocks_walkable (List.range' new (old - new)) s ho hf hheld fun i hi =>
    h i (mem_cut.1 hi).1 (mem_cut.1 hi).2
  have hcut : ∀ w, Cut new old w ↔ ∃ i ∈ List.range' new (old - new), w = .block i := fun w =>
    exists_congr fun i => by rw [mem_cut, and_assoc]
  have hsheds := hsheds.congr hcut hcut
  rw [bind_of_ok hrun]
  by_cases h10 : new ≤ nDirect
  · rw [if_pos h10]
    obtain ⟨s₂, hrun₂, hsheds₂⟩ := clearIndirect_run hsheds.owned (hsheds.file_self ho hf) (hsheds.edit.held hheld)
      fun _ => storeWord (fSize f) n
    refine ⟨s₂, hrun₂, (hsheds.trans hsheds₂ ho hf ?_).congr (fun w => ?_) fun w => ?_⟩
    · rintro w rfl ⟨i, -, -, hc⟩
      cases hc
    · exact or_congr_right (and_iff_right h10)
    · exact or_congr_right (and_iff_right h10)
  · rw [if_neg h10]
    refine ⟨s₁, rfl, hsheds.congr (fun w => ?_) fun w => ?_⟩
    · exact or_iff_left fun hc => h10 hc.1
    · exact or_iff_left fun hc => h10 hc.1

/-- **It panics** where it does not. -/
theorem fileTruncate_stuck (ho : Owned s) (hf : File s f) (hheld : Held s f) {n : Word} (h : ¬s.Trims f n) :
    fileTruncate f n s = none := by
  have hm : s.mapped (fSize f / blockWords) = true := hheld 32 (by decide)
  have hload : loadWord (fSize f) s = some (.ok (s.view (fSize f)), s) := by rw [← mem_eq_view hm]; rfl
  have hnew : (if n = 0 then 0 else nblocksOf n) = nblocksOf n := by
    by_cases h0 : n = 0
    · rw [if_pos h0, h0, nblocksOf_zero]
    · exact if_neg h0
  unfold fileTruncate
  rw [bind_of_ok hload]
  simp only [hnew]
  unfold Fs.Trims at h
  simp only [not_forall] at h
  obtain ⟨i, hn, hm, hi⟩ := h
  rw [bind_run, fileClearBlocks_stuck _ s ho hf hheld ⟨i, mem_cut.2 ⟨hn, hm⟩, hi⟩]
  rfl

/-! ## Setting the size -/

/-- **The directory of the file** is the one it is in; the root has none. -/
def Fs.Linked (s : Fs) (f : Nat) : Prop :=
  s.view (fDir f) = 0 ∨ ∃ d i b, File s d ∧ s.IsDir d ∧ i < s.nblocks d ∧ s.blockAt d i = some b ∧
    Inside b f ∧ Held s d ∧
    s.view (fDir f) = addrOf d

theorem Fs.Owned.wordOf_addrOf (ho : Owned s) (hf : File s f) : wordOf (addrOf f) = f := by
  have hlt : f < 2 ^ 29 := by
    rcases hf.home with rfl | ⟨d, i, b, j, hd, hb, hj, rfl⟩
    · decide
    · have hb := (ho.data_block hd hb).lt
      have hsmall := ho.small
      unfold diskmaxBlocks at hsmall
      unfold file2blk at hj
      unfold diskAddr blockWords fileWords
      omega
  unfold wordOf addrOf
  rw [show diskMap + BitVec.ofNat 32 (4 * f) - diskMap = BitVec.ofNat 32 (4 * f) by
    rw [BitVec.add_comm, BitVec.add_sub_cancel], BitVec.toNat_ofNat, Nat.mod_eq_of_lt (by omega)]
  omega

/-- The directory is there after a change that only lets go what is below the file. -/
theorem Fs.Linked.flushable (h : s.Linked f) (ho : Owned s) (hf : File s f)
    (hview : s'.view (fDir f) = s.view (fDir f)) (hfile : ∀ e, File s e → File s' e ∨ s.vol.Below Inside f e)
    (hmapped : ∀ b, s.mapped b = true → s'.mapped b = true) :
    s'.Flushable f := by
  unfold Fs.Flushable
  rw [hview]
  refine h.imp_right ?_
  rintro ⟨d, i, b, hd, hdir, hi, hb, hin, hheld, he⟩
  have hbelow : s.vol.Below Inside d f := .entry i b f hdir hi hb hin
  have hd' : File s' d := (hfile d hd).resolve_right fun hbd => ho.not_below hf (hbd.trans hbelow)
  exact ⟨d, hd', fun k hk => hmapped _ (hheld k hk), by rw [he, ho.wordOf_addrOf hd]⟩

/-- What `file_set_size` frees and empties. -/
def Fs.Lets (s : Fs) (f : Nat) (n : Word) (P : Nat → Nat → Use → Prop) (w : Use) : Prop :=
  n < s.view (fSize f) ∧ P (nblocksOf n) (nblocksOf (s.view (fSize f))) w

/-- **What `file_set_size` does.** -/
structure Resized (f : Nat) (n : Word) (s s' : Fs) : Prop where
  owned : Owned s'
  edit : Edit (fun a => s.InBitmap a ∨ s.InSlots f a ∨ a = fSize f) s s'
  sNblocks : s'.sNblocks = s.sNblocks
  read : ∀ c, s'.mapped c = true → s.mapped c = true ∨ s.blockIsFree c = false
  free : ∀ c, s'.blockIsFree c = true ↔ s.blockIsFree c = true ∨ ∃ w, s.Lets f n CutFree w ∧ s.vol.holds f w = some c
  gone : ∀ w, s.Lets f n CutGone w → s'.vol.holds f w = none
  keeps : ∀ w, ¬s.Lets f n CutGone w → s'.vol.holds f w = s.vol.holds f w
  dir : s'.IsDir f ↔ s.IsDir f
  size : s'.view (fSize f) = n
  file_back : ∀ e, File s' e → File s e
  file : ∀ e, File s e → File s' e ∨ s.vol.Below Inside f e
  /-- Where there is nothing to let go, another size is written at most. -/
  idle : (∀ w, s.Lets f n CutGone w → s.vol.holds f w = none) → Edit (fun a => a = fSize f ∧ n ≠ s.view (fSize f)) s s'

theorem put_same {a : Nat} {n : Word} (hm : s.mapped (a / blockWords) = true) (hv : s.view a = n) :
    Edit (fun _ => False) s (s.put a n) := by
  refine .of_same rfl rfl rfl rfl (List.suffix_refl _) (fun c _ => ?_) fun _ _ _ => rfl
  rw [put_view hm]
  by_cases hc : c = a
  · rw [if_pos hc, hc, hv]
  · exact if_neg hc

theorem put_changes {a : Nat} (hm : s.mapped (a / blockWords) = true) (n : Word) :
    Edit (fun c => c = a ∧ n ≠ s.view a) s (s.put a n) := by
  by_cases hv : s.view a = n
  · exact (put_same hm hv).mono fun _ => False.elim
  · exact (put_edit n).mono fun c hc => ⟨hc, fun h => hv h.symm⟩

/-- The words that may change where a file gets the size `n` and the slots of `G` are emptied: none but the size,
where they are empty. -/
def Fs.Cutting (s : Fs) (f : Nat) (n : Word) (G : Use → Prop) (a : Nat) : Prop :=
  (a = fSize f ∧ n ≠ s.view (fSize f)) ∨ ((∃ w b, G w ∧ s.vol.holds f w = some b) ∧ (s.InBitmap a ∨ s.InSlots f a))

theorem Fs.Cutting.congr {n : Word} {G : Use → Prop} {a : Nat} (hsize : s'.view (fSize f) = s.view (fSize f))
    (hn : s'.sNblocks = s.sNblocks) (hholds : s'.vol.holds f = s.vol.holds f) :
    s'.Cutting f n G a ↔ s.Cutting f n G a := by
  have hind : s'.indirect f = s.indirect f := congrFun hholds .indirect
  unfold Cutting InBitmap InSlots reserved
  rw [hsize, hn, hholds, hind]

theorem Fs.Owned.cutting_above (ho : Owned s) (hf : File s f) {n : Word} {G : Use → Prop} {a : Nat}
    (ha : s.Cutting f n G a) : sRoot ≤ a := by
  rcases ha with ⟨rfl, -⟩ | ⟨-, hbit | hslot⟩
  · exact ho.file_above hf 32
  · exact above_of_block hbit.1
  · exact ho.slots_above hf hslot

/-- The words that `file_set_size` may change. -/
def Fs.Sizing (s : Fs) (f : Nat) (n : Word) : Nat → Prop := s.Cutting f n (s.Lets f n CutGone)

theorem Fs.Sizing.congr {n : Word} {a : Nat} (hsize : s'.view (fSize f) = s.view (fSize f))
    (hn : s'.sNblocks = s.sNblocks) (hholds : s'.vol.holds f = s.vol.holds f) : s'.Sizing f n a ↔ s.Sizing f n a := by
  unfold Sizing
  rw [Cutting.congr hsize hn hholds, show s'.Lets f n CutGone = s.Lets f n CutGone by unfold Lets; rw [hsize]]

theorem Fs.Sizing.empty {a : Nat} (h : s.view (fSize f) = 0) : ¬s.Sizing f 0 a := by
  rintro (⟨-, hne⟩ | ⟨⟨w, b, hw, -⟩, -⟩)
  · exact hne h.symm
  · have hlt := hw.1
    rw [h] at hlt
    exact absurd hlt (by decide)

theorem Resized.saves {n : Word} (h : Resized f n s s') (ho : Owned s) (hf : File s f) : Saves (s.Sizing f n) s s' := by
  refine .of_edit ?_ fun a => ho.cutting_above hf
  by_cases hsome : ∃ w b, s.Lets f n CutGone w ∧ s.vol.holds f w = some b
  · obtain ⟨w, b, hw, hb⟩ := hsome
    refine h.edit.mono fun a ha => ?_
    rcases ha with hbit | hslot | rfl
    · exact .inr ⟨⟨w, b, hw, hb⟩, .inl hbit⟩
    · exact .inr ⟨⟨w, b, hw, hb⟩, .inr hslot⟩
    · exact .inl ⟨rfl, BitVec.ne_of_lt hw.1⟩
  · refine (h.idle fun w hw => ?_).mono fun a => .inl
    cases hb : s.vol.holds f w with
    | none => rfl
    | some b => exact absurd ⟨w, b, hw, hb⟩ hsome

theorem resized_of (hs : Sound s) (hf : File s f) (hheld : Held s f) {n : Word} {s₁ : Fs}
    (h : Sheds f (s.Lets f n CutFree) (s.Lets f n CutGone) s s₁) : Resized f n s (s₁.put (fSize f) n) := by
  have ho := hs.toOwned
  have hf₁ := h.file_self ho hf
  have hsized := h.owned.put_size hf₁ (h.edit.held hheld) n fun hd i b hb => by
    have hb' : s.blockAt f i = some b := by
      by_cases hg : s.Lets f n CutGone (.block i)
      · exact absurd ((h.gone _ hg).symm.trans hb) (Option.some_ne_none b).symm
      · exact (h.keeps _ hg).symm.trans hb
    refine Nat.lt_of_lt_of_eq ((hs.whole f hf (h.dir.1 hd) i).2 ?_) h.count.symm
    show (s.blockAt f i).isSome = true
    rw [hb']
    rfl
  refine ⟨hsized.owned, (h.edit.mono fun a ha => ha.imp_right .inl).trans (hsized.edit.mono fun a ha => .inr (.inr ha)),
    hsized.sNblocks.trans h.sNblocks, fun c hc => h.read c (hsized.mapped ▸ hc), fun c => ?_,
      fun w hw => ?_, fun w hw => ?_,
    hsized.dir.trans h.dir, hsized.size, fun e he => h.file_back e (hsized.file_back e he),
      fun e he => ?_, fun hnone => ?_⟩
  · rw [hsized.free]
    exact h.free c
  · rw [hsized.holds]
    exact h.gone w hw
  · rw [hsized.holds]
    exact h.keeps w hw
  · rcases h.file e he with he | he
    · exact (hsized.file e he).imp_right fun hb => (Volume.below_back (fun m hm => h.keeps_back ho hf hm) hf hb).1
    · exact .inr he
  · refine ((h.idle hnone).mono fun _ => False.elim).trans ?_
    rw [← h.size]
    exact put_changes (h.edit.held hheld 32 (by decide)) n

theorem Resized.quiet {n : Word} (h : Resized f n s s') (hf' : File s' f) (hq : Quiet s' s'') : Resized f n s s'' := by
  have hs := hq.still h.owned
  have ha := hs.agree hf'
  refine ⟨hs.owned, h.edit.trans (hq.edit.mono fun _ => False.elim), hs.sNblocks.trans h.sNblocks,
    fun c hc => ?_, fun c => ?_,
    fun w hw => ?_, fun w hw => ?_, ha.dir.trans h.dir, (hs.size hf').trans h.size,
      fun e he => h.file_back e ((hs.file e).1 he),
    fun e he => (h.file e he).imp_left (hs.file e).2, fun hnone =>
      (h.idle hnone).trans (hq.edit.mono fun _ => False.elim)⟩
  · rcases hq.read c hc with hc | hc
    · exact h.read c hc
    · refine .inr (Bool.eq_false_iff.2 fun hfree => ?_)
      rw [(h.free c).2 (.inl hfree)] at hc
      cases hc
  · rw [hs.free]
    exact h.free c
  · rw [ha.holds]
    exact h.gone w hw
  · rw [ha.holds]
    exact h.keeps w hw

theorem Resized.file_self {n : Word} (h : Resized f n s s') (ho : Owned s) (hf : File s f) : File s' f :=
  (h.file f hf).resolve_right (ho.not_below hf)

theorem put_put (s : Fs) (a : Nat) (v w : Word) : (s.put a v).put a w = s.put a w := by
  unfold put
  simp only [Function.update_idem]

theorem flush_resized (hs : Sound s) (hf : File s f) (hheld : Held s f) (hl : s.Linked f) {n : Word}
    (h : Resized f n s s') :
    ∃ s'', flushDir f s' = some (.ok (), s'') ∧ Resized f n s s'' := by
  have ho := hs.toOwned
  have hview : s'.view (fDir f) = s.view (fDir f) := by
    refine h.edit.view _ ?_
    rintro (hbit | hslot | hsize)
    · exact (ho.word_not_bitmap hf (show 45 < fileWords by decide)).1 hbit
    · exact ho.word_not_slot hf hf (show 45 < fileWords by decide) (.inr (.inr (Nat.le_refl 45))) hslot
    · exact absurd (Nat.add_left_cancel hsize) (by decide)
  obtain ⟨s'', hflush, hq⟩ := flushDir_quiet h.owned (h.edit.held hheld) (hl.flushable ho hf hview h.file h.edit.mapped)
  exact ⟨s'', hflush, h.quiet (h.file_self ho hf) hq⟩

/-- **`file_set_size`**, where it does not shrink the file or the loop gets to all its slots. -/
theorem fileSetSize_resizes (hs : Sound s) (hf : File s f) (hheld : Held s f) (hl : s.Linked f) {n : Word}
    (h : n < s.view (fSize f) → s.Trims f n) : ∃ s', fileSetSize f n s = some (.ok (), s') ∧ Resized f n s s' := by
  have ho := hs.toOwned
  have hm : s.mapped (fSize f / blockWords) = true := hheld 32 (by decide)
  have hload : loadWord (fSize f) s = some (.ok (s.view (fSize f)), s) := by rw [← mem_eq_view hm]; rfl
  unfold fileSetSize
  rw [bind_of_ok hload]
  by_cases hlt : n < s.view (fSize f)
  · obtain ⟨s₁, hrun, hsheds⟩ := fileTruncate_trims ho hf hheld (h hlt)
    have hres := resized_of hs hf hheld (hsheds.congr (fun w => and_iff_right hlt) fun w => and_iff_right hlt)
    obtain ⟨s₂, hflush, hres₂⟩ := flush_resized hs hf hheld hl hres
    refine ⟨s₂, ?_, hres₂⟩
    rw [if_pos hlt, bind_of_ok hrun]
    have hput : storeWord (fSize f) n (s₁.put (fSize f) n) = some (.ok (), s₁.put (fSize f) n) :=
      congrArg (fun t => some (Except.ok (), t)) (put_put s₁ (fSize f) n n)
    exact (bind_of_ok hput).trans hflush
  · have hno : ∀ P w, s.Lets f n P w ↔ False := fun P w => iff_false_intro fun hc => hlt hc.1
    have hres := resized_of hs hf hheld ((Sheds.of_quiet (.refl s) ho hf).congr (hno CutFree) (hno CutGone))
    obtain ⟨s₂, hflush, hres₂⟩ := flush_resized hs hf hheld hl hres
    refine ⟨s₂, ?_, hres₂⟩
    rw [if_neg hlt]
    exact hflush

/-- **It panics** where it shrinks the file and the loop does not. -/
theorem fileSetSize_stuck (ho : Owned s) (hf : File s f) (hheld : Held s f) {n : Word} (hlt : n < s.view (fSize f))
    (h : ¬s.Trims f n) : fileSetSize f n s = none := by
  have hm : s.mapped (fSize f / blockWords) = true := hheld 32 (by decide)
  have hload : loadWord (fSize f) s = some (.ok (s.view (fSize f)), s) := by rw [← mem_eq_view hm]; rfl
  unfold fileSetSize
  rw [bind_of_ok hload, if_pos hlt, bind_run, fileTruncate_stuck ho hf hheld h]
  rfl

end Mos
