import Mos.FsGrow
/-!
# FsShrink — a file loses blocks

`file_clear_block` gets to the slot of a block through the indirect block, and there has to be one it can read:
otherwise it returns a code, which is a panic in `file_truncate`.  What it leaves `Sheds` the blocks at the indices it
went over.
-/
namespace Mos

open Fallible FilePtr

namespace Fs

variable {s s' s'' : Fs} {e f a b i j : Nat} {u w : Use}

/-! ## Quiet changes -/

/-- **Nothing changes that can be read**, and only blocks in use are read. -/
structure Quiet (s s' : Fs) : Prop where
  edit : Edit (fun _ => False) s s'
  read : ∀ c, s'.mapped c = true → s.mapped c = true ∨ s.blockIsFree c = false

namespace Quiet

theorem refl (s : Fs) : Quiet s s := ⟨.refl s _, fun _ => .inl⟩

theorem of_loads {B : Nat → Prop} (h : Loads B s s') (hb : ∀ c, B c → s.blockIsFree c = false) : Quiet s s' :=
  ⟨.of_loads h, fun c hc => (h.read c hc).imp_right (hb c)⟩

theorem still (h : Quiet s s') (ho : Owned s) : Still s s' := h.edit.still ho id (fun _ _ => id) fun _ _ _ _ => id

theorem trans (h : Quiet s s') (h' : Quiet s' s'') (ho : Owned s) : Quiet s s'' :=
  ⟨h.edit.trans h'.edit, fun c hc => (h'.read c hc).elim (h.read c) fun hf => .inr ((h.still ho).free c ▸ hf)⟩

theorem held (h : Quiet s s') (hf : Held s f) : Held s' f := h.edit.held hf

end Quiet

/-! ## Reading the indirect block -/

/-- The block has a page, or can get one. -/
def Readable (s : Fs) (b : Nat) : Prop := s.mapped b = true ∨ s.pages.headD true = true

/-- The slot of the block can be got to. -/
def Walkable (s : Fs) (f i : Nat) : Prop :=
  i < nDirect ∨ (i < nIndirect ∧ ∃ b, s.indirect f = some b ∧ s.Readable b)

end Fs

open Fs

variable {s s' s'' : Fs} {e f a b i j : Nat} {u w : Use}

theorem readBlock_readable (hd : Data s b) (h : s.Readable b) : ∃ c s', readBlock b s = some (.ok c, s') ∧
    Loads (· = b) s s' ∧ s'.mapped b = true := by
  obtain ⟨r, s', hrun, hl, ⟨c, rfl, hm⟩ | ⟨rfl, -⟩⟩ := readBlock_spec hd
  · exact ⟨c, s', hrun, hl, hm⟩
  · have hin : ¬(s.super && decide (s.sNblocks ≤ b)) = true := by
      have := hd.lt
      simp only [Bool.and_eq_true, decide_eq_true_eq, not_and]
      omega
    rw [readBlock_eq, if_neg hin, hd.used, Bool.and_false, if_neg Bool.false_ne_true] at hrun
    by_cases hm : s.mapped b = true
    · rw [if_pos hm] at hrun
      cases hrun
    · rw [if_neg hm, bind_of_ok (by rw [memAllocBlock_eq, if_pos (h.resolve_left hm)])] at hrun
      cases hrun

theorem readBlock_unreadable (hd : Data s b) (h : ¬s.Readable b) : ∃ s', readBlock b s = some (.error (-eNoMem), s') ∧
    Loads (· = b) s s' := by
  obtain ⟨r, s', hrun, hl, ⟨c, rfl, hm⟩ | ⟨rfl, -⟩⟩ := readBlock_spec hd
  · have hin : ¬(s.super && decide (s.sNblocks ≤ b)) = true := by
      have := hd.lt
      simp only [Bool.and_eq_true, decide_eq_true_eq, not_and]
      omega
    have hm : ¬s.mapped b = true := fun hm => h (.inl hm)
    have hp : ¬s.pages.headD true = true := fun hp => h (.inr hp)
    rw [readBlock_eq, if_neg hin, hd.used, Bool.and_false, if_neg Bool.false_ne_true, if_neg hm,
      bind_of_error (by rw [memAllocBlock_eq, if_neg hp])] at hrun
    cases hrun
  · exact ⟨s', hrun, hl⟩

theorem fileBlockWalk_indirect {alloc : Bool} (hheld : Held s f) (h₁ : ¬i < nDirect) (h₂ : i < nIndirect)
    (hb : s.indirect f = some b) :
    fileBlockWalk f i alloc s = (readBlock b >>= fun _ => pure (diskAddr b + i)) s := by
  have hind : s.mapped (fIndirect f / blockWords) = true := hheld 44 (by decide)
  have hne : ¬s.view (fIndirect f) = 0 := by
    intro h0
    exact Option.some_ne_none b (hb.symm.trans (if_pos h0))
  have hto : (s.view (fIndirect f)).toNat = b := Option.some.inj ((if_neg hne).symm.trans hb)
  have hload : loadWord (fIndirect f) s = some (.ok (s.view (fIndirect f)), s) := by rw [← mem_eq_view hind]; rfl
  unfold fileBlockWalk
  rw [if_neg h₁, if_pos h₂, bind_of_ok hload, if_neg hne]
  exact (bind_of_ok hload).trans (by rw [hto])

/-- **`file_block_walk`** to a slot that can be got to. -/
theorem fileBlockWalk_walkable {alloc : Bool} (ho : Owned s) (hf : File s f) (hheld : Held s f) (h : s.Walkable f i) :
    ∃ a s', fileBlockWalk f i alloc s = some (.ok a, s') ∧ Quiet s s' ∧ s.slotWord f (.block i) = some a ∧
      s'.mapped (a / blockWords) = true ∧ ∀ j, s'.Walkable f j ↔ s.Walkable f j := by
  by_cases h₁ : i < nDirect
  · have hk : s.mapped ((f + (34 + i)) / blockWords) = true :=
      hheld (34 + i) (Nat.lt_trans (Nat.add_lt_add_left (show i < 10 from h₁) 34) (by decide))
    rw [← Nat.add_assoc] at hk
    refine ⟨fDirect f i, s, ?_, .refl s, slot_direct h₁ s, hk, fun _ => Iff.rfl⟩
    unfold fileBlockWalk
    rw [if_pos h₁]
    rfl
  · obtain ⟨h₂, b, hb, hr⟩ := h.resolve_left h₁
    have hd : Data s b := ho.data_indirect hf hb
    obtain ⟨c, s', hread, hl, hm⟩ := readBlock_readable hd hr
    refine ⟨diskAddr b + i, s', ?_, .of_loads hl fun c hc => hc ▸ hd.used, ?_, ?_, fun j => ?_⟩
    · rw [fileBlockWalk_indirect hheld h₁ h₂ hb, bind_of_ok hread]
      rfl
    · rw [slot_indirect h₁, if_pos h₂, hb]
      rfl
    · rw [diskAddr_div b h₂]
      exact hm
    · unfold Walkable
      rw [hl.indirect]
      refine or_congr_right (and_congr_right fun _ => exists_congr fun c => and_congr_right fun hc => ?_)
      cases hb.symm.trans hc
      exact ⟨fun _ => hr, fun _ => .inl hm⟩

/-- **`file_block_walk`** to one that cannot. -/
theorem fileBlockWalk_stuck (ho : Owned s) (hf : File s f) (hheld : Held s f) (h : ¬s.Walkable f i) :
    ∃ e s', fileBlockWalk f i false s = some (.error e, s') ∧ Quiet s s' := by
  have h₁ : ¬i < nDirect := fun h₁ => h (.inl h₁)
  by_cases h₂ : i < nIndirect
  · cases hb : s.indirect f with
    | none =>
      have hind : s.mapped (fIndirect f / blockWords) = true := hheld 44 (by decide)
      have h0 : s.mem (fIndirect f) = 0 := by
        rw [mem_eq_view hind]
        by_contra hne
        exact Option.some_ne_none _ ((if_neg hne).symm.trans hb)
      refine ⟨-eNotFound, s, ?_, .refl s⟩
      unfold fileBlockWalk
      rw [if_neg h₁, if_pos h₂,
        bind_of_ok (show loadWord (fIndirect f) s = some (.ok (s.mem (fIndirect f)), s) from rfl), if_pos h0]
      rfl
    | some b =>
      have hd : Data s b := ho.data_indirect hf hb
      obtain ⟨s', hread, hl⟩ := readBlock_unreadable hd fun hr => h (.inr ⟨h₂, b, hb, hr⟩)
      refine ⟨-eNoMem, s', ?_, .of_loads hl fun c hc => hc ▸ hd.used⟩
      rw [fileBlockWalk_indirect hheld h₁ h₂ hb]
      exact bind_of_error hread
  · refine ⟨-eInval, s, ?_, .refl s⟩
    unfold fileBlockWalk
    rw [if_neg h₁, if_neg h₂]
    rfl

/-! ## A file loses blocks -/

/-- **No file is below itself.** -/
theorem Fs.Owned.not_below (ho : Owned s) (hf : File s f) : ¬s.vol.Below Inside f f := by
  refine ho.vol.not_below (fun b b' n hb hb' => ?_) (fun b hb hin => ?_) hf
  · obtain ⟨j, hj, rfl⟩ := mem_entries.1 hb
    obtain ⟨j', hj', heq⟩ := mem_entries.1 hb'
    have h1 := entry_word (b := b) (k := 0) hj (by decide)
    rw [heq, entry_word hj' (by decide)] at h1
    exact h1.symm
  · obtain ⟨j, hj, heq⟩ := mem_entries.1 hin
    have h1 := root_word (k := 0) (by decide)
    rw [heq, entry_word hj (by decide)] at h1
    have hle : s.reserved ≤ b := hb.le
    have := reserved_ge s
    omega

/-- The words of an entry are not in the bitmap, nor in a block that is free. -/
theorem Fs.Owned.word_not_bitmap {k : Nat} (ho : Owned s) (he : File s e) (hk : k < fileWords) :
    ¬s.InBitmap (e + k) ∧ s.blockIsFree ((e + k) / blockWords) = false := by
  rcases he.word hk with ⟨-, h1⟩ | ⟨d, i, hd, hb⟩
  · rw [h1]
    refine ⟨fun hc => ?_, ho.low 1 (Nat.lt_of_lt_of_le (by decide) (reserved_ge s))⟩
    have := hc.1
    omega
  · have hdata := ho.data_block hd hb
    refine ⟨fun hc => ?_, hdata.used⟩
    have := hc.2
    have := hdata.le
    omega

/-- The words of an entry that are in a slot of a file are those of its own slots. -/
theorem Fs.Owned.word_not_slot {k : Nat} (ho : Owned s) (he : File s e) (hf : File s f) (hk : k < fileWords)
    (h : e ≠ f ∨ k < 34 ∨ 45 ≤ k) : ¬s.InSlots f (e + k) := by
  rintro (⟨k', h34, h45, heq⟩ | ⟨b, hb, hdiv⟩)
  · have hef := ho.word_sole he hf hk (Nat.lt_trans h45 (by decide)) heq
    omega
  · have hmod := Nat.mod_lt (e + k) (show 0 < blockWords by decide)
    refine ho.entry_ne_indirect he hf hk hmod hb ?_
    rw [← hdiv]
    exact (Nat.div_add_mod' _ _).symm

theorem Fs.Owned.inSlots_ne (ho : Owned s) (he : File s e) (hf : File s f) (hef : e ≠ f) (ha : Touches s e a) :
    ¬s.InSlots f a := by
  rintro (⟨k, h34, h45, rfl⟩ | ⟨b, hb, hdiv⟩)
  · exact hef (ho.touches_sole he hf ha (.inl ⟨k, by omega, h45, rfl⟩))
  · rcases ha with ⟨k, -, h45, rfl⟩ | ⟨c, i, -, hi, hc, rfl⟩
    · exact ho.word_not_slot he hf (Nat.lt_trans h45 (by decide)) (.inl hef) (.inr ⟨b, hb, hdiv⟩)
    · rw [diskAddr_div c hi] at hdiv
      subst hdiv
      exact hef (ho.vol.sole e f .indirect .indirect c he hf hc hb).1

theorem Fs.Edit.others (h : Edit (fun a => s.InBitmap a ∨ s.InSlots f a) s s') (ho : Owned s) (hf : File s f)
    (he : File s e) (hef : e ≠ f) : s.vol.Agree s'.vol e :=
  agree_of_view fun a ha => h.view a fun hw => hw.elim (ho.touches_ne he ha).1 (ho.inSlots_ne he hf hef ha)

/-- **The blocks in the slots of `F` are freed, and the slots of `G` are empty.** -/
structure Sheds (f : Nat) (F G : Use → Prop) (s s' : Fs) : Prop where
  owned : Owned s'
  edit : Edit (fun a => s.InBitmap a ∨ s.InSlots f a) s s'
  sNblocks : s'.sNblocks = s.sNblocks
  read : ∀ c, s'.mapped c = true → s.mapped c = true ∨ s.blockIsFree c = false
  free : ∀ c, s'.blockIsFree c = true ↔ s.blockIsFree c = true ∨ ∃ w, F w ∧ s.vol.holds f w = some c
  gone : ∀ w, G w → s'.vol.holds f w = none
  keeps : ∀ w, ¬G w → s'.vol.holds f w = s.vol.holds f w
  dir : s'.IsDir f ↔ s.IsDir f
  size : s'.view (fSize f) = s.view (fSize f)
  file_back : ∀ e, File s' e → File s e
  file : ∀ e, File s e → File s' e ∨ s.vol.Below Inside f e
  /-- Slots that are empty already are left alone. -/
  idle : (∀ w, G w → s.vol.holds f w = none) → Edit (fun _ => False) s s'

namespace Sheds

variable {F G F' G' : Use → Prop}

theorem of_quiet (h : Quiet s s') (ho : Owned s) (hf : File s f) : Sheds f (fun _ => False) (fun _ => False) s s' := by
  have hs := h.still ho
  have ha := hs.agree hf
  refine ⟨hs.owned, h.edit.mono fun _ => False.elim, hs.sNblocks, h.read, fun c => ?_, fun _ => False.elim,
    fun w _ => ?_, ha.dir,
    hs.size hf, fun e => (hs.file e).1, fun e he => .inl ((hs.file e).2 he), fun _ => h.edit⟩
  · rw [hs.free]
    exact ⟨.inl, fun h => h.elim id fun ⟨_, hw, _⟩ => hw.elim⟩
  · rw [ha.holds]

theorem of_detached (h : Detached f u b s s') (ho : Owned s) (hf : File s f) : Sheds f (· = u) (Goes u) s s' := by
  refine ⟨h.owned ho hf, h.edit, h.sNblocks, fun c hc => .inl (h.mapped ▸ hc), fun c => ?_, h.gone,
    h.holds, h.dir, h.size,
    fun e => h.file_back, fun e => h.file, fun hnone =>
      absurd ((hnone u (.inl rfl)).symm.trans h.held) (Option.some_ne_none b).symm⟩
  rw [h.free, Bool.or_eq_true, decide_eq_true_eq]
  refine or_congr_right ⟨?_, ?_⟩
  · rintro rfl
    exact ⟨u, rfl, h.held⟩
  · rintro ⟨w, rfl, hc⟩
    exact Option.some.inj (hc.symm.trans h.held)

theorem of_empty (ho : Owned s) (hf : File s f) (hi : s.vol.holds f (.block i) = none) :
    Sheds f (· = .block i) (Goes (.block i)) s s := by
  have hq := of_quiet (.refl s) ho hf
  refine ⟨ho, hq.edit, rfl, hq.read, fun c => ⟨.inl, fun h => h.elim id ?_⟩, fun w hw => ?_,
    fun _ _ => rfl, Iff.rfl, rfl,
    hq.file_back, hq.file, fun _ => .refl s _⟩
  · rintro ⟨w, rfl, hc⟩
    rw [hi] at hc
    cases hc
  · rcases hw with rfl | ⟨hc, -⟩
    · exact hi
    · cases hc

theorem congr (h : Sheds f F G s s') (hF : ∀ w, F' w ↔ F w) (hG : ∀ w, G' w ↔ G w) : Sheds f F' G' s s' := by
  obtain rfl : F' = F := funext fun w => propext (hF w)
  obtain rfl : G' = G := funext fun w => propext (hG w)
  exact h

theorem count (h : Sheds f F G s s') : s'.nblocks f = s.nblocks f := by
  unfold nblocks
  rw [h.size]

theorem keeps_back (h : Sheds f F G s s') (ho : Owned s) (hf : File s f) {n : Nat} (hn : File s n) :
    s'.vol.Keeps s.vol n := by
  by_cases hnf : n = f
  · subst hnf
    refine fun hd => ⟨h.dir.1 hd, fun i c hi hc => ⟨Nat.lt_of_lt_of_eq hi h.count, ?_⟩⟩
    by_cases hg : G (.block i)
    · rw [h.gone _ hg] at hc
      cases hc
    · exact (h.keeps _ hg).symm.trans hc
  · exact (h.edit.others ho hf hn hnf).keeps_back

theorem trans (h : Sheds f F G s s') (h' : Sheds f F' G' s' s'') (ho : Owned s) (hf : File s f)
    (hFG : ∀ w, F' w → G w → F w) :
    Sheds f (fun w => F w ∨ F' w) (fun w => G w ∨ G' w) s s'' := by
  have hres : s'.reserved = s.reserved := by
    unfold reserved
    rw [h.sNblocks]
  refine ⟨h'.owned, h.edit.trans (h'.edit.mono fun a ha => ?_), h'.sNblocks.trans h.sNblocks,
    fun c hc => ?_, fun c => ?_,
    fun w hw => ?_, fun w hw => ?_, h'.dir.trans h.dir, h'.size.trans h.size,
    fun e he => h.file_back e (h'.file_back e he), fun e he => ?_, fun hnone => ?_⟩
  · refine ha.imp (fun ha => ⟨ha.1, hres ▸ ha.2⟩) fun ha => ha.imp_right ?_
    rintro ⟨b, hb, rfl⟩
    by_cases hg : G .indirect
    · exact absurd ((h.gone _ hg).symm.trans hb) (Option.some_ne_none _).symm
    · exact ⟨_, (h.keeps _ hg).symm.trans hb, rfl⟩
  · rcases h'.read c hc with hc | hc
    · exact h.read c hc
    · refine .inr (Bool.eq_false_iff.2 fun hfree => ?_)
      rw [(h.free c).2 (.inl hfree)] at hc
      cases hc
  · rw [h'.free, h.free, or_assoc]
    refine or_congr_right ⟨?_, ?_⟩
    · rintro (⟨w, hw, hc⟩ | ⟨w, hw, hc⟩)
      · exact ⟨w, .inl hw, hc⟩
      · by_cases hg : G w
        · rw [h.gone w hg] at hc
          cases hc
        · exact ⟨w, .inr hw, (h.keeps w hg).symm.trans hc⟩
    · rintro ⟨w, hw, hc⟩
      by_cases hg : G w
      · exact .inl ⟨w, hw.elim id fun hw => hFG w hw hg, hc⟩
      · exact hw.elim (fun hw => .inl ⟨w, hw, hc⟩) fun hw => .inr ⟨w, hw, (h.keeps w hg).trans hc⟩
  · by_cases hg' : G' w
    · exact h'.gone w hg'
    · rw [h'.keeps w hg', h.gone w (hw.resolve_right hg')]
  · rw [h'.keeps w fun hg => hw (.inr hg), h.keeps w fun hg => hw (.inl hg)]
  · rcases h.file e he with he | he
    · exact (h'.file e he).imp_right fun hb => (Volume.below_back (fun n hn => h.keeps_back ho hf hn) hf hb).1
    · exact .inr he
  · refine (h.idle fun w hw => hnone w (.inl hw)).trans (h'.idle fun w hw => ?_)
    by_cases hg : G w
    · exact h.gone w hg
    · exact (h.keeps w hg).trans (hnone w (.inr hw))

end Sheds

theorem Sheds.file_self {F G : Use → Prop} (h : Sheds f F G s s') (ho : Owned s) (hf : File s f) : File s' f :=
  (h.file f hf).resolve_right (ho.not_below hf)

theorem goes_block : Goes (.block i) w ↔ w = .block i :=
  ⟨fun h => h.elim id fun h => Use.noConfusion h.1, .inl⟩

theorem Fs.Walkable.congr (hind : s'.indirect f = s.indirect f) (hm : s'.mapped = s.mapped) (hp : s'.pages = s.pages) :
    s'.Walkable f j ↔ s.Walkable f j := by
  unfold Walkable Readable
  rw [hind, hm, hp]

/-- **`file_clear_block`**, where the slot can be got to. -/
theorem fileClearBlock_walkable (ho : Owned s) (hf : File s f) (hheld : Held s f) (h : s.Walkable f i) :
    ∃ s', fileClearBlock f i s = some (.ok (), s') ∧ Sheds f (· = .block i) (· = .block i) s s' ∧
      ∀ j, s'.Walkable f j ↔ s.Walkable f j := by
  obtain ⟨a, s₁, hwalk, hq, hslot, hm, hwalkable⟩ := @fileBlockWalk_walkable _ _ _ false ho hf hheld h
  have hs := hq.still ho
  have hf₁ := (hs.file f).2 hf
  have hsheds := Sheds.of_quiet hq ho hf
  have hslot₁ : s₁.slotWord f (.block i) = some a :=
    (slotWord_congr (congrFun (hs.agree hf).holds .indirect) (.block i)).trans hslot
  have hat : s₁.vol.holds f (.block i) = if s₁.mem a = 0 then none else some (s₁.mem a).toNat := by
    rw [holds_eq, hslot₁, Option.bind_some, ← mem_eq_view hm]
  unfold fileClearBlock
  rw [bind_of_ok hwalk, bind_of_ok (show loadWord a s₁ = some (.ok (s₁.mem a), s₁) from rfl)]
  by_cases h0 : s₁.mem a = 0
  · rw [if_pos h0]
    refine ⟨s₁, rfl, ?_, hwalkable⟩
    refine (hsheds.trans (.of_empty hs.owned hf₁ (hat.trans (if_pos h0))) ho hf fun _ _ => False.elim).congr
      (fun w => ?_) fun w => ?_
    · exact (or_iff_right id).symm
    · exact (or_iff_right id).trans goes_block |>.symm
  · rw [if_neg h0] at hat ⊢
    have hd : Data s₁ (s₁.mem a).toNat := hs.owned.vol.used f (.block i) _ hf₁ hat
    have hne : (s₁.mem a).toNat ≠ 0 :=
      Nat.ne_of_gt (Nat.lt_of_lt_of_le (by decide) (Nat.le_trans (reserved_ge s₁) hd.le))
    have hdet := hs.owned.detach hf₁ hslot₁ hm hat
    refine ⟨_, bind_of_ok (freeBlock_eq hne hd.lt), ?_, fun j => ?_⟩
    · refine (hsheds.trans (.of_detached hdet hs.owned hf₁) ho hf fun _ _ => False.elim).congr (fun w => ?_) fun w => ?_
      · exact (or_iff_right id).symm
      · exact (or_iff_right id).trans goes_block |>.symm
    · refine (Walkable.congr ?_ hdet.mapped hdet.pages).trans (hwalkable j)
      exact hdet.holds .indirect fun hg => Use.noConfusion (goes_block.1 hg)

/-- **Where it cannot, there is a code.** -/
theorem fileClearBlock_stuck (ho : Owned s) (hf : File s f) (hheld : Held s f) (h : ¬s.Walkable f i) :
    ∃ e s', fileClearBlock f i s = some (.error e, s') := by
  obtain ⟨e, s', hwalk, -⟩ := fileBlockWalk_stuck ho hf hheld h
  exact ⟨e, s', bind_of_error hwalk⟩

/-- **The loop of `file_truncate`** empties the slots it goes over. -/
theorem fileClearBlocks_walkable (bnos : List Nat) : ∀ s, Owned s → File s f → Held s f → (∀ i ∈ bnos, s.Walkable f i) →
    ∃ s', fileClearBlocks f bnos s = some (.ok (), s') ∧
      Sheds f (fun w => ∃ i ∈ bnos, w = .block i) (fun w => ∃ i ∈ bnos, w = .block i) s s' := by
  induction bnos with
  | nil =>
    intro s ho hf _ _
    refine ⟨s, rfl, (Sheds.of_quiet (.refl s) ho hf).congr (fun w => ?_) fun w => ?_⟩ <;> simp
  | cons i bnos ih =>
    intro s ho hf hheld hall
    obtain ⟨s₁, hrun, hsheds, hw⟩ := fileClearBlock_walkable ho hf hheld (hall i List.mem_cons_self)
    have hf₁ := hsheds.file_self ho hf
    obtain ⟨s₂, hrun₂, hsheds₂⟩ := ih s₁ hsheds.owned hf₁ (hsheds.edit.held hheld) fun j hj =>
      (hw j).2 (hall j (List.mem_cons_of_mem i hj))
    refine ⟨s₂, ?_, ?_⟩
    · unfold fileClearBlocks
      rw [bind_of_ok (show orPanic (fileClearBlock f i) s = some (.ok (), s₁) by unfold orPanic; rw [hrun]; rfl)]
      exact hrun₂
    · refine (hsheds.trans hsheds₂ ho hf fun _ _ hg => hg).congr (fun w => ?_) fun w => ?_ <;> simp

/-- **It panics** where one of them cannot be got to. -/
theorem fileClearBlocks_stuck (bnos : List Nat) : ∀ s, Owned s → File s f → Held s f → (∃ i ∈ bnos, ¬s.Walkable f i) →
    fileClearBlocks f bnos s = none := by
  induction bnos with
  | nil =>
    rintro s _ _ _ ⟨i, hi, -⟩
    cases hi
  | cons i bnos ih =>
    intro s ho hf hheld hstuck
    unfold fileClearBlocks
    by_cases hi : s.Walkable f i
    · obtain ⟨s₁, hrun, hsheds, hw⟩ := fileClearBlock_walkable ho hf hheld hi
      rw [bind_of_ok (show orPanic (fileClearBlock f i) s = some (.ok (), s₁) by unfold orPanic; rw [hrun]; rfl)]
      refine ih s₁ hsheds.owned (hsheds.file_self ho hf) (hsheds.edit.held hheld) ?_
      obtain ⟨j, hj, hnot⟩ := hstuck
      rcases List.mem_cons.1 hj with rfl | hj
      · exact absurd hi hnot
      · exact ⟨j, hj, fun h => hnot ((hw j).1 h)⟩
    · obtain ⟨e, s', hrun⟩ := fileClearBlock_stuck ho hf hheld hi
      rw [bind_run]
      unfold orPanic
      rw [hrun]
      rfl

end Mos
