import Mos.FsMake
/-!
# FsStays — what the requests leave of the volume

Each function that a request calls keeps the volume.  Reading, flushing and closing leave all of it; a block may come
to a file, and a name to an entry; an empty file may become a directory.  Only a directory that gets another size
loses files: those below it.
-/
namespace Mos

open Fallible FilePtr Fs

variable {s s' s'' : Fs} {d e f i : Nat}

/-! ## Requests that read -/

theorem syncBlocks_quiet (bs : List Nat) : ∀ s, Owned s → ∃ s', syncBlocks bs s = some (.ok (), s') ∧ Quiet s s' := by
  induction bs with
  | nil => exact fun s _ => ⟨s, rfl, .refl s⟩
  | cons b bs ih =>
    intro s ho
    unfold syncBlocks
    simp only [bind_read, id_eq]
    by_cases hb : (s.mapped b && s.dirty b) = true
    · obtain ⟨s₁, hw, hq⟩ := writeBlock_quiet (Bool.and_eq_true_iff.1 hb).1
      obtain ⟨s₂, hrun, hq₂⟩ := ih s₁ (hq.still ho).owned
      rw [if_pos hb]
      exact ⟨s₂, (bind_of_ok hw).trans hrun, hq.trans hq₂ ho⟩
    · rw [if_neg hb]
      exact ih s ho

/-- **`fs_sync`** -/
theorem fsSync_quiet (ho : Owned s) : ∃ s', fsSync s = some (.ok (), s') ∧ Quiet s s' := syncBlocks_quiet _ s ho

theorem dirtyBlock_quiet (b : Nat) (s : Fs) : ∃ r s', dirtyBlock b s = some (r, s') ∧ Quiet s s' := by
  unfold dirtyBlock
  simp only [bind_read, id_eq]
  by_cases hm : (!s.mapped b) = true
  · rw [if_pos hm]
    exact ⟨_, s, rfl, .refl s⟩
  · rw [if_neg hm]
    refine ⟨_, _, rfl, ⟨fun _ _ => rfl, fun a _ hs => hs.imp (fun hm => ⟨hm.1, ?_⟩) id, fun _ h => h, rfl, rfl,
      List.suffix_refl _⟩,
      fun _ => .inl⟩
    by_cases hab : a / blockWords = b
    · subst hab
      exact Function.update_self _ _ _
    · exact (Function.update_of_ne hab _ _).trans hm.2

/-- **`file_dirty`** -/
theorem fileDirty_quiet (ho : Owned s) (hf : File s f) (hheld : Held s f) (offset : Word) :
    ∃ r s', fileDirty f offset s = some (r, s') ∧ Quiet s s' := by
  obtain ⟨r, s₁, hmap, hq⟩ := fileMapBlock_keep ho hf hheld (offset.toNat / blockSize)
  unfold fileDirty
  cases r with
  | error e => exact ⟨_, s₁, bind_of_error hmap, hq⟩
  | ok b =>
    obtain ⟨r, s₂, hdirty, hq₂⟩ := dirtyBlock_quiet b s₁
    exact ⟨r, s₂, (bind_of_ok hmap).trans hdirty, hq.trans hq₂ ho⟩

theorem flushBoth_quiet (h : Kept s) (hf : File s f) (hheld : Held s f) :
    ∃ s', (fileFlush f >>= fun _ => flushDir f) s = some (.ok (), s') ∧ Quiet s s' := by
  obtain ⟨s₁, hflush, hq⟩ := fileFlush_quiet h.toOwned hf hheld
  have hk₁ := h.quiet hq
  have hstill := hq.still h.toOwned
  obtain ⟨s₂, hdir, hq₂⟩ := flushDir_quiet hk₁.toOwned (hq.held hheld)
    ((hk₁.linked ((hstill.file f).2 hf)).flushable hk₁.toOwned ((hstill.file f).2 hf) rfl (fun _ => .inl) fun _ => id)
  exact ⟨s₂, (bind_of_ok hflush).trans hdir, hq.trans hq₂ h.toOwned⟩

/-- **`file_close`** -/
theorem fileClose_quiet (h : Kept s) (hf : File s f) (hheld : Held s f) :
    ∃ s', fileClose f s = some (.ok (), s') ∧ Quiet s s' :=
  flushBoth_quiet h hf hheld

/-! ## A block -/

/-- **`file_get_block`** for a file that is no directory, or for a block that the directory has. -/
theorem fileGetBlock_stays (h : Kept s) (hf : File s f) (hheld : Held s f) (hdir : s.IsDir f → i < s.nblocks f)
    (hclean : nDirect ≤ i → s.indirect f = none → s.Clean 1) :
    ∃ r s', fileGetBlock f i s = some (r, s') ∧ Stays s s' := by
  by_cases hd : s.IsDir f
  · obtain ⟨b, hb⟩ := Option.isSome_iff_exists.1 ((h.blockAt_iff hf hd).1 (hdir hd))
    have hdata := h.toOwned.data_block hf hb
    obtain ⟨r, s', hget, hl, -⟩ := fileGetBlock_spec hheld hb hdata h.up fun c _ hc => h.toOwned.data_indirect hf hc
    refine ⟨r, s', hget, h.stays_quiet (.of_loads hl fun c hc => ?_)⟩
    rcases hc with hc | ⟨-, hc⟩
    · exact (h.toOwned.data_block hf hc).used
    · exact (h.toOwned.data_indirect hf hc).used
  · obtain ⟨r, s', hget, hext, -⟩ := fileGetBlock_alloc h.toOwned hf hheld hclean fun hg => absurd hg.1 hd
    exact ⟨r, s', hget, h.extends hf hd hext, hext.file, hext.edit.mapped⟩

/-- The words that may change where a file gets the block `i`: none where it has one, and the slots and the bitmap
where a page is refused. -/
def Fs.Getting (s s' : Fs) (f i a : Nat) : Prop :=
  s.blockAt f i = none ∧ (s.Gets f i a ∨ (¬Calm s s' ∧ (s.InBitmap a ∨ s.InSlots f a)))

theorem fileGetBlock_saves (h : Kept s) (hf : File s f) (hheld : Held s f) (hdir : s.IsDir f → i < s.nblocks f)
    (hclean : nDirect ≤ i → s.indirect f = none → s.Clean 1) {r : Except Int Nat}
    (hrun : fileGetBlock f i s = some (r, s')) :
    Saves (s.Getting s' f i) s s' := by
  have ho := h.toOwned
  cases hb : s.blockAt f i with
  | some b =>
    obtain ⟨r', s₁, hget, hl, -⟩ := fileGetBlock_spec hheld hb (ho.data_block hf hb) h.up fun c _ hc =>
        ho.data_indirect hf hc
    cases hrun.symm.trans hget
    exact (Saves.of_edit (W := fun _ => False) (.of_loads hl) fun _ => False.elim).mono fun _ => False.elim
  | none =>
    have hreg : ¬s.IsDir f := fun hd => by
      have hsome := (h.blockAt_iff hf hd).1 (hdir hd)
      rw [hb] at hsome
      cases hsome
    obtain ⟨r', s₁, hget, hext, -⟩ := fileGetBlock_alloc ho hf hheld hclean fun hg => absurd hg.1 hreg
    cases hrun.symm.trans hget
    by_cases hc : Calm s s'
    · exact (hext.saves ho hf hc).mono fun a ha => ⟨hb, .inl ha⟩
    · refine (Saves.of_edit hext.edit ?_).mono ?_
      · rintro a (hbit | ⟨hfree, -⟩ | hslot)
        · exact above_of_block hbit.1
        · exact ho.free_above hfree
        · exact ho.slots_above hf hslot
      · rintro a (hbit | ⟨hfree, -⟩ | hslot)
        · exact ⟨hb, .inr ⟨hc, .inl hbit⟩⟩
        · exact ⟨hb, .inl (.inl hfree)⟩
        · exact ⟨hb, .inr ⟨hc, .inr hslot⟩⟩

/-! ## Another size -/

theorem below_start (h : s.vol.Below Inside f e) : s.IsDir f ∧ 0 < s.nblocks f := by
  induction h with
  | entry i b e hd hi _ _ => exact ⟨hd, Nat.lt_of_le_of_lt (Nat.zero_le i) hi⟩
  | next d i b e _ _ _ _ _ ih => exact ih

/-- **`file_set_size`** keeps the volume: a directory gets no size but 0. -/
theorem fileSetSize_cuts {n : Word} (h : Kept s) (hf : File s f) (hheld : Held s f)
    (htrim : n < s.view (fSize f) → s.Trims f n) (hz : s.IsDir f → n = 0) :
    ∃ s', fileSetSize f n s = some (.ok (), s') ∧ Cutdown f s s' ∧ s'.view (fSize f) = n := by
  obtain ⟨s', hrun, hr⟩ := fileSetSize_resizes h.toSound hf hheld (h.linked hf) htrim
  exact ⟨s', hrun, h.resized hf hz hr, hr.size⟩

/-- **A file has nothing in it**: its size is 0, and it has no block. -/
structure Fs.Bare (s : Fs) (f : Nat) : Prop where
  size : s.view (fSize f) = 0
  slots : ∀ k, 34 ≤ k → k < 45 → s.view (f + k) = 0

theorem Fs.Bare.nblocks (h : Bare s f) : s.nblocks f = 0 := by
  unfold Fs.nblocks
  rw [h.size]
  rfl

theorem Fs.Bare.holds (h : Bare s f) (w : Use) : s.vol.holds f w = none := by
  have hind : s.indirect f = none := if_pos (h.slots 44 (by decide) (by decide))
  cases w with
  | indirect => exact hind
  | block i =>
    by_cases hi : i < nDirect
    · have hz : s.view (f + (34 + i)) = 0 :=
        h.slots (34 + i) (Nat.le_add_right 34 i) (Nat.add_lt_add_left (show i < 11 from Nat.lt_succ_of_lt hi) 34)
      rw [← Nat.add_assoc] at hz
      show s.blockAt f i = none
      unfold blockAt slot
      rw [if_pos hi, Option.bind_some]
      exact if_pos hz
    · exact holds_indirect_none hind (.inr ⟨rfl, i, Nat.not_lt.1 hi, rfl⟩)

theorem Fs.Bare.congr (h : Bare s f) (hview : ∀ k, 32 ≤ k → k < 45 → k ≠ 33 → s'.view (f + k) = s.view (f + k)) :
    Bare s' f :=
  ⟨(hview 32 (by decide) (by decide) (by decide)).trans h.size, fun k h34 h45 =>
    (hview k (by omega) h45 (by omega)).trans (h.slots k h34 h45)⟩

theorem Fs.Cutdown.stays (hc : Cutdown f s s') (h : Kept s) (hf : File s f) (hno : s.IsDir f → Bare s f) :
    Stays s s' := by
  refine ⟨h.cut hf hc, fun e he => (hc.file e he).resolve_right fun hb => ?_, hc.edit.mapped⟩
  obtain ⟨hd, hpos⟩ := below_start hb
  rw [(hno hd).nblocks] at hpos
  exact Nat.lt_irrefl 0 hpos

/-- **The loop of `file_truncate` gets to all its slots**, as far as the blocks go. -/
def Fs.Cuts (s : Fs) (f : Nat) (n : Word) : Prop :=
  ∀ i, nblocksOf n ≤ i → i < nblocksOf (s.view (fSize f)) → i < nDirect ∨ (i < nIndirect ∧ (s.indirect f).isSome)

theorem Fs.Cuts.trims {n : Word} (h : s.Cuts f n) (hp : false ∉ s.pages) : s.Trims f n := by
  intro i hn hi
  refine (h i hn hi).imp_right fun ⟨hlt, hsome⟩ => ⟨hlt, ?_⟩
  obtain ⟨b, hb⟩ := Option.isSome_iff_exists.1 hsome
  refine ⟨b, hb, .inr ?_⟩
  cases hpages : s.pages with
  | nil => rfl
  | cons p ps =>
    rw [hpages] at hp
    cases p with
    | true => rfl
    | false => exact absurd List.mem_cons_self hp

theorem Fs.Cuts.congr {n : Word} (h : s.Cuts f n) (hview : ∀ k, 32 ≤ k → k < 45 → s'.view (f + k) = s.view (f + k)) :
    s'.Cuts f n := by
  unfold Fs.Cuts
  rw [show s'.view (fSize f) = s.view (fSize f) from hview 32 (by decide) (by decide),
    show s'.indirect f = s.indirect f from indirect_congr (hview 44 (by decide) (by decide))]
  exact h

theorem putByte_name (m : Nat → Word) {a : Nat} (ha : a ≠ f) : putByte m (4 * f) 0 a = m a := by
  unfold putByte
  rw [Nat.mul_div_cancel_left f (by decide), Function.update_of_ne ha]

theorem walked_file {path : List (BitVec 8)} {w : Walked} {dirs : List Nat}
    (hw : w = s.resolve none sRoot (components path) ∨ Starved s dirs w) (hpf : w.pfile = some f) :
    ∃ p, s.resolve none sRoot (components path) = ⟨0, p, some f, []⟩ ∧ Object s f := by
  rcases hw with rfl | ⟨rfl, -⟩
  · rcases path_cases s path with ⟨p, x, hr, hobj⟩ | ⟨d, name, hr, -⟩ | hr | hr
    · rw [hr] at hpf
      cases hpf
      exact ⟨p, hr, hobj⟩
    all_goals
      rw [hr] at hpf
      cases hpf
  · cases hpf

/-- **A file is cut to nothing** (`t`), **loses its name** (`u`), and is flushed. -/
structure Fs.Clears (f : Nat) (s t u s' : Fs) : Prop where
  sheds : Sheds f (CutFree 0 (nblocksOf (s.view (fSize f)))) (CutGone 0 (nblocksOf (s.view (fSize f)))) s t
  cut : Cutdown f s (t.put (fSize f) 0)
  size : (t.put (fSize f) 0).view (fSize f) = 0
  unname : Edit (· = f) (t.put (fSize f) 0) u
  still : Still (t.put (fSize f) 0) u
  kept : Kept u
  quiet : Quiet u s'
  held : Held s f

/-- The words that may change where a file is cleared. -/
def Fs.Clearing (s : Fs) (f a : Nat) : Prop := s.Cutting f 0 (CutGone 0 (nblocksOf (s.view (fSize f)))) a ∨ a = f

theorem Fs.Clears.saves {t u : Fs} (h : Clears f s t u s') (ho : Owned s) (hf : File s f) :
    Saves (s.Clearing f) s s' := by
  have hsize : Edit (fun a => a = fSize f ∧ 0 ≠ s.view (fSize f)) t (t.put (fSize f) 0) := by
    rw [← h.sheds.size]
    exact put_changes (h.sheds.edit.held h.held 32 (by decide)) 0
  have hcut : Saves (s.Cutting f 0 (CutGone 0 (nblocksOf (s.view (fSize f))))) s (t.put (fSize f) 0) := by
    refine .of_edit (.trans ?_ (hsize.mono fun a => .inl)) fun a => ho.cutting_above hf
    by_cases hsome : ∃ w b, CutGone 0 (nblocksOf (s.view (fSize f))) w ∧ s.vol.holds f w = some b
    · exact h.sheds.edit.mono fun a ha => .inr ⟨hsome, ha⟩
    · refine (h.sheds.idle fun w hw => ?_).mono fun a => False.elim
      cases hb : s.vol.holds f w with
      | none => rfl
      | some b => exact absurd ⟨w, b, hw, hb⟩ hsome
  refine (hcut.mono fun a => .inl).trans (((Saves.of_edit h.unname ?_).mono fun a => .inr).trans ?_)
  · rintro a rfl
    exact ho.file_above hf 0
  · exact (Saves.of_edit h.quiet.edit fun _ => False.elim).mono fun _ => False.elim

/-- **`file_remove`**, where `file_truncate` gets to the blocks: the walk, and then the file that it has found. -/
theorem fileRemove_cases {path : List (BitVec 8)} (h : Kept s) (h0 : (0 : BitVec 8) ∉ path)
    (hcuts : ∀ p f, s.resolve none sRoot (components path) = ⟨0, p, some f, []⟩ → s.Cuts f 0 ∧ false ∉ s.pages) :
    ∃ r s₁ s', fileRemove path s = some (r, s') ∧ Passes (· ∈ s.passed sRoot (components path)) s s₁ ∧
      (s' = s₁ ∨ ∃ p f t u, s.resolve none sRoot (components path) = ⟨0, p, some f, []⟩ ∧ Object s f ∧
        Clears f s₁ t u s') := by
  obtain ⟨w, s₁, hwalk, hp, harr, hw⟩ := walkPath_spec h.tree h0
  unfold fileRemove
  rw [bind_of_ok hwalk]
  cases hpf : w.pfile with
  | none => exact ⟨_, s₁, s₁, rfl, hp, .inl rfl⟩
  | some f =>
    obtain ⟨p, hr, hobj⟩ := walked_file hw hpf
    obtain ⟨hcut, hpages⟩ := hcuts p f hr
    have hf := hobj.file
    have hstays := h.stays_passes hp walk_entry
    have hk₁ := hstays.kept
    have hf₁ := hstays.file f hf
    have hheld : Held s₁ f := (harr.file f hpf).held
    have htrims : s₁.Trims f 0 := (hcut.congr fun k h32 h45 =>
      passes_word h hp walk_entry hf (Nat.lt_trans h45 (by decide)) (Nat.ne_of_lt h45)).trims fun hc =>
        hpages (hp.pages.mem hc)
    obtain ⟨t, hrun, hsheds⟩ := fileTruncate_trims hk₁.toOwned hf₁ hheld htrims
    rw [nblocksOf_zero] at hsheds
    have hcutdown := hk₁.shed hf₁ hheld hsheds
    have hk₂ := hk₁.cut hf₁ hcutdown
    have hf₂ := hcutdown.file_self hk₁.toOwned hf₁
    have hheld₂ : Held (t.put (fSize f) 0) f := hcutdown.edit.held hheld
    have hsize : (t.put (fSize f) 0).view (fSize f) = 0 :=
      (put_view (hsheds.edit.held hheld 32 (by decide))).trans (if_pos rfl)
    have hedit : Edit (· = f) (t.put (fSize f) 0)
        { t.put (fSize f) 0 with mem := putByte (t.put (fSize f) 0).mem (4 * f) 0 } := by
      refine .of_same rfl rfl rfl rfl (List.suffix_refl _) (fun a ha => ?_) fun _ _ _ => rfl
      simp only [view]
      rw [putByte_name _ ha]
    obtain ⟨hk₃, hstill⟩ := hk₂.field hf₂ hedit fun a ha => ⟨0, by decide, ha, .inl (by decide)⟩
    obtain ⟨s', hflush, hq⟩ := flushBoth_quiet hk₃ ((hstill.file f).2 hf₂) (hedit.held hheld₂)
    exact ⟨_, s₁, s', (bind_of_ok hrun).trans ((bind_of_ok rfl).trans hflush), hp,
      .inr ⟨p, f, t, _, hr, hobj, hsheds, hcutdown, hsize, hedit, hstill, hk₃, hq, hheld⟩⟩

/-- **What `file_remove` removes**: what is below the file goes with it. -/
structure Fs.Removes (path : List (BitVec 8)) (s s' : Fs) : Prop where
  kept : Kept s'
  file : ∀ e, File s e → File s' e ∨ ∃ p f, s.resolve none sRoot (components path) = ⟨0, p, some f, []⟩ ∧
    s.vol.Below Inside f e
  maps : ∀ b, s.mapped b = true → s'.mapped b = true

theorem fileRemove_removes {path : List (BitVec 8)} (h : Kept s) (h0 : (0 : BitVec 8) ∉ path)
    (hcuts : ∀ p f, s.resolve none sRoot (components path) = ⟨0, p, some f, []⟩ → s.Cuts f 0 ∧ false ∉ s.pages) :
    ∃ r s', fileRemove path s = some (r, s') ∧ Removes path s s' := by
  obtain ⟨r, s₁, s', hrun, hp, hres⟩ := fileRemove_cases h h0 hcuts
  have hstays := h.stays_passes hp walk_entry
  refine ⟨r, s', hrun, ?_⟩
  rcases hres with rfl | ⟨p, f, t, u, hr, hobj, hclear⟩
  · exact ⟨hstays.kept, fun e he => .inl (hstays.file e he), hstays.maps⟩
  · have hback := hclear.kept.stays_quiet hclear.quiet
    refine ⟨hback.kept, fun e he => ?_, fun b hb =>
      hback.maps b (hclear.unname.mapped b (hclear.cut.edit.mapped b (hstays.maps b hb)))⟩
    rcases hclear.cut.file e (hstays.file e he) with he₂ | hbelow
    · exact .inl (hback.file e ((hclear.still.file e).2 he₂))
    · refine .inr ⟨p, f, hr, (Volume.below_back (fun m hm => ?_) hobj.file hbelow).1⟩
      exact ((h.passes hp walk_entry).2.agree hm).keeps_back

theorem Fs.Clears.same {t u : Fs} (h : Clears f s t u s') (ho : Owned s) (hf : File s f) (he : File s e) (hef : e ≠ f) :
    SameFile e s u := by
  have hboth : Edit (fun a => (s.InBitmap a ∨ s.InSlots f a ∨ a = fSize f) ∨ a = f) s u :=
    (h.cut.edit.mono fun a ha => .inl ha).trans (h.unname.mono fun a ha => .inr ha)
  refine hboth.same ho he ?_
  rintro a ((hw | hw | hw) | hw)
  · exact .inl hw
  · exact .inr (.inr (.inl ⟨f, hf, hef.symm, .inl hw⟩))
  · exact .inr (.inr (.inl ⟨f, hf, hef.symm, .inr ⟨32, by decide, hw⟩⟩))
  · exact .inr (.inr (.inl ⟨f, hf, hef.symm, .inr ⟨0, by decide, hw⟩⟩))

/-! ## A directory -/

theorem putDir_quiet (hheld : Held s f) (hd : s.IsDir f) : Quiet s (s.put (fType f) ftypeDir) :=
  ⟨put_same (hheld 33 (by decide)) hd, fun _ => .inl⟩

/-- **An empty file becomes a directory.** -/
theorem makeDir_stays (h : Kept s) (hf : File s f) (hheld : Held s f) (hbare : s.IsDir f ∨ Bare s f) :
    Stays s (s.put (fType f) ftypeDir) := by
  have ho := h.toOwned
  have hm : s.mapped (fType f / blockWords) = true := hheld 33 (by decide)
  have hedit : Edit (· = fType f) s (s.put (fType f) ftypeDir) := put_edit ftypeDir
  rcases hbare with hd | hbare
  · exact h.stays_quiet (putDir_quiet hheld hd)
  · have htouch : Touches s f (fType f) := .inl ⟨33, by decide, by decide, rfl⟩
    obtain ⟨hn, hfree⟩ := put_free ftypeDir (ho.touches_ne_super hf htouch) (ho.touches_ne hf htouch).1
    have hothers : ∀ e, File s e → e ≠ f → s.vol.Agree (s.put (fType f) ftypeDir).vol e := fun e he hef =>
      agree_of_view fun a ha => hedit.view a fun hc => hef (ho.touches_sole he hf ha (hc ▸ htouch))
    have hholds : (s.put (fType f) ftypeDir).vol.holds f = s.vol.holds f := hedit.same_holds ho hf (by decide)
    have hsize : (s.put (fType f) ftypeDir).view (fSize f) = s.view (fSize f) :=
      hedit.view _ fun hc => absurd (Nat.add_left_cancel hc) (by decide)
    have hcount : (s.put (fType f) ftypeDir).nblocks f = 0 := by
      unfold nblocks
      rw [hsize, hbare.size]
      rfl
    have hview : ∀ e, File s e → ∀ k < fileWords, k ≠ 33 → (s.put (fType f) ftypeDir).view (e + k) =
        s.view (e + k) := by
      intro e he k hk hne
      refine hedit.view _ fun heq => hne ?_
      obtain rfl := ho.word_sole he hf hk (show 33 < fileWords by decide) heq
      exact Nat.add_left_cancel heq
    generalize s.put (fType f) ftypeDir = s₁ at *
    have hback : ∀ e, File s₁ e → File s e := by
      intro e he
      induction he with
      | root => exact .root
      | entry x i b e _ hdir hi hb hin ih =>
        by_cases hxf : x = f
        · subst hxf
          have hi : i < s₁.nblocks x := hi
          rw [hcount] at hi
          exact absurd hi (Nat.not_lt_zero i)
        · have hag := hothers x ih hxf
          exact .entry x i b e ih (hag.dir.1 hdir) (Nat.lt_of_lt_of_eq hi hag.count)
            ((congrFun hag.holds (.block i)).symm.trans hb) hin
    have hfile : ∀ e, File s e → File s₁ e := by
      intro e he
      induction he with
      | root => exact .root
      | entry x i b e hx hdir hi hb hin ih =>
        by_cases hxf : x = f
        · subst hxf
          exact absurd hb (by rw [hbare.holds]; exact fun hc => by cases hc)
        · have hag := hothers x hx hxf
          exact .entry x i b e ih (hag.dir.2 hdir) (Nat.lt_of_lt_of_eq hi hag.count.symm)
            ((congrFun hag.holds (.block i)).trans hb) hin
    have hnone : ∀ w, s₁.vol.holds f w = none := fun w => (congrFun hholds w).trans (hbare.holds w)
    have hold : ∀ m w c, File s₁ m → s₁.vol.holds m w = some c → File s m ∧ s.vol.holds m w = some c := by
      intro m w c hm hc
      have hms := hback m hm
      by_cases hmf : m = f
      · subst hmf
        rw [hnone] at hc
        cases hc
      · rw [(hothers m hms hmf).holds] at hc
        exact ⟨hms, hc⟩
    have hr : s₁.reserved = s.reserved := by
      unfold reserved
      rw [hn]
    have hdirs : ∀ x, File s₁ x → s₁.IsDir x → x ≠ f → File s x ∧ s.vol.Agree s₁.vol x ∧ s.IsDir x :=
      fun x hx hdir hxf =>
      have hag := hothers x (hback x hx) hxf
      ⟨hback x hx, hag, hag.dir.1 hdir⟩
    have hsound : Sound s₁ := by
      refine ⟨⟨hedit.up hn ho.up, hn ▸ ho.small, fun c hc => (hfree c).trans (ho.low c (hr ▸ hc)),
        ho.vol.step (x := f) (T := fun _ _ => False) (fun m w c hm hc => .inl (hold m w c hm hc))
          (fun _ _ _ hc => hc.elim)
          (fun _ _ hc => hc.elim) fun m w c hm hc => ?_⟩, fun x hx hdir i => ?_, fun x hx hdir => ?_⟩
      · obtain ⟨hm, hc⟩ := hold m w c hm hc
        have hd : Data s c := ho.vol.used m w c hm hc
        exact hd.of_free hn ((hfree c).trans hd.used)
      · by_cases hxf : x = f
        · subst hxf
          show i < s₁.nblocks x ↔ _
          rw [hcount, hnone]
          exact ⟨fun hc => absurd hc (Nat.not_lt_zero i), fun hc => by cases hc⟩
        · obtain ⟨hxs, hag, hd⟩ := hdirs x hx hdir hxf
          rw [hag.count, hag.holds]
          exact h.whole x hxs hd i
      · by_cases hxf : x = f
        · subst hxf
          rw [hcount, hsize, hbare.size]
          rfl
        · obtain ⟨hxs, hag, hd⟩ := hdirs x hx hdir hxf
          have hc : s₁.nblocks x = s.nblocks x := hag.count
          rw [show s₁.view (fSize x) = s.view (fSize x) from hview x hxs 32 (by decide) (by decide), hc]
          exact h.round x hxs hd
    refine ⟨h.back hsound hedit.mapped (hview _ .root 45 (by decide) (by decide)) fun x i b e hx hdir hb hin => ?_,
      hfile, hedit.mapped⟩
    by_cases hxf : x = f
    · subst hxf
      have hb : s₁.vol.holds x (.block i) = some b := hb
      rw [hnone] at hb
      cases hb
    · obtain ⟨hxs, hag, -⟩ := hdirs x hx hdir hxf
      obtain ⟨hd, hbs, he⟩ := agree_links h hag hxs hdir hb hin
      exact .inr (.inr ⟨hxs, hd, hbs, hview e he 45 (by decide) (by decide)⟩)

end Mos
