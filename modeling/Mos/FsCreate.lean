import Mos.FsKept
/-!
# FsCreate — a directory gets an entry

`dir_alloc_file` takes the first entry without a name, or the first one of a new block.  It has grown the size of the
directory by then, so that a block that cannot be got leaves a directory without its last block; what a new block has in
it is what its page had.
-/
namespace Mos

open Fallible FilePtr Fs

namespace Fs

def nobody : Nat → Prop := fun _ => False

/-- The first entry of a directory that has no name. -/
def freeEntry (s : Fs) (d : Nat) : Option Nat := (s.listing d).find? fun f => fName s.view f 0 == 0

variable {s s' s'' : Fs} {d e f b i : Nat}

theorem not_nobody {p : Nat → Prop} : ∀ f, nobody f → p f := fun _ => False.elim

theorem fName_mem (h : s.mapped (f / blockWords) = true) : fName s.mem f 0 = fName s.view f 0 := by
  unfold fName byteAt
  rw [Nat.add_zero, Nat.mul_div_cancel_left f (by decide), mem_eq_view h]

theorem held_of_block (hm : s.mapped b = true) (hf : f ∈ entries (diskAddr b)) : Held s f := by
  obtain ⟨j, hj, rfl⟩ := mem_entries.1 hf
  intro k hk
  rw [Nat.add_assoc, diskAddr_div b (Entry.lt_block hj hk)]
  exact hm

theorem blockOfDir_used (ht : Tree s) (hd : Dir s d) : ∀ c, s.BlockOfDir d c → s.blockIsFree c = false :=
  fun _ hc => (ht.blockOfDir hd hc).used

end Fs

variable {s s' s'' : Fs} {d e f b i : Nat}

/-- **The search for a free entry**, from one of the blocks on. -/
theorem freeEntryFrom_spec (ht : Tree s) (hd : Dir s d) (is : List Nat) (his : ∀ i ∈ is, i < s.nblocks d) :
    ∀ s', Passes nobody s s' → Held s' d → ∃ r s'', freeEntryFrom d is s' = some (r, s'') ∧
    Passes nobody s s'' ∧ Held s'' d ∧
      ((r = .ok ((is.flatMap (s.entriesAt d)).find? fun f => fName s.view f 0 == 0) ∧
          ∀ f, (is.flatMap (s.entriesAt d)).find? (fun f => fName s.view f 0 == 0) = some f → Held s'' f) ∨
        OutOfPages (s.BlockOfDir d) s r) := by
  induction is with
  | nil =>
    intro s' hp hheld
    exact ⟨_, s', rfl, hp, hheld, .inl ⟨rfl, fun f hf => by cases hf⟩⟩
  | cons i is ih =>
    intro s' hp hheld
    have hi := his i List.mem_cons_self
    obtain ⟨b, hb, hdata⟩ := ht.block d hd i hi
    have hat : s.entriesAt d i = entries (diskAddr b) := by
      unfold entriesAt
      rw [hb]
      rfl
    obtain ⟨r, s₁, hget, hl, ⟨a, rfl, rfl, hm⟩ | hout⟩ := hp.getBlock ht not_nobody hd hheld hi hb
    · have hp₁ := hp.loads hl (blockOfDir_used ht hd)
      have hfind : (entries (diskAddr b)).find? (fun f => fName s₁.mem f 0 == 0) =
          (entries (diskAddr b)).find? fun f => fName s.view f 0 == 0 := by
        refine List.find?_congr fun f hf => ?_
        have hentry : Entry s f := ⟨d, hd, mem_listing.2 ⟨i, hi, b, hb, hf⟩⟩
        have h0 : s₁.mapped (f / blockWords) = true := held_of_block hm hf 0 (by decide)
        rw [fName_mem h0, hp₁.name ht not_nobody (.inr hentry) (by decide)]
      unfold freeEntryFrom
      rw [bind_of_ok hget, bind_of_ok (show Fallible.read id s₁ = some (.ok s₁, s₁) from rfl), List.flatMap_cons, hat,
        List.find?_append, ← hfind]
      cases hf : (entries (diskAddr b)).find? (fun f => fName s₁.mem f 0 == 0) with
      | some f =>
        refine ⟨_, s₁, rfl, hp₁, hheld.loads hl, .inl ⟨rfl, fun x hx => ?_⟩⟩
        cases hx
        exact held_of_block hm (List.mem_of_find?_eq_some hf)
      | none =>
        rw [Option.none_or]
        exact ih (fun j hj => his j (List.mem_cons_of_mem i hj)) s₁ hp₁ (hheld.loads hl)
    · obtain rfl := hout.1
      refine ⟨_, s₁, ?_, hp.loads hl (blockOfDir_used ht hd), hheld.loads hl, .inr (hout.back hp.mapped hp.pages).cast⟩
      unfold freeEntryFrom
      rw [bind_of_error hget]

/-- **`dir_alloc_file`**: the free entry there is, or no page to look for it, or a new block. -/
theorem dirAllocFile_cases (ht : Tree s) (hd : Dir s d) (hheld : Held s d) :
    (∃ f s', s.freeEntry d = some f ∧ dirAllocFile d s = some (.ok f, s') ∧ Passes nobody s s' ∧ Held s' f) ∨
    (∃ s', dirAllocFile d s = some (.error (-eNoMem), s') ∧ Passes nobody s s' ∧ false ∈ s.pages) ∨
    ∃ s', s.freeEntry d = none ∧ Passes nobody s s' ∧ Held s' d ∧
      dirAllocFile d s = fileGetBlock d (s.nblocks d) (s'.put (fSize d) (s.view (fSize d) + 4096)) := by
  have hsize : s.mem (fSize d) = s.view (fSize d) := mem_eq_view (hheld 32 (by decide))
  obtain ⟨r, s₁, hfind, hp, hheld₁, ⟨rfl, hfound⟩ | hout⟩ := freeEntryFrom_spec ht hd (List.range (s.nblocks d))
    (fun i hi => List.mem_range.1 hi) s (.refl s nobody) hheld
  · unfold dirAllocFile
    rw [bind_of_ok (show loadWord (fSize d) s = some (.ok (s.mem (fSize d)), s) from rfl), hsize]
    have hfind : freeEntryFrom d (List.range ((s.view (fSize d)).toNat / blockSize)) s =
        some (.ok (s.freeEntry d), s₁) := hfind
    rw [bind_of_ok hfind]
    cases hfree : s.freeEntry d with
    | some f => exact .inl ⟨f, s₁, rfl, rfl, hp, hfound f hfree⟩
    | none =>
      refine .inr (.inr ⟨s₁, rfl, hp, hheld₁, ?_⟩)
      have hsize₁ : s₁.mem (fSize d) = s.view (fSize d) := by
        have hm : s₁.mem (fSize d) = s₁.view (fSize d) := mem_eq_view (hheld₁ 32 (by decide))
        exact hm.trans (hp.view _ not_nobody)
      dsimp only
      rw [bind_of_ok (show loadWord (fSize d) s₁ = some (.ok (s₁.mem (fSize d)), s₁) from rfl), hsize₁]
      rfl
  · obtain rfl := hout.1
    refine .inr (.inl ⟨s₁, ?_, hp, hout.2.1⟩)
    unfold dirAllocFile
    rw [bind_of_ok (show loadWord (fSize d) s = some (.ok (s.mem (fSize d)), s) from rfl), hsize]
    exact bind_of_error hfind

/-! ## A new block -/

namespace Fs

/-- **There is room for a block more**: a free block, and one for the indirections if need be, without stale pages. -/
structure Room (s : Fs) (d : Nat) : Prop where
  index : s.nblocks d < nIndirect
  blocks : 1 + s.wants d (s.nblocks d) ≤ s.freeBlocks.length
  clean : s.Clean (1 + s.wants d (s.nblocks d))
  pages : false ∉ s.pages

theorem quiet_of_passes (h : Passes nobody s s') : Quiet s s' :=
  ⟨(Edit.of_passes h).mono fun _ ⟨_, hf, _⟩ => hf, h.read⟩

/-- **Blocks that are free stay as clean as they were** while the words of blocks in use are written. -/
theorem Clean.edit {W : Nat → Prop} {n : Nat} (hc : s.Clean n) (hu : Up s) (hu' : Up s') (he : Edit W s s')
    (hn : s'.sNblocks = s.sNblocks) (hfree : ∀ c, s'.blockIsFree c = s.blockIsFree c)
    (hread : ∀ c, s.blockIsFree c = true → s'.mapped c = true → s.mapped c = true)
    (hW : ∀ a, W a → s.blockIsFree (a / blockWords) = false) : s'.Clean n := by
  intro c hcn k hk
  rw [freeBlocks_congr hu.super hu'.super hn hfree] at hcn
  have hcf := ((mem_freeBlocks hu.super).1 (List.mem_of_mem_take hcn)).2
  have hdiv := diskAddr_div c hk
  have hsame : s'.leftover c k = s.leftover c k := by
    unfold leftover
    by_cases hm : s.mapped c = true
    · have hm' := he.mapped c hm
      rw [if_pos hm, if_pos hm', mem_eq_view (hdiv.symm ▸ hm'), mem_eq_view (hdiv.symm ▸ hm)]
      refine he.view _ fun hw => ?_
      have hused := hW _ hw
      rw [hdiv, hcf] at hused
      cases hused
    · have hm' : ¬s'.mapped c = true := fun hm' => hm (hread c hcf hm')
      rw [if_neg hm, if_neg hm']
  rw [hsame]
  exact hc c hcn k hk

theorem indirect_congr (h : s'.view (fIndirect d) = s.view (fIndirect d)) : s'.indirect d = s.indirect d := by
  unfold indirect
  rw [h]

theorem wants_congr (h : s'.indirect d = s.indirect d) (i : Nat) : s'.wants d i = s.wants d i := by
  unfold wants
  rw [h]

theorem Room.quiet (h : s.Room d) (ho : Owned s) (hq : Quiet s s') : s'.Room d := by
  have hstill := hq.still ho
  have hview : ∀ a, s'.view a = s.view a := fun a => hq.edit.view a id
  have hn : s'.nblocks d = s.nblocks d := by
    unfold nblocks
    rw [hview]
  have hw : s'.wants d (s.nblocks d) = s.wants d (s.nblocks d) := wants_congr (indirect_congr (hview _)) _
  have hfb := freeBlocks_congr ho.up.super hstill.owned.up.super hstill.sNblocks hstill.free
  refine ⟨by rw [hn]; exact h.index, by rw [hn, hw, hfb]; exact h.blocks, ?_, fun hc => h.pages (hq.edit.pages.mem hc)⟩
  rw [hn, hw]
  refine h.clean.edit ho.up hstill.owned.up hq.edit hstill.sNblocks hstill.free (fun c hc hm => ?_) fun _ => False.elim
  refine (hq.read c hm).resolve_right fun hused => ?_
  rw [hc] at hused
  cases hused

/-- **A directory has got the block `b` behind its others**, with nothing in it. -/
structure Grown (d b : Nat) (s s' : Fs) : Prop where
  kept : Kept s'
  nblocks : s'.nblocks d = s.nblocks d + 1
  block : s'.blockAt d (s.nblocks d) = some b
  blocks : ∀ i < s.nblocks d, s'.blockAt d i = s.blockAt d i
  page : ∀ k < blockWords, s'.view (diskAddr b + k) = 0
  mapped : s'.mapped b = true
  was : s.blockIsFree b = true
  others : ∀ e, File s e → e ≠ d → s.vol.Agree s'.vol e
  words : ∀ e, File s e → ∀ k < fileWords, (k < 32 ∨ k = 33 ∨ 45 ≤ k) → s'.view (e + k) = s.view (e + k)
  file : ∀ e, File s e → File s' e
  maps : ∀ b, s.mapped b = true → s'.mapped b = true
  pages : s'.pages <:+ s.pages
  same : ∀ e, File s e → e ≠ d → SameFile e s s'
  saves : Saves (fun a => a = fSize d ∨ s.Gets d (s.nblocks d) a) s s'

end Fs

theorem grown_size (h : Kept s) (hd : Dir s d) (hn : s.nblocks d < nIndirect) :
    (s.view (fSize d) + 4096).toNat = blockSize * (s.nblocks d + 1) := by
  have hround := h.round d hd.file hd.isDir
  have hblock : (4096 : Word).toNat = blockSize := rfl
  rw [BitVec.toNat_add, hround, hblock, ← Nat.mul_succ]
  refine Nat.mod_eq_of_lt ?_
  unfold nIndirect blockSize pageSize at *
  omega

theorem put_grows (h : Kept s) (hd : Dir s d) (hheld : Held s d) (hn : s.nblocks d < nIndirect) :
    Sized d (s.view (fSize d) + 4096) s (s.put (fSize d) (s.view (fSize d) + 4096)) ∧
      (s.put (fSize d) (s.view (fSize d) + 4096)).nblocks d = s.nblocks d + 1 ∧
      ∀ e, File s e → File (s.put (fSize d) (s.view (fSize d) + 4096)) e ∧
        (e ≠ d → s.vol.Agree (s.put (fSize d) (s.view (fSize d) + 4096)).vol e) := by
  have ho := h.toOwned
  have hsized := ho.put_size hd.file hheld (s.view (fSize d) + 4096) fun hdir i b hb =>
    (h.blockAt_iff hd.file hdir).2 (by rw [hb]; rfl)
  have hcount : (s.put (fSize d) (s.view (fSize d) + 4096)).nblocks d = s.nblocks d + 1 := by
    unfold nblocks
    rw [hsized.size, grown_size h hd hn, Nat.mul_div_cancel_left _ (by decide)]
    rfl
  have hothers : ∀ e, File s e → e ≠ d → s.vol.Agree (s.put (fSize d) (s.view (fSize d) + 4096)).vol e :=
    fun e he hed => agree_of_view fun a ha => hsized.edit.view a fun heq =>
      hed (ho.touches_sole he hd.file ha (heq ▸ touches_size d s))
  refine ⟨hsized, hcount, fun e he => ⟨Volume.node_mono (fun n hn => ?_) he, hothers e he⟩⟩
  by_cases hnd : n = d
  · subst hnd
    refine fun hdir => ⟨hsized.dir.2 hdir, fun i b hi hb => ⟨?_, ?_⟩⟩
    · exact Nat.lt_of_lt_of_eq (Nat.lt_succ_of_lt hi) hcount.symm
    · rw [hsized.holds]
      exact hb
  · exact (hothers n hn hnd).keeps

/-- **The directory gets its block.** -/
theorem fileGetBlock_grows (h : Kept s) (hd : Dir s d) (hheld : Held s d) (hroom : s.Room d) :
    ∃ b s', fileGetBlock d (s.nblocks d) (s.put (fSize d) (s.view (fSize d) + 4096)) = some (.ok (diskAddr b), s') ∧
      Grown d b s s' := by
  have ho := h.toOwned
  obtain ⟨hsized, hcount, hfiles⟩ := put_grows h hd hheld hroom.index
  generalize hs₁ : s.put (fSize d) (s.view (fSize d) + 4096) = s₁ at hsized hcount hfiles
  have hind : s₁.indirect d = s.indirect d := congrFun hsized.holds .indirect
  have hwants := wants_congr hind (s.nblocks d)
  have hfb := freeBlocks_congr ho.up.super hsized.owned.up.super hsized.sNblocks hsized.free
  have hclean : s₁.Clean (1 + s.wants d (s.nblocks d)) := by
    refine hroom.clean.edit ho.up hsized.owned.up hsized.edit hsized.sNblocks hsized.free
      (fun c _ hm => hsized.mapped ▸ hm) ?_
    rintro a rfl
    exact (ho.word_not_bitmap hd.file (show 32 < fileWords by decide)).2
  have hnone : s₁.blockAt d (s.nblocks d) = none := by
    refine (congrFun hsized.holds (.block (s.nblocks d))).trans (Option.not_isSome_iff_eq_none.1 fun hsome => ?_)
    exact Nat.lt_irrefl _ ((h.blockAt_iff hd.file hd.isDir).2 hsome)
  have hone : s₁.Clean 1 := fun c hc => hclean c (List.take_subset_take_left _ (Nat.le_add_right 1 _) hc)
  obtain ⟨r, s₂, hget, hext, ⟨b, rfl, hb, hm, hnew⟩ | ⟨e, rfl, hfail, -⟩⟩ :=
    fileGetBlock_alloc (i := s.nblocks d) hsized.owned
    (hfiles d hd.file).1 (hsized.edit.held hheld) (fun _ _ => hone) fun _ => by rw [hwants]; exact hclean
  · obtain ⟨hfirst, hpage⟩ := hnew hnone
    rw [hwants] at hfirst
    have hbfree := mem_take_of_head hfirst
    have hwas : s.blockIsFree b = true :=
      (hsized.free b).symm.trans ((mem_freeBlocks hsized.owned.up.super).1 (List.mem_of_mem_take hbfree)).2
    have hcount₂ : s₂.nblocks d = s.nblocks d + 1 := by
      rw [← hcount]
      unfold nblocks
      rw [hext.size]
    have hblank : ∀ k < blockWords, s₂.view (diskAddr b + k) = 0 :=
      fun k hk => (hpage k hk).trans (hclean b hbfree k hk)
    have hfile : ∀ e, File s e → File s₂ e := fun e he => hext.file e (hfiles e he).1
    have hback : ∀ e, File s₂ e → s₂.IsDir e → File s e := fun e he hdir =>
      hsized.file_back e ((hext.file_back e he).resolve_right fun hc => hc.1 hdir)
    have hothers : ∀ e, File s e → e ≠ d → s.vol.Agree s₂.vol e := fun e he hed =>
      ((hfiles e he).2 hed).trans (hext.others e (hfiles e he).1 hed)
    have hwords : ∀ e, File s e → ∀ k < fileWords, (k < 32 ∨ k = 33 ∨ 45 ≤ k) → s₂.view (e + k) = s.view (e + k) := by
      intro e he k hk hne
      obtain ⟨hbit, hused⟩ := hsized.owned.word_not_bitmap (hfiles e he).1 hk
      have h₂ : s₂.view (e + k) = s₁.view (e + k) := by
        refine hext.edit.view _ ?_
        rintro (hc | ⟨hc, -⟩ | hc)
        · exact hbit hc
        · rw [hused] at hc
          cases hc
        · exact hsized.owned.word_not_slot (hfiles e he).1 (hfiles d hd.file).1 hk (by omega) hc
      refine h₂.trans (hsized.edit.view _ fun heq => ?_)
      have hed := ho.word_sole he hd.file hk (show 32 < fileWords by decide) heq
      unfold fSize at heq
      omega
    have hheldblock : ∀ i < s.nblocks d, s₂.blockAt d i = s.blockAt d i := by
      intro i hi
      obtain ⟨c, hc⟩ := Option.isSome_iff_exists.1 ((h.blockAt_iff hd.file hd.isDir).1 hi)
      have hc₁ : s₁.vol.holds d (.block i) = some c := (congrFun hsized.holds (.block i)).trans hc
      exact (hext.keeps (.block i) c hc₁).trans hc.symm
    have hsound : Sound s₂ := by
      refine ⟨hext.owned, fun x hx hdir i => ?_, fun x hx hdir => ?_⟩
      · have hxs := hback x hx hdir
        by_cases hxd : x = d
        · subst hxd
          show i < s₂.nblocks x ↔ (s₂.blockAt x i).isSome
          rw [hcount₂, Nat.lt_succ_iff_lt_or_eq]
          constructor
          · rintro (hi | rfl)
            · rw [hheldblock i hi]
              exact (h.blockAt_iff hd.file hd.isDir).1 hi
            · rw [hb]
              rfl
          · intro hsome
            obtain ⟨c, hc⟩ := Option.isSome_iff_exists.1 hsome
            rcases hext.fresh (.block i) c hc with hc | ⟨⟨-, hu⟩ | hu, -⟩
            · have hcs : s.blockAt x i = some c := (congrFun hsized.holds (.block i)).symm.trans hc
              exact .inl ((h.blockAt_iff hd.file hd.isDir).2 (by rw [hcs]; rfl))
            · cases hu
            · exact .inr (Use.block.inj hu)
        · have hag := hothers x hxs hxd
          rw [hag.count, hag.holds]
          exact h.whole x hxs (hag.dir.1 hdir) i
      · have hxs := hback x hx hdir
        by_cases hxd : x = d
        · subst hxd
          rw [hcount₂, hext.size, hsized.size]
          exact grown_size h hd hroom.index
        · have hag := hothers x hxs hxd
          have hc : s₂.nblocks x = s.nblocks x := hag.count
          have hsize : s₂.view (fSize x) = s.view (fSize x) := by
            refine (hext.edit.view _ ?_).trans (hsized.edit.view _ fun heq => hxd ?_)
            · obtain ⟨hbit, hused⟩ := hsized.owned.word_not_bitmap (hfiles x hxs).1 (show 32 < fileWords by decide)
              rintro (hw | ⟨hw, -⟩ | hw)
              · exact hbit hw
              · rw [show s₁.blockIsFree (fSize x / blockWords) = false from hused] at hw
                cases hw
              · exact hsized.owned.word_not_slot (hfiles x hxs).1 (hfiles d hd.file).1
                  (show 32 < fileWords by decide) (.inl hxd) hw
            · exact ho.word_sole hxs hd.file (show 32 < fileWords by decide) (show 32 < fileWords by decide) heq
          rw [hsize, hc]
          exact h.round x hxs (hag.dir.1 hdir)
    have hmaps : ∀ c, s.mapped c = true → s₂.mapped c = true := fun c hc => hext.edit.mapped c (hsized.edit.mapped c hc)
    have hsaves : Saves (fun a => a = fSize d ∨ s.Gets d (s.nblocks d) a) s s₂ := by
      have hcalm : Calm s₁ s₂ := fun l hl hmem => hroom.pages (hsized.edit.pages.mem (hl ▸ List.mem_append_left _ hmem))
      refine ((Saves.of_edit hsized.edit fun a ha => ha ▸ ho.file_above hd.file 32).mono fun a ha => .inl ha).trans
        ((hext.saves hsized.owned (hfiles d hd.file).1 hcalm).mono fun a ha => .inr ?_)
      exact (Gets.congr hsized.free hsized.holds).1 ha
    refine ⟨b, s₂, hget, ⟨?_, hcount₂, hb, hheldblock, hblank, hm, hwas, hothers, hwords, hfile, hmaps,
      hext.edit.pages.trans hsized.edit.pages, fun e he hed => ?_, hsaves⟩⟩
    rotate_left
    · have hsize := hsized.edit.same ho he fun a ha =>
          .inr (.inr (.inl ⟨d, hd.file, hed.symm, .inr ⟨32, by decide, ha⟩⟩))
      refine hsize.trans (hext.edit.same hsized.owned (hfiles e he).1 ?_)
      rintro a (hw | ⟨hw, -⟩ | hw)
      · exact .inl hw
      · exact .inr (.inl hw)
      · exact .inr (.inr (.inl ⟨d, (hfiles d hd.file).1, hed.symm, .inl hw⟩))
    refine h.back hsound hmaps (hwords _ .root 45 (by decide) (.inr (.inr (Nat.le_refl 45))))
      fun x i c e hx hdir hc hin => ?_
    have hxs := hback x hx hdir
    have hold : s.IsDir x → s.blockAt x i = some c →
        File s x ∧ s.IsDir x ∧ s.blockAt x i = some c ∧ s₂.view (fDir e) = s.view (fDir e) := by
      intro hxdir hxc
      have he : File s e := .entry x i c e hxs hxdir ((h.blockAt_iff hxs hxdir).2 (by rw [hxc]; rfl)) hxc hin
      exact ⟨hxs, hxdir, hxc, hwords e he 45 (by decide) (.inr (.inr (Nat.le_refl 45)))⟩
    by_cases hxd : x = d
    · subst hxd
      have hi : i < s₂.nblocks x := (hsound.blockAt_iff hx hdir).2 (by rw [hc]; rfl)
      rw [hcount₂] at hi
      rcases Nat.lt_succ_iff_lt_or_eq.1 hi with hi | rfl
      · rw [hheldblock i hi] at hc
        exact .inr (.inr (hold hd.isDir hc))
      · cases hb.symm.trans hc
        obtain ⟨j, hj, rfl⟩ := mem_entries.1 hin
        refine .inl ?_
        unfold fDir
        rw [Nat.add_assoc]
        exact hblank _ (Entry.lt_block hj (by decide))
    · have hag := hothers x hxs hxd
      exact .inr (.inr (hold (hag.dir.1 hdir) ((congrFun hag.holds (.block i)).symm.trans hc)))
  · rw [hwants] at hfail
    rcases hfail with ⟨-, hlen⟩ | ⟨-, hpages⟩ | ⟨-, hrange⟩
    · rw [hfb] at hlen
      exact absurd hroom.blocks (Nat.not_le.2 hlen)
    · subst hs₁
      exact absurd hpages hroom.pages
    · exact absurd hroom.index (Nat.not_lt.2 hrange)

/-! ## The entry -/

/-- **The words that a directory without a free entry may change** when it gets one. -/
def Fs.Adds (s : Fs) (d a : Nat) : Prop := s.freeEntry d = none ∧ (a = fSize d ∨ s.Gets d (s.nblocks d) a)

/-- **An entry was found, or made**: what was there stays, and no name changes. -/
structure Fs.Allotted (d f : Nat) (s s' : Fs) : Prop where
  kept : Kept s'
  held : Held s' f
  mem : f ∈ s'.listing d
  isDir : s'.IsDir d
  /-- A free entry of the directory, or the first one of a new block that has nothing in it. -/
  entry : s.freeEntry d = some f ∧ s'.listing d = s.listing d ∧ s'.view (fSize d) = s.view (fSize d) ∧
      (∀ k < fileWords, s'.view (f + k) = s.view (f + k)) ∨
    s.freeEntry d = none ∧
      (∃ b, s.blockIsFree b = true ∧ s'.listing d = s.listing d ++ entries (diskAddr b) ∧ f ∈ entries (diskAddr b) ∧
      ∀ k < blockWords, s'.view (diskAddr b + k) = 0)
  others : ∀ e, File s e → e ≠ d → s.vol.Agree s'.vol e
  words : ∀ e, File s e → ∀ k < fileWords, (k < 32 ∨ k = 33 ∨ 45 ≤ k) → s'.view (e + k) = s.view (e + k)
  file : ∀ e, File s e → File s' e
  maps : ∀ b, s.mapped b = true → s'.mapped b = true
  pages : s'.pages <:+ s.pages
  same : ∀ e, File s e → e ≠ d → SameFile e s s'
  retains : Retains d s s'
  saves : Saves (s.Adds d) s s'

theorem Fs.Grown.listing (h : Grown d b s s') : s'.listing d = s.listing d ++ entries (diskAddr b) := by
  unfold Fs.listing
  rw [h.nblocks, List.range_succ, List.flatMap_append, List.flatMap_singleton]
  refine congr (congrArg _ (List.flatMap_congr fun i hi => ?_)) ?_
  · unfold entriesAt
    rw [h.blocks i (List.mem_range.1 hi)]
  · unfold entriesAt
    rw [h.block]
    rfl

/-- **`dir_alloc_file`**, where there is room for what it may need. -/
theorem dirAllocFile_spec (h : Kept s) (hd : Dir s d) (hheld : Held s d) (hroom : s.freeEntry d = none → s.Room d) :
    (∃ f s', dirAllocFile d s = some (.ok f, s') ∧ Allotted d f s s') ∨
      ∃ s', dirAllocFile d s = some (.error (-eNoMem), s') ∧ Passes nobody s s' ∧ false ∈ s.pages := by
  rcases dirAllocFile_cases h.tree hd hheld
      with ⟨f, s', hfree, hrun, hp, hheldf⟩ | hstarved | ⟨s₁, hfree, hp, hheld₁, hrun⟩
  · have hq := quiet_of_passes hp
    have hstill := hq.still h.toOwned
    have hview : ∀ a, s'.view a = s.view a := fun a => hq.edit.view a id
    have hlist := listing_congr (hstill.agree hd.file)
    refine .inl ⟨f, s', hrun, ⟨h.quiet hq, hheldf, ?_, ?_, .inl ⟨hfree, hlist, hview _, fun k _ => hview _⟩,
      fun e he _ => hstill.agree he, fun e _ k _ _ => hview _, fun e => (hstill.file e).2, hp.mapped, hp.pages,
      fun e he _ => hq.edit.same h.toOwned he fun _ => False.elim,
        (hq.edit.same h.toOwned hd.file fun _ => False.elim).retained,
      (Saves.of_edit hq.edit fun _ => False.elim).mono fun _ => False.elim⟩⟩
    · rw [hlist]
      exact List.mem_of_find?_eq_some hfree
    · exact (hview (fType d)).trans hd.isDir
  · exact .inr hstarved
  · have hq := quiet_of_passes hp
    have hstill := hq.still h.toOwned
    have hk₁ := h.quiet hq
    have hview : ∀ a, s₁.view a = s.view a := fun a => hq.edit.view a id
    have hfile₁ := (hstill.file d).2 hd.file
    have hn : s₁.nblocks d = s.nblocks d := (hstill.agree hd.file).count
    have hd₁ : Dir s₁ d := h.dir_passes hp not_nobody hd
    obtain ⟨b, s₂, hget, hg⟩ := fileGetBlock_grows hk₁ hd₁ hheld₁ ((hroom hfree).quiet h.toOwned hq)
    rw [hn, hview] at hget
    have hlist := hg.listing
    rw [listing_congr (hstill.agree hd.file)] at hlist
    have hfirst : diskAddr b ∈ entries (diskAddr b) := mem_entries.2 ⟨0, by decide, by rw [Nat.mul_zero, Nat.add_zero]⟩
    have hdir₂ : s₂.IsDir d := (hg.words d hfile₁ 33 (by decide) (.inr (.inl rfl))).trans hd₁.isDir
    refine .inl ⟨diskAddr b, s₂, hrun.trans hget, ⟨hg.kept, held_of_block hg.mapped hfirst, ?_, hdir₂,
      .inr ⟨hfree, b, (hstill.free b).symm.trans hg.was, hlist, hfirst, hg.page⟩,
        fun e he hed => (hstill.agree he).trans (hg.others e ((hstill.file e).2 he) hed),
      fun e he k hk hne => (hg.words e ((hstill.file e).2 he) k hk hne).trans (hview _),
        fun e he => hg.file e ((hstill.file e).2 he),
      fun b hb => hg.maps b (hp.mapped b hb), hg.pages.trans hp.pages,
      fun e he hed => (hq.edit.same h.toOwned he fun _ => False.elim).trans (hg.same e ((hstill.file e).2 he) hed),
      (hq.edit.same h.toOwned hd.file fun _ => False.elim).retains ⟨hg.blocks, .inr hg.nblocks⟩,
      ((Saves.of_edit hq.edit fun _ => False.elim).mono fun _ => False.elim).trans
      (hg.saves.mono fun a ha => ⟨hfree, ha.imp_right fun ha => ?_⟩)⟩⟩
    rotate_left
    · rw [hn] at ha
      exact (Gets.congr hstill.free (hstill.agree hd.file).holds).1 ha
    rw [hlist]
    exact List.mem_append_right _ hfirst

/-! ## The name -/

theorem byteAt_putBytes (m : Nat → Word) (c a : Nat) (g : Nat → BitVec 8) : ∀ n,
    byteAt ((List.range n).foldl (fun m i => putByte m (c + i) (g i)) m) a =
      if c ≤ a ∧ a < c + n then g (a - c) else byteAt m a
  | 0 => (if_neg (by omega)).symm
  | n + 1 => by
    rw [List.range_succ, List.foldl_append, List.foldl_cons, List.foldl_nil, byteAt_putByte, byteAt_putBytes m c a g n]
    by_cases ha : a = c + n
    · subst ha
      rw [if_pos rfl, if_pos (by omega), Nat.add_sub_cancel_left]
    · rw [if_neg ha]
      by_cases hin : c ≤ a ∧ a < c + n
      · rw [if_pos hin, if_pos (by omega)]
      · rw [if_neg hin, if_neg (by omega)]

theorem byteAt_word (m : Nat → Word) (a : Nat) {j : Nat} (hj : j < 4) : byteAt m (4 * a + j) = getByte (m a) j := by
  unfold byteAt
  rw [show (4 * a + j) / 4 = a by omega, show (4 * a + j) % 4 = j by omega]

theorem putName_other {m : Nat → Word} {name : List (BitVec 8)} {a : Nat} (hlen : name.length < maxNameLen)
    (ha : ∀ k < 32, a ≠ f + k) : putName m f name a = m a := by
  refine eq_of_getByte fun j hj => ?_
  rw [← byteAt_word _ a hj, ← byteAt_word m a hj]
  unfold putName
  rw [byteAt_putBytes, if_neg]
  rintro ⟨hle, hlt⟩
  unfold maxNameLen at hlen
  exact ha (a - f) (by omega) (by omega)

theorem nameOf_nil (h : fName s.view f 0 = 0) : s.nameOf f = [] := by
  unfold nameOf maxNameLen
  rw [show (128 : Nat) = 127 + 1 from rfl, List.range_succ_eq_map, List.map_cons, List.takeWhile_cons, h]
  rfl

/-- **The name is written.** -/
theorem put_name {name : List (BitVec 8)} (hheld : Held s f) (h0 : (0 : BitVec 8) ∉ name)
    (hlen : name.length < maxNameLen) :
    Edit (fun a => ∃ k < 32, a = f + k) s { s with mem := putName s.mem f name } ∧
      Fs.nameOf { s with mem := putName s.mem f name } f = name := by
  constructor
  · refine .of_same rfl rfl rfl rfl (List.suffix_refl _) (fun a ha => ?_) fun _ _ _ => rfl
    simp only [view]
    rw [putName_other hlen fun k hk heq => ha ⟨k, hk, heq⟩]
  · unfold nameOf
    rw [takeWhile_eq_iff h0 (by rw [List.length_map, List.length_range]; exact hlen)]
    refine List.prefix_iff_getElem?.2 fun i hi => ?_
    rw [List.length_append, List.length_singleton] at hi
    unfold maxNameLen at hlen ⊢
    have hm : s.mapped ((f + i / 4) / blockWords) = true := hheld (i / 4) (by unfold fileWords; omega)
    have hbyte : fName (Fs.view { s with mem := putName s.mem f name }) f i = (name ++ [0]).getD i 0 := by
      have hmem : Fs.view { s with mem := putName s.mem f name } (f + i / 4) = putName s.mem f name (f + i / 4) := by
        simp only [view, hm, if_true]
      have hfold := byteAt_putBytes s.mem (4 * f) (4 * f + i) (fun i => (name ++ [0]).getD i 0) (name.length + 1)
      rw [if_pos (by omega), Nat.add_sub_cancel_left] at hfold
      refine Eq.trans ?_ hfold
      unfold fName byteAt
      rw [show (4 * f + i) / 4 = f + i / 4 by omega, hmem]
      rfl
    rw [List.getElem?_map, List.getElem?_range (by omega), Option.map_some, hbyte, List.getD_eq_getElem?_getD,
      List.getElem?_eq_getElem (by rw [List.length_append, List.length_singleton]; omega)]
    rfl

end Mos
