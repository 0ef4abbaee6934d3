import Mos.FsResize
import Mos.FsWalk
/-!
# FsKept — the volume that the requests keep

`Kept` is a sound volume in which every `f_dir` is 0 or the directory the entry is in.  What a request does to it is
reading, writing the words of one entry that say nothing about blocks, giving blocks to a file, or taking them: each
keeps it, and the files stay.
-/
namespace Mos

open Fallible FilePtr

namespace Fs

/-- **The volume is sound, and the entries know their directory.** -/
structure Kept (s : Fs) : Prop extends Sound s where
  root : s.view (fDir sRoot) = 0
  links : ∀ d i b e, File s d → s.IsDir d → s.blockAt d i = some b → Inside b e →
    s.view (fDir e) = 0 ∨ (Held s d ∧ s.view (fDir e) = addrOf d)

variable {s s' s'' : Fs} {d e f a b i : Nat} {W : Nat → Prop}

/-! ## The tree -/

theorem Object.file (h : Object s f) : File s f := by
  induction h with
  | root => exact .root
  | entry d f _ hdir hf _ ih =>
    obtain ⟨i, hi, b, hb, hin⟩ := mem_listing.1 hf
    exact .entry d i b f ih hdir hi hb hin

theorem Dir.file (h : Dir s d) : File s d := h.object.file

theorem Entry.file (h : Entry s f) :
    ∃ d i b, File s d ∧ s.IsDir d ∧ s.blockAt d i = some b ∧ Inside b f ∧ File s f := by
  obtain ⟨d, hd, hf⟩ := h
  obtain ⟨i, hi, b, hb, hin⟩ := mem_listing.1 hf
  exact ⟨d, i, b, hd.file, hd.isDir, hb, hin, .entry d i b f hd.file hd.isDir hi hb hin⟩

theorem Sound.blockAt_iff (h : Sound s) (hf : File s d) (hd : s.IsDir d) : i < s.nblocks d ↔ (s.blockAt d i).isSome :=
  h.whole d hf hd i

/-- **A sound volume is a tree.** -/
theorem Sound.tree (h : Sound s) : Tree s := by
  have ho := h.toOwned
  refine ⟨ho.up, fun d hd i hi => ?_, fun d hd _ b hb => ho.data_indirect hd.file hb,
    fun d e hd he _ i _ b hb hind => ?_⟩
  · obtain ⟨b, hb⟩ := Option.isSome_iff_exists.1 ((h.blockAt_iff hd.file hd.isDir).1 hi)
    exact ⟨b, hb, ho.data_block hd.file hb⟩
  · exact absurd (ho.vol.sole d e .indirect (.block i) b hd.file he.file hind hb).2 Use.noConfusion

theorem Owned.home_sole (h : Owned s) {i' b' d' : Nat} (hd : File s d) (hd' : File s d') (hb : s.blockAt d i = some b)
    (hb' : s.blockAt d' i' = some b') (he : Inside b e) (he' : Inside b' e) : d = d' ∧ i = i' ∧ b = b' := by
  obtain ⟨j, hj, rfl⟩ := mem_entries.1 he
  obtain ⟨j', hj', heq⟩ := mem_entries.1 he'
  have hbb : b = b' := by
    have h₁ := entry_word (b := b) hj (show 0 < fileWords by decide)
    have h₂ := entry_word (b := b') hj' (show 0 < fileWords by decide)
    rw [Nat.add_zero] at h₁ h₂
    rw [← h₁, heq, h₂]
  subst hbb
  obtain ⟨hdd, hii⟩ := h.vol.sole d d' (.block i) (.block i') b hd hd' hb hb'
  exact ⟨hdd, Use.block.inj hii, rfl⟩

theorem Kept.linked (h : Kept s) (hf : File s f) : s.Linked f := by
  cases hf with
  | root => exact .inl h.root
  | entry d i b _ hd hdir hi hb hin =>
    rcases h.links d i b f hd hdir hb hin with h0 | ⟨hheld, hlink⟩
    · exact .inl h0
    · exact .inr ⟨d, i, b, hd, hdir, hi, hb, hin, hheld, hlink⟩

/-- **What keeps the links**: an entry's directory had it before, and its `f_dir` is as it was; or it is set rightly. -/
theorem Kept.back (h : Kept s) (hs : Sound s') (hm : ∀ b, s.mapped b = true → s'.mapped b = true)
    (hroot : s'.view (fDir sRoot) = s.view (fDir sRoot))
    (hlinks : ∀ d i b e, File s' d → s'.IsDir d → s'.blockAt d i = some b → Inside b e → s'.view (fDir e) = 0 ∨
      (Held s' d ∧ s'.view (fDir e) = addrOf d) ∨
      (File s d ∧ s.IsDir d ∧ s.blockAt d i = some b ∧ s'.view (fDir e) = s.view (fDir e))) : Kept s' := by
  refine ⟨hs, hroot.trans h.root, fun d i b e hd hdir hb hin => ?_⟩
  rcases hlinks d i b e hd hdir hb hin with h0 | hset | ⟨hd, hdir, hb, hview⟩
  · exact .inl h0
  · exact .inr hset
  · rw [hview]
    exact (h.links d i b e hd hdir hb hin).imp_right fun ⟨hheld, hlink⟩ => ⟨fun k hk => hm _ (hheld k hk), hlink⟩

/-! ## Changes that leave the files alone -/

theorem Kept.still (h : Kept s) (hs : Still s s') (hm : ∀ b, s.mapped b = true → s'.mapped b = true)
    (hview : ∀ e, File s e → s'.view (fDir e) = s.view (fDir e)) : Kept s' := by
  refine h.back (hs.sound h.toSound) hm (hview _ .root) fun d i b e hd hdir hb hin => .inr (.inr ?_)
  have hd := (hs.file d).1 hd
  have hag := hs.agree hd
  have hdir := hag.dir.1 hdir
  have hb : s.blockAt d i = some b := (congrFun hag.holds (.block i)).symm.trans hb
  have hi : i < s.nblocks d := (h.blockAt_iff hd hdir).2 (by rw [hb]; rfl)
  exact ⟨hd, hdir, hb, hview e (.entry d i b e hd hdir hi hb hin)⟩

/-- **Words of one entry** that do not say what it holds. -/
theorem Owned.field_still (ho : Owned s) (hf : File s f) (h : Edit W s s')
    (hw : ∀ a, W a → ∃ k < fileWords, a = f + k ∧ (k < 32 ∨ 45 ≤ k)) : Still s s' := by
  refine h.still ho (fun h1 => ?_) (fun a hbit ha => ?_) fun e a he hta ha => ?_
  · obtain ⟨k, hk, heq, hne⟩ := hw _ h1
    have hword := hf.word hk
    rw [← heq] at hword
    rcases hword with ⟨rfl, -⟩ | ⟨d, i, hd, hb⟩
    · unfold sRoot at heq
      omega
    · have := (ho.data_block hd hb).le
      have := reserved_ge s
      rw [show (blockWords + 1) / blockWords = 1 by decide] at *
      omega
  · obtain ⟨k, hk, rfl, -⟩ := hw a ha
    exact (ho.word_not_bitmap hf hk).1 hbit
  · obtain ⟨k, hk, rfl, hne⟩ := hw a ha
    rcases hta with ⟨k', h32, h45, heq⟩ | ⟨b, j, -, hj, hb, heq⟩
    · have hef := ho.word_sole hf he hk (Nat.lt_trans h45 (by decide)) heq
      omega
    · exact ho.entry_ne_indirect hf he hk hj hb heq

theorem Kept.quiet (h : Kept s) (hq : Quiet s s') : Kept s' :=
  h.still (hq.still h.toOwned) hq.edit.mapped fun _ _ => hq.edit.view _ id

theorem Kept.field (h : Kept s) (hf : File s f) (he : Edit W s s')
    (hw : ∀ a, W a → ∃ k < fileWords, a = f + k ∧ (k < 32 ∨ 46 ≤ k)) : Kept s' ∧ Still s s' := by
  have hstill := h.toOwned.field_still hf he fun a ha => by
    obtain ⟨k, hk, heq, hne⟩ := hw a ha
    exact ⟨k, hk, heq, by omega⟩
  refine ⟨h.still hstill he.mapped fun e hfe => he.view _ fun hwe => ?_, hstill⟩
  obtain ⟨k, hk, heq, hne⟩ := hw _ hwe
  have hef := h.toOwned.word_sole hfe hf (show 45 < fileWords by decide) hk heq
  unfold fDir at heq
  omega

theorem passed_entry {names : List (List (BitVec 8))} : ∀ {f : Nat}, Object s f → (∀ n ∈ names, n ≠ []) →
    ∀ {e : Nat}, e ∈ s.passed f names → Entry s e := by
  induction names with
  | nil => exact fun _ _ e he => absurd he List.not_mem_nil
  | cons name names ih =>
    intro f hf hne e he
    unfold passed at he
    split at he
    · exact absurd he List.not_mem_nil
    · split at he
      · exact absurd he List.not_mem_nil
      · rename_i hdir
        have hdir : s.IsDir f := not_not.1 hdir
        cases hl : s.lookup f name with
        | none =>
          rw [hl] at he
          exact absurd he List.not_mem_nil
        | some x =>
          rw [hl] at he
          have hx : x ∈ s.listing f := List.mem_of_find?_eq_some hl
          have hname : s.nameOf x = name := by simpa using List.find?_some hl
          rcases List.mem_cons.1 he with rfl | he
          · exact ⟨f, ⟨hf, hdir⟩, hx⟩
          · refine ih (.entry f x hf hdir hx ?_) (fun n hn => hne n (List.mem_cons_of_mem _ hn)) he
            rw [hname]
            exact hne name List.mem_cons_self

theorem components_ne_nil {path : List (BitVec 8)} : ∀ n ∈ components path, n ≠ [] := by
  intro n hn
  unfold components at hn
  simpa using (List.mem_filter.1 hn).2

/-- **A walk keeps the volume**, and sets `f_dir` rightly. -/
theorem Kept.passes {P : Nat → Prop} (h : Kept s) (hp : Passes P s s') (hP : ∀ f, P f → Entry s f) :
    Kept s' ∧ Still s s' := by
  have ho := h.toOwned
  have hstill : Still s s' := by
    refine (Edit.of_passes hp).still ho (fun ⟨f, hf, heq⟩ => ?_) (fun a hbit ⟨f, hf, heq⟩ => ?_)
      fun e a he hta ⟨f, hf, heq⟩ => ?_
    · obtain ⟨b, hb, hword, -⟩ := (hP f hf).word h.tree
      have hdiv := hword 45 (by decide)
      have hle := hb.le
      have := reserved_ge s
      unfold fDir at heq
      rw [← hdiv, ← heq, show (blockWords + 1) / blockWords = 1 by decide] at hle
      omega
    · obtain ⟨d, i, b, -, -, -, -, hfile⟩ := (hP f hf).file
      rw [heq] at hbit
      exact (ho.word_not_bitmap hfile (show 45 < fileWords by decide)).1 hbit
    · obtain ⟨d, i, b, -, -, -, -, hfile⟩ := (hP f hf).file
      rcases hta with ⟨k, h32, h45, heq'⟩ | ⟨c, j, -, hj, hc, heq'⟩
      · have hef := ho.word_sole hfile he (show 45 < fileWords by decide) (Nat.lt_trans h45 (by decide))
            (heq.symm.trans heq')
        unfold fDir at heq
        omega
      · exact ho.entry_ne_indirect hfile he (show 45 < fileWords by decide) hj hc (heq.symm.trans heq')
  refine ⟨h.back (hstill.sound h.toSound) hp.mapped (hp.view _ fun f hf heq => ?_)
    fun d i b e hd hdir hb hin => ?_, hstill⟩
  · obtain ⟨d, i, b, hd, -, hb, hin, hfile⟩ := (hP f hf).file
    have hrf := ho.word_sole .root hfile (show 45 < fileWords by decide) (show 45 < fileWords by decide) heq
    obtain ⟨c, hc, hword, -⟩ := (hP f hf).word h.tree
    have hdiv := hword 0 (by decide)
    rw [← hrf] at hdiv
    have hone := root_word (show 0 < fileWords by decide)
    have := hc.le
    have := reserved_ge s
    omega
  · have hd := (hstill.file d).1 hd
    have hag := hstill.agree hd
    have hdir := hag.dir.1 hdir
    have hb : s.blockAt d i = some b := (congrFun hag.holds (.block i)).symm.trans hb
    by_cases hset : ∃ f, P f ∧ fDir e = fDir f
    · obtain ⟨f, hf, heq⟩ := hset
      obtain rfl : e = f := Nat.add_right_cancel heq
      rcases hp.link e hf with hsame | ⟨d', hd', hl, hheld, hlink⟩
      · exact .inr (.inr ⟨hd, hdir, hb, hsame⟩)
      · obtain ⟨i', -, b', hb', hin'⟩ := mem_listing.1 hl
        obtain ⟨rfl, -, -⟩ := ho.home_sole hd hd'.file hb hb' hin hin'
        exact .inr (.inl ⟨hheld, hlink⟩)
    · exact .inr (.inr ⟨hd, hdir, hb, hp.view _ fun f hf heq => hset ⟨f, hf, heq⟩⟩)

theorem listing_congr (hag : s.vol.Agree s'.vol d) : s'.listing d = s.listing d := by
  have hn : s'.nblocks d = s.nblocks d := hag.count
  have hb : ∀ i, s'.blockAt d i = s.blockAt d i := fun i => congrFun hag.holds (.block i)
  unfold listing
  rw [hn]
  refine congrArg (List.flatMap · _) (funext fun i => ?_)
  unfold entriesAt
  rw [hb]

/-- The objects stay where the directories list what they did, under the same names. -/
theorem Object.of_same (hlist : ∀ d, Dir s d → s'.IsDir d ∧ s'.listing d = s.listing d)
    (hname : ∀ f, Entry s f → s'.nameOf f = s.nameOf f) (h : Object s f) : Object s' f := by
  induction h with
  | root => exact .root
  | entry d f hd hdir hf hne ih =>
    obtain ⟨hdir', hl⟩ := hlist d ⟨hd, hdir⟩
    refine .entry d f ih hdir' (hl ▸ hf) ?_
    rw [hname f ⟨d, ⟨hd, hdir⟩, hf⟩]
    exact hne

/-- **A walk leaves the directories.** -/
theorem Kept.dir_passes {P : Nat → Prop} (h : Kept s) (hp : Passes P s s') (hP : ∀ f, P f → Entry s f) (hd : Dir s d) :
    Dir s' d := by
  have hstill := (h.passes hp hP).2
  have hdirs : ∀ x, Dir s x → s'.IsDir x ∧ s'.listing x = s.listing x := fun x hx =>
    ⟨(hstill.agree hx.file).dir.2 hx.isDir, listing_congr (hstill.agree hx.file)⟩
  exact ⟨hd.object.of_same hdirs fun f hf => hp.nameOf h.tree hP (.inr hf), (hdirs d hd).1⟩

/-! ## Blocks of files -/

/-- **The words of a file's blocks**, if it is no directory, say nothing about the volume. -/
theorem Owned.data_word (ho : Owned s) (hf : File s f) (hreg : ¬s.IsDir f) (hb : s.blockAt f i = some b)
    (ha : a / blockWords = b) :
    ¬s.InBitmap a ∧ s.blockIsFree (a / blockWords) = false ∧ (∀ e, File s e → ∀ k < fileWords, a ≠ e + k) ∧
      ∀ e, File s e → ¬s.InSlots e a := by
  have hdata := ho.data_block hf hb
  have hword : ∀ e, File s e → ∀ k < fileWords, a ≠ e + k := by
    rintro e hfe k hk rfl
    rcases hfe.word hk with ⟨-, h1⟩ | ⟨d, j, hd, hj⟩
    · rw [ha] at h1
      have := hdata.le
      have := reserved_ge s
      omega
    · rw [ha] at hj
      obtain ⟨rfl, -⟩ := ho.vol.sole d f (.block j) (.block i) b hd hf hj hb
      cases hfe with
      | root =>
        have h1 := root_word hk
        rw [ha] at h1
        have := hdata.le
        have := reserved_ge s
        omega
      | entry x m c _ hx hxdir _ hc hin =>
        obtain ⟨n, hn, rfl⟩ := mem_entries.1 hin
        have hcb := entry_word (b := c) hn hk
        rw [ha] at hcb
        subst hcb
        obtain ⟨rfl, -⟩ := ho.vol.sole x d (.block m) (.block i) b hx hf hc hb
        exact hreg hxdir
  refine ⟨fun hbit => ?_, ha ▸ hdata.used, hword, fun e he => ?_⟩
  · have hlt := hbit.2
    rw [ha] at hlt
    exact absurd hdata.le (Nat.not_le.2 hlt)
  · rintro (⟨k, -, h45, heq⟩ | ⟨x, hx, hdiv⟩)
    · exact hword e he k (Nat.lt_trans h45 (by decide)) heq
    · rw [ha] at hdiv
      subst hdiv
      exact absurd (ho.vol.sole e f .indirect (.block i) b he hf hx hb).2 Use.noConfusion

/-- **A client writes a word of a file**: one of a block that is no directory's. -/
theorem Kept.write (h : Kept s) (hf : File s f) (hreg : ¬s.IsDir f) (hb : s.blockAt f i = some b)
    (ha : a / blockWords = b) (he : Edit (· = a) s s') : Kept s' ∧ Still s s' := by
  have ho := h.toOwned
  have hdata := ho.data_block hf hb
  obtain ⟨hbit, -, hword, hslots⟩ := ho.data_word hf hreg hb ha
  have hstill : Still s s' := by
    refine he.still ho (fun h1 => ?_) (fun c hbc hc => hbit (hc ▸ hbc)) fun e c hfe hta hc => ?_
    · have hle := hdata.le
      have := reserved_ge s
      rw [← ha, ← h1, show (blockWords + 1) / blockWords = 1 by decide] at hle
      omega
    · subst hc
      rcases hta with ⟨k, -, h45, heq⟩ | ⟨x, j, -, hj, hx, heq⟩
      · exact hword e hfe k (Nat.lt_trans h45 (by decide)) heq
      · exact hslots e hfe (.inr ⟨x, hx, by rw [heq, diskAddr_div x hj]⟩)
  exact ⟨h.still hstill he.mapped fun e hfe => he.view _ fun hc => hword e hfe 45 (by decide) hc.symm, hstill⟩

theorem agree_links (h : Kept s) (hag : s.vol.Agree s'.vol d) (hd : File s d) (hdir : s'.IsDir d)
    (hb : s'.blockAt d i = some b) (hin : Inside b e) : s.IsDir d ∧ s.blockAt d i = some b ∧ File s e := by
  have hdir := hag.dir.1 hdir
  have hb : s.blockAt d i = some b := (congrFun hag.holds (.block i)).symm.trans hb
  exact ⟨hdir, hb, .entry d i b e hd hdir ((h.blockAt_iff hd hdir).2 (by rw [hb]; rfl)) hb hin⟩

/-- **A file gets a block**: no directory does. -/
theorem Kept.extends {U : Use → Prop} (h : Kept s) (hf : File s f) (hreg : ¬s.IsDir f) (hx : Extends f U s s') :
    Kept s' := by
  have ho := h.toOwned
  have hback : ∀ d, File s' d → s'.IsDir d → File s d ∧ s.vol.Agree s'.vol d := by
    intro d hd hdir
    have hd := (hx.file_back d hd).resolve_right fun hc => hc.1 hdir
    refine ⟨hd, hx.others d hd fun hdf => ?_⟩
    subst hdf
    exact hreg (hx.dir.1 hdir)
  have hview : ∀ e, File s e → ∀ k < fileWords, (k < 34 ∨ 45 ≤ k) → s'.view (e + k) = s.view (e + k) := by
    intro e he k hk h34
    obtain ⟨hbit, hused⟩ := ho.word_not_bitmap he hk
    refine hx.edit.view _ ?_
    rintro (hc | ⟨hc, -⟩ | hc)
    · exact hbit hc
    · rw [hused] at hc
      cases hc
    · exact ho.word_not_slot he hf hk (.inr h34) hc
  have hs : Sound s' := by
    refine ⟨hx.owned, fun d hd hdir i => ?_, fun d hd hdir => ?_⟩
    · obtain ⟨hd, hag⟩ := hback d hd hdir
      rw [hag.count, hag.holds]
      exact h.whole d hd (hag.dir.1 hdir) i
    · obtain ⟨hd, hag⟩ := hback d hd hdir
      have hc : s'.nblocks d = s.nblocks d := hag.count
      rw [show s'.view (fSize d) = s.view (fSize d) from hview d hd 32 (by decide) (.inl (by decide)), hc]
      exact h.round d hd (hag.dir.1 hdir)
  refine h.back hs hx.edit.mapped (hview _ .root 45 (by decide) (.inr (Nat.le_refl 45)))
    fun d i b e hd hdir hb hin => ?_
  obtain ⟨hd, hag⟩ := hback d hd hdir
  obtain ⟨hdir, hb, he⟩ := agree_links h hag hd hdir hb hin
  exact .inr (.inr ⟨hd, hdir, hb, hview e he 45 (by decide) (.inr (Nat.le_refl 45))⟩)

/-! ## Another size -/

/-- **A file gets another size and loses blocks**; a directory loses all of them. -/
structure Cutdown (f : Nat) (s s' : Fs) : Prop where
  owned : Owned s'
  edit : Edit (fun a => s.InBitmap a ∨ s.InSlots f a ∨ a = fSize f) s s'
  dir : s'.IsDir f ↔ s.IsDir f
  empty : s.IsDir f → s'.view (fSize f) = 0 ∧ ∀ i, s'.blockAt f i = none
  file_back : ∀ e, File s' e → File s e
  file : ∀ e, File s e → File s' e ∨ s.vol.Below Inside f e

theorem Cutdown.view (h : Cutdown f s s') (ho : Owned s) (hf : File s f) (he : File s e) {k : Nat}
    (hk : k < fileWords) (hne : e ≠ f ∨ (k < 34 ∧ k ≠ 32) ∨ 45 ≤ k) : s'.view (e + k) = s.view (e + k) := by
  refine h.edit.view _ ?_
  rintro (hc | hc | hc)
  · exact (ho.word_not_bitmap he hk).1 hc
  · exact ho.word_not_slot he hf hk (by omega) hc
  · have hef := ho.word_sole he hf hk (show 32 < fileWords by decide) hc
    unfold fSize at hc
    omega

theorem Edit.cut_others (h : Edit (fun a => s.InBitmap a ∨ s.InSlots f a ∨ a = fSize f) s s') (ho : Owned s)
    (hf : File s f) (he : File s e) (hef : e ≠ f) : s.vol.Agree s'.vol e := by
  refine agree_of_view fun a ha => h.view _ ?_
  rintro (hc | hc | rfl)
  · exact (ho.touches_ne he ha).1 hc
  · exact ho.inSlots_ne he hf hef ha hc
  · exact hef (ho.touches_sole he hf ha (touches_size f s))

theorem Cutdown.others (h : Cutdown f s s') (ho : Owned s) (hf : File s f) (he : File s e) (hef : e ≠ f) :
    s.vol.Agree s'.vol e := h.edit.cut_others ho hf he hef

theorem Cutdown.file_self (h : Cutdown f s s') (ho : Owned s) (hf : File s f) : File s' f :=
  (h.file f hf).resolve_right (ho.not_below hf)

/-- The blocks of a directory are among those that `file_truncate` counts. -/
theorem Kept.below_old (h : Kept s) (hf : File s f) (hd : s.IsDir f) (hi : i < s.nblocks f) :
    i < nblocksOf (s.view (fSize f)) := by
  have hround := h.round f hf hd
  obtain ⟨b, hb⟩ := Option.isSome_iff_exists.1
      ((h.blockAt_iff hf hd).1 (Nat.sub_lt (Nat.lt_of_le_of_lt (Nat.zero_le i) hi) Nat.one_pos))
  have hlt := blockAt_lt hb
  have hle : (s.view (fSize f)).toNat ≤ 2 ^ 32 - 4096 := by
    rw [hround]
    unfold nIndirect blockSize pageSize at *
    omega
  rw [nblocksOf_eq, if_pos hle]
  unfold blocksFor
  rw [hround]
  unfold blockSize pageSize
  omega

/-- **A volume of which a file is cut down** is kept. -/
theorem Kept.cut (h : Kept s) (hf : File s f) (hr : Cutdown f s s') : Kept s' := by
  have ho := h.toOwned
  have hs : Sound s' := by
    refine ⟨hr.owned, fun d hd hdir i => ?_, fun d hd hdir => ?_⟩
    · have hd := hr.file_back d hd
      by_cases hdf : d = f
      · subst hdf
        obtain ⟨hsize, hempty⟩ := hr.empty (hr.dir.1 hdir)
        have hnone : s'.vol.holds d (.block i) = none := hempty i
        rw [hnone]
        show i < s'.nblocks d ↔ _
        unfold nblocks
        rw [hsize]
        exact ⟨fun hc => absurd hc (Nat.not_lt_zero i), fun hc => by cases hc⟩
      · have hag := hr.others ho hf hd hdf
        rw [hag.count, hag.holds]
        exact h.whole d hd (hag.dir.1 hdir) i
    · have hd := hr.file_back d hd
      by_cases hdf : d = f
      · subst hdf
        unfold nblocks
        rw [(hr.empty (hr.dir.1 hdir)).1]
        decide
      · have hag := hr.others ho hf hd hdf
        have hc : s'.nblocks d = s.nblocks d := hag.count
        rw [show s'.view (fSize d) = s.view (fSize d) from hr.view ho hf hd (k := 32) (by decide) (.inl hdf), hc]
        exact h.round d hd (hag.dir.1 hdir)
  refine h.back hs hr.edit.mapped (hr.view ho hf .root (k := 45) (by decide) (.inr (.inr (Nat.le_refl 45))))
    fun d i b e hd hdir hb hin => ?_
  have hd := hr.file_back d hd
  by_cases hdf : d = f
  · subst hdf
    rw [(hr.empty (hr.dir.1 hdir)).2] at hb
    cases hb
  · obtain ⟨hdir, hb, he⟩ := agree_links h (hr.others ho hf hd hdf) hd hdir hb hin
    exact .inr (.inr ⟨hd, hdir, hb, hr.view ho hf he (k := 45) (by decide) (.inr (.inr (Nat.le_refl 45)))⟩)

theorem Kept.resized {n : Word} (h : Kept s) (hf : File s f) (hz : s.IsDir f → n = 0) (hr : Resized f n s s') :
    Cutdown f s s' := by
  refine ⟨hr.owned, hr.edit, hr.dir, fun hdir => ⟨hr.size.trans (hz hdir), fun i => ?_⟩, hr.file_back, hr.file⟩
  obtain rfl := hz hdir
  by_cases hgone : s.Lets f 0 CutGone (.block i)
  · exact hr.gone _ hgone
  · refine (hr.keeps _ hgone).trans (Option.not_isSome_iff_eq_none.1 fun hsome => hgone ?_)
    have hi := (h.blockAt_iff hf hdir).2 hsome
    have hpos : 0 < (s.view (fSize f)).toNat := by
      rw [h.round f hf hdir]
      exact Nat.mul_pos (by decide) (Nat.lt_of_le_of_lt (Nat.zero_le i) hi)
    refine ⟨by rwa [BitVec.lt_def], .inl ⟨i, ?_, h.below_old hf hdir hi, rfl⟩⟩
    rw [nblocksOf_zero]
    exact Nat.zero_le i

theorem Kept.shed (h : Kept s) (hf : File s f) (hheld : Held s f)
    (hr : Sheds f (CutFree 0 (nblocksOf (s.view (fSize f)))) (CutGone 0 (nblocksOf (s.view (fSize f)))) s s') :
    Cutdown f s (s'.put (fSize f) 0) := by
  have ho := h.toOwned
  have hempty : s.IsDir f → ∀ i, s'.blockAt f i = none := by
    intro hdir i
    by_cases hgone : CutGone 0 (nblocksOf (s.view (fSize f))) (.block i)
    · exact hr.gone _ hgone
    · refine (hr.keeps _ hgone).trans (Option.not_isSome_iff_eq_none.1 fun hsome => hgone ?_)
      exact .inl ⟨i, Nat.zero_le i, h.below_old hf hdir ((h.blockAt_iff hf hdir).2 hsome), rfl⟩
  have hsized := hr.owned.put_size (hr.file_self ho hf) (hr.edit.held hheld) 0 fun hdir i b hb => by
    rw [hempty (hr.dir.1 hdir)] at hb
    cases hb
  refine ⟨hsized.owned, (hr.edit.mono fun a ha => ha.imp_right .inl).trans
    (hsized.edit.mono fun a ha => .inr (.inr ha)),
    hsized.dir.trans hr.dir,
      fun hdir => ⟨hsized.size, fun i => (congrFun hsized.holds (.block i)).trans (hempty hdir i)⟩,
    fun e he => hr.file_back e (hsized.file_back e he), fun e he => ?_⟩
  rcases hr.file e he with he | he
  · refine (hsized.file e he).imp_right fun hb => ?_
    exact (Volume.below_back (fun m hm => hr.keeps_back ho hf hm) hf hb).1
  · exact .inr he

/-! ## Files that are left alone -/

theorem nameOf_congr (h : ∀ k < 32, s'.view (f + k) = s.view (f + k)) : s'.nameOf f = s.nameOf f := by
  unfold nameOf
  refine congrArg (List.takeWhile _) (List.map_congr_left fun i hi => ?_)
  have hi := List.mem_range.1 hi
  unfold maxNameLen at hi
  unfold fName byteAt
  rw [show (4 * f + i) / 4 = f + i / 4 by omega, h _ (by omega)]

/-- **A file is as it was**: its name, type, size and blocks, and what is in them; what is in the blocks of a
directory are files of their own. -/
structure SameFile (f : Nat) (s s' : Fs) : Prop where
  name : s'.nameOf f = s.nameOf f
  type : s'.view (fType f) = s.view (fType f)
  size : s'.view (fSize f) = s.view (fSize f)
  holds : s'.vol.holds f = s.vol.holds f
  data : ¬s.IsDir f → ∀ i b, s.blockAt f i = some b → ∀ k < blockWords, s'.view (diskAddr b + k) =
    s.view (diskAddr b + k)

theorem SameFile.refl (f : Nat) (s : Fs) : SameFile f s s := ⟨rfl, rfl, rfl, rfl, fun _ _ _ _ _ _ => rfl⟩

theorem SameFile.dir (h : SameFile f s s') : s'.IsDir f ↔ s.IsDir f := iff_of_eq (congrArg (· = ftypeDir) h.type)

theorem SameFile.blockAt (h : SameFile f s s') (i : Nat) : s'.blockAt f i = s.blockAt f i := congrFun h.holds (.block i)

theorem SameFile.nblocks (h : SameFile f s s') : s'.nblocks f = s.nblocks f := by
  unfold Fs.nblocks
  rw [h.size]

theorem SameFile.lookup {n : List (BitVec 8)} (h : SameFile d s s')
    (hnames : ∀ e ∈ s.listing d, s'.nameOf e = s.nameOf e) :
    s'.lookup d n = s.lookup d n := by
  have hlist : s'.listing d = s.listing d := by
    unfold listing
    rw [h.nblocks]
    refine congrArg (List.flatMap · _) (funext fun i => ?_)
    unfold entriesAt
    rw [h.blockAt]
  unfold Fs.lookup
  rw [hlist]
  exact List.find?_congr fun e he => by rw [hnames e he]

/-- **A directory keeps its blocks**, and has at most one more behind them. -/
structure Retains (d : Nat) (s s' : Fs) : Prop where
  blocks : ∀ i < s.nblocks d, s'.blockAt d i = s.blockAt d i
  size : s'.view (fSize d) = s.view (fSize d) ∨ s'.nblocks d = s.nblocks d + 1

theorem SameFile.retained (h : SameFile d s s') : Retains d s s' := ⟨fun i _ => h.blockAt i, .inl h.size⟩

theorem SameFile.retains (h : SameFile d s s') (h' : Retains d s' s'') : Retains d s s'' := by
  refine ⟨fun i hi => (h'.blocks i (h.nblocks.symm ▸ hi)).trans (h.blockAt i), ?_⟩
  rw [← h.size, ← h.nblocks]
  exact h'.size

theorem Retains.same (h : Retains d s s') (h' : SameFile d s' s'') : Retains d s s'' := by
  refine ⟨fun i hi => (h'.blockAt i).trans (h.blocks i hi), ?_⟩
  rw [h'.size, h'.nblocks]
  exact h.size

/-- The words that can be written without a change of the file: those of the bitmap, of free blocks, of other entries
and their slots, and what is behind the slots of its own entry. -/
def Beside (s : Fs) (f a : Nat) : Prop :=
  s.InBitmap a ∨ s.blockIsFree (a / blockWords) = true ∨
    (∃ e, File s e ∧ e ≠ f ∧ (s.InSlots e a ∨ ∃ k < fileWords, a = e + k)) ∨
    ∃ k < fileWords, 45 ≤ k ∧ a = f + k

/-- **What is in a file stays**, whatever its name becomes. -/
structure SameContent (f : Nat) (s s' : Fs) : Prop where
  type : s'.view (fType f) = s.view (fType f)
  size : s'.view (fSize f) = s.view (fSize f)
  holds : s'.vol.holds f = s.vol.holds f
  data : ¬s.IsDir f → ∀ i b, s.blockAt f i = some b → ∀ k < blockWords, s'.view (diskAddr b + k) =
    s.view (diskAddr b + k)

/-- What is in a file stays where no more is written than its name and what is beside it. -/
theorem Edit.content (he : Edit W s s') (ho : Owned s) (hf : File s f)
    (hW : ∀ a, W a → s.Beside f a ∨ ∃ k < 32, a = f + k) :
    SameContent f s s' := by
  have hword : ∀ k, 32 ≤ k → k < 45 → s'.view (f + k) = s.view (f + k) := by
    intro k h32 h45
    have hk : k < fileWords := Nat.lt_trans h45 (by decide)
    obtain ⟨hbit, hused⟩ := ho.word_not_bitmap hf hk
    refine he.view _ fun hw => ?_
    rcases hW _ hw with (hc | hc | ⟨e, hfe, hef, hc | ⟨j, hj, hc⟩⟩ | ⟨j, hj, hle, hc⟩) | ⟨j, hj, hc⟩
    · exact hbit hc
    · rw [hused] at hc
      cases hc
    · exact ho.word_not_slot hf hfe hk (.inl hef.symm) hc
    · exact hef (ho.word_sole hf hfe hk hj hc).symm
    · omega
    · omega
  have hagree : s.vol.Agree s'.vol f := by
    refine agree_of_view fun a hta => ?_
    rcases hta with ⟨k, h32, h45, rfl⟩ | ⟨b, i, h10, hi, hb, rfl⟩
    · exact hword k h32 h45
    · have hta : Touches s f (diskAddr b + i) := .inr ⟨b, i, h10, hi, hb, rfl⟩
      have hdata := ho.data_indirect hf hb
      refine he.view _ fun hw => ?_
      rcases hW _ hw with (hc | hc | ⟨e, hfe, hef, hc | ⟨j, hj, hc⟩⟩ | ⟨j, hj, hle, hc⟩) | ⟨j, hj, hc⟩
      · exact (ho.touches_ne hf hta).1 hc
      · rw [diskAddr_div b hi, hdata.used] at hc
        cases hc
      · exact ho.inSlots_ne hf hfe hef.symm hta hc
      · exact ho.entry_ne_indirect hfe hf hj hi hb hc.symm
      · exact ho.entry_ne_indirect hf hf hj hi hb hc.symm
      · exact ho.entry_ne_indirect hf hf (Nat.lt_trans hj (by decide)) hi hb hc.symm
  refine ⟨hword 33 (by decide) (by decide), hword 32 (by decide) (by decide), hagree.holds, fun hreg i b hb k hk =>
    he.view _ fun hw => ?_⟩
  obtain ⟨hbit, hused, hwords, hslots⟩ := ho.data_word hf hreg hb (diskAddr_div b hk)
  rcases hW _ hw with (hc | hc | ⟨e, hfe, -, hc | ⟨j, hj, hc⟩⟩ | ⟨j, hj, -, hc⟩) | ⟨j, hj, hc⟩
  · exact hbit hc
  · rw [hused] at hc
    cases hc
  · exact hslots e hfe hc
  · exact hwords e hfe j hj hc
  · exact hwords f hf j hj hc
  · exact hwords f hf j (Nat.lt_trans hj (by decide)) hc

/-- **A file is left alone** by what is written beside it. -/
theorem Edit.same (he : Edit W s s') (ho : Owned s) (hf : File s f) (hW : ∀ a, W a → s.Beside f a) :
    SameFile f s s' := by
  have hc := he.content ho hf fun a ha => .inl (hW a ha)
  refine ⟨nameOf_congr fun k hk => ?_, hc.type, hc.size, hc.holds, hc.data⟩
  have hk' : k < fileWords := Nat.lt_trans hk (by decide)
  obtain ⟨hbit, hused⟩ := ho.word_not_bitmap hf hk'
  refine he.view _ fun hw => ?_
  rcases hW _ hw with hc | hc | ⟨e, hfe, hef, hc | ⟨j, hj, hc⟩⟩ | ⟨j, hj, hle, hc⟩
  · exact hbit hc
  · rw [hused] at hc
    cases hc
  · exact ho.word_not_slot hf hfe hk' (.inl hef.symm) hc
  · exact hef (ho.word_sole hf hfe hk' hj hc).symm
  · omega

namespace SameContent

theorem dir (h : SameContent f s s') : s'.IsDir f ↔ s.IsDir f := iff_of_eq (congrArg (· = ftypeDir) h.type)

theorem trans (h : SameContent f s s') (h' : SameContent f s' s'') : SameContent f s s'' := by
  refine ⟨h'.type.trans h.type, h'.size.trans h.size, h'.holds.trans h.holds, fun hreg i b hb k hk => ?_⟩
  exact (h'.data (mt h.dir.1 hreg) i b ((congrFun h.holds (.block i)).trans hb) k hk).trans (h.data hreg i b hb k hk)

end SameContent

theorem SameFile.content (h : SameFile f s s') : SameContent f s s' := ⟨h.type, h.size, h.holds, h.data⟩

theorem SameFile.trans (h : SameFile f s s') (h' : SameFile f s' s'') : SameFile f s s'' :=
  have hc := h.content.trans h'.content
  ⟨h'.name.trans h.name, hc.type, hc.size, hc.holds, hc.data⟩

end Fs

end Mos
