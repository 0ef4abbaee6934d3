import Mathlib.Data.List.Nodup
import Mos.FsSlots
/-!
# FsGrow — a file gets a block

`file_map_block` with `alloc` set attaches a block where there is none, and the indirect block before it if need be. 
What it leaves `Extends` what was there: everything held stays held, the other files are the same, and the blocks that
the file has got were free.  An indirect block must not have a stale page, and a block of a directory neither.
-/
namespace Mos

open Fallible FilePtr

namespace Fs

variable {s s' s'' : Fs} {e f a b i : Nat} {u w : Use} {W : Nat → Prop}

/-! ## Nothing happens to the files -/

/-- **The files are as they were.** -/
structure Still (s s' : Fs) : Prop where
  owned : Owned s'
  sNblocks : s'.sNblocks = s.sNblocks
  free : ∀ c, s'.blockIsFree c = s.blockIsFree c
  view : ∀ e a, File s e → Touches s e a → s'.view a = s.view a
  file : ∀ e, File s' e ↔ File s e

namespace Still

theorem agree (h : Still s s') (he : File s e) : s.vol.Agree s'.vol e := agree_of_view fun a ha => h.view e a he ha

theorem size (h : Still s s') (he : File s e) : s'.view (fSize e) = s.view (fSize e) :=
  h.view e _ he (.inl ⟨32, by decide, by decide, rfl⟩)

theorem sound (h : Still s s') (hs : Sound s) : Sound s' := by
  refine ⟨h.owned, fun d hd hdir i => ?_, fun d hd hdir => ?_⟩
  · have hd := (h.file d).1 hd
    have ha := h.agree hd
    rw [ha.count, ha.holds]
    exact hs.whole d hd (ha.dir.1 hdir) i
  · have hd := (h.file d).1 hd
    have ha := h.agree hd
    have hc : s'.nblocks d = s.nblocks d := ha.count
    rw [h.size hd, hc]
    exact hs.round d hd (ha.dir.1 hdir)

end Still

theorem Edit.free_congr {V : Nat → Prop} (h : Edit V s s') (hview : ∀ a, ¬W a → s'.view a = s.view a) (hu : Up s)
    (h1 : ¬W (blockWords + 1)) (hbit : ∀ a, s.InBitmap a → ¬W a) :
    s'.sNblocks = s.sNblocks ∧ ∀ c, s'.blockIsFree c = s.blockIsFree c := by
  have hn : s'.sNblocks = s.sNblocks := by
    have hm : s.mapped ((blockWords + 1) / blockWords) = true := by
      rw [show (blockWords + 1) / blockWords = 1 by decide]
      exact hu.super_mapped
    unfold sNblocks
    rw [mem_eq_view (h.mapped _ hm), mem_eq_view hm, hview _ h1]
  refine ⟨hn, fun c => ?_⟩
  unfold blockIsFree
  rw [hn, h.super]
  by_cases hc : c < s.sNblocks
  · have hm := hu.bitmap_mapped hc
    rw [mem_eq_view (h.mapped _ hm), mem_eq_view hm, hview _ (hbit _ (inBitmap_word hc))]
  · rw [decide_eq_false hc, Bool.and_false, Bool.false_and, Bool.false_and]

/-- **A change of other words leaves the files alone**: those of `V` at most. -/
theorem Edit.still_of {V : Nat → Prop} (h : Edit V s s') (hview : ∀ a, ¬W a → s'.view a = s.view a) (ho : Owned s)
    (h1 : ¬W (blockWords + 1)) (hbit : ∀ a, s.InBitmap a → ¬W a) (htouch : ∀ e a, File s e → Touches s e a → ¬W a) :
    Still s s' := by
  obtain ⟨hn, hfree⟩ := h.free_congr hview ho.up h1 hbit
  have hview : ∀ e a, File s e → Touches s e a → s'.view a = s.view a := fun e a he ha => hview a (htouch e a he ha)
  have hagree : ∀ e, File s e → s.vol.Agree s'.vol e := fun e he => agree_of_view fun a ha => hview e a he ha
  have hfile : ∀ e, File s' e ↔ File s e := fun e =>
    ⟨Volume.node_back fun n hn => (hagree n hn).keeps_back, Volume.node_mono fun n hn => (hagree n hn).keeps⟩
  have hr : s'.reserved = s.reserved := by
    unfold reserved
    rw [hn]
  refine ⟨⟨h.up hn ho.up, hn ▸ ho.small, fun c hc => ?_, ho.vol.step (x := sRoot) (T := fun _ _ => False)
    (fun n w c hn hc => ?_)
    (fun _ _ _ h => h.elim) (fun _ _ h => h.elim) (fun n w c hn' hc => ?_)⟩, hn, hfree, hview, hfile⟩
  · rw [hfree]
    exact ho.low c (hr ▸ hc)
  · have hn := (hfile n).1 hn
    rw [(hagree n hn).holds] at hc
    exact .inl ⟨hn, hc⟩
  · have hn' := (hfile n).1 hn'
    rw [(hagree n hn').holds] at hc
    have hd : Data s c := ho.vol.used n w c hn' hc
    exact hd.of_free hn ((hfree c).trans hd.used)

theorem Edit.still (h : Edit W s s') (ho : Owned s) (h1 : ¬W (blockWords + 1)) (hbit : ∀ a, s.InBitmap a → ¬W a)
    (htouch : ∀ e a, File s e → Touches s e a → ¬W a) : Still s s' := h.still_of h.view ho h1 hbit htouch

theorem Still.refl (ho : Owned s) : Still s s := ⟨ho, rfl, fun _ => rfl, fun _ _ _ _ => rfl, fun _ => Iff.rfl⟩

/-! ## The free blocks -/

/-- **The next free blocks have no stale pages.** -/
def Clean (s : Fs) (n : Nat) : Prop := ∀ b ∈ s.freeBlocks.take n, s.Blank b

theorem freeBlocks_eq (hs : s.super = true) : s.freeBlocks = (List.range' 3 (s.sNblocks - 3)).filter s.blockIsFree := by
  refine List.filter_congr fun b hb => ?_
  have hlt : b < s.sNblocks := by
    have := (List.mem_range'_1.1 hb)
    omega
  unfold blockIsFree
  rw [hs, decide_eq_true hlt, Bool.true_and, Bool.true_and]

theorem freeBlocks_congr (hs : s.super = true) (hs' : s'.super = true) (hn : s'.sNblocks = s.sNblocks)
    (hfree : ∀ c, s'.blockIsFree c = s.blockIsFree c) : s'.freeBlocks = s.freeBlocks := by
  rw [freeBlocks_eq hs, freeBlocks_eq hs', hn]
  exact List.filter_congr fun b _ => hfree b

theorem mem_take_of_head {l : List Nat} {n : Nat} (h : (l.drop n).head? = some b) : b ∈ l.take (1 + n) := by
  obtain ⟨rest, hrest⟩ := List.head?_eq_some_iff.1 h
  rw [Nat.add_comm, List.take_add, hrest]
  exact List.mem_append_right _ List.mem_cons_self

theorem Attached.freeBlocks (h : Attached f u b s s') (hu : Up s) {rest : List Nat} (hb : s.freeBlocks = b :: rest) :
    s'.freeBlocks = rest := by
  have hnodup : s.freeBlocks.Nodup := List.Nodup.filter _ List.nodup_range'
  rw [hb] at hnodup
  have hrest : ∀ c ∈ rest, (!decide (c = b)) = true := by
    intro c hc
    have hne : c ≠ b := fun h => (List.nodup_cons.1 hnodup).1 (h ▸ hc)
    rw [decide_eq_false hne]
    rfl
  rw [freeBlocks_eq (h.edit.super.trans hu.super), h.sNblocks]
  have hfilter : (List.range' 3 (s.sNblocks - 3)).filter s'.blockIsFree = s.freeBlocks.filter fun c =>
      !decide (c = b) := by
    rw [freeBlocks_eq hu.super, List.filter_filter]
    refine List.filter_congr fun c _ => ?_
    rw [h.free, Bool.and_comm]
  rw [hfilter, hb, List.filter_cons_of_neg (by simp), List.filter_eq_self.2 hrest]

theorem Owned.inSlots_used (ho : Owned s) (hf : File s f) (ha : s.InSlots f a) :
    s.blockIsFree (a / blockWords) = false := by
  rcases ha with ⟨k, h34, h45, rfl⟩ | ⟨b, hb, rfl⟩
  · exact (ho.touches_ne hf (.inl ⟨k, by omega, h45, rfl⟩)).2
  · exact (ho.data_indirect hf hb).used

/-! ## A file gets blocks -/

/-- **The file has got blocks that were free**, in slots of `U` that were empty. -/
structure Extends (f : Nat) (U : Use → Prop) (s s' : Fs) : Prop where
  owned : Owned s'
  edit : Edit (fun a =>
    s.InBitmap a ∨ (s.blockIsFree (a / blockWords) = true ∧ s'.blockIsFree (a / blockWords) = false) ∨
    s.InSlots f a) s s'
  sNblocks : s'.sNblocks = s.sNblocks
  read : ∀ c, s'.mapped c = true → s.mapped c = true ∨ s'.blockIsFree c = false
  free : ∀ c, s'.blockIsFree c = true → s.blockIsFree c = true
  keeps : ∀ w b, s.vol.holds f w = some b → s'.vol.holds f w = some b
  fresh : ∀ w b, s'.vol.holds f w = some b → s.vol.holds f w = some b ∨
    (U w ∧ s.blockIsFree b = true ∧ s'.blockIsFree b = false)
  dir : s'.IsDir f ↔ s.IsDir f
  size : s'.view (fSize f) = s.view (fSize f)
  others : ∀ e, File s e → e ≠ f → s.vol.Agree s'.vol e
  file : ∀ e, File s e → File s' e
  file_back : ∀ e, File s' e → File s e ∨ (¬s'.IsDir e ∧ ∀ w, s'.vol.holds e w = none)
  /-- Where no page is refused, only the blocks that are taken and the slots that are filled are not as secure. -/
  secure : Calm s s' → ∀ a, (s.blockIsFree (a / blockWords) = true → s'.blockIsFree (a / blockWords) = true) →
    (∀ u, U u → s.vol.holds f u = none → s.slotWord f u ≠ some a) → s.Secure a → s'.Secure a

theorem Calm.left (h : Calm s s'') (h₂ : s''.pages <:+ s'.pages) : Calm s s' := by
  obtain ⟨l₂, h₂⟩ := h₂
  intro l hl hmem
  refine h (l ++ l₂) ?_ (List.mem_append_left l₂ hmem)
  rw [hl, List.append_assoc, h₂]

theorem Calm.right (h : Calm s s'') (h₁ : s'.pages <:+ s.pages) : Calm s' s'' := by
  obtain ⟨l₁, h₁⟩ := h₁
  intro l hl hmem
  refine h (l₁ ++ l) ?_ (List.mem_append_right l₁ hmem)
  rw [← h₁, hl, List.append_assoc]

namespace Extends

variable {U : Use → Prop}

theorem of_still (h : Still s s') (hf : File s f) (he : Edit s.InBitmap s s')
    (hs : Calm s s' → ∀ a, s.Secure a → s'.Secure a)
    (hr : ∀ c, s'.mapped c = true → s.mapped c = true ∨ s.blockIsFree c = false) : Extends f U s s' := by
  have ha := h.agree hf
  refine ⟨h.owned, he.mono fun _ => .inl, h.sNblocks, fun c hc => ?_,
    fun c hc => (h.free c).symm.trans hc, fun w b hb => ?_,
    fun w b hb => ?_, ha.dir, h.size hf, fun e he _ => h.agree he, fun e => (h.file e).2,
      fun e he => .inl ((h.file e).1 he),
    fun hc a _ _ => hs hc a⟩
  · rw [h.free]
    exact hr c hc
  · rw [ha.holds]
    exact hb
  · rw [ha.holds] at hb
    exact .inl hb

/-- Of the words of a file's slots afterwards, each was one before, or is in a block it has got. -/
theorem inSlots (h : Extends f U s s') (ha : s'.InSlots f a) : s.InSlots f a ∨
    (s.blockIsFree (a / blockWords) = true ∧ s'.blockIsFree (a / blockWords) = false) := by
  rcases ha with hk | ⟨b, hb, rfl⟩
  · exact .inl (.inl hk)
  · exact (h.fresh .indirect _ hb).imp (fun hb => .inr ⟨_, hb, rfl⟩) fun h => h.2

theorem trans (h : Extends f U s s') (h' : Extends f U s' s'') (hf : File s f) : Extends f U s s'' := by
  have hgone : ∀ c, s'.blockIsFree c = false → s''.blockIsFree c = false := fun c hc => by
    refine Bool.eq_false_iff.2 fun hc' => ?_
    rw [h'.free c hc'] at hc
    cases hc
  have hres : s'.reserved = s.reserved := by
    unfold reserved
    rw [h.sNblocks]
  refine ⟨h'.owned, (h.edit.mono fun a ha => ?_).trans (h'.edit.mono fun a ha => ?_),
    h'.sNblocks.trans h.sNblocks, fun c hc => ?_,
    fun c hc => h.free c (h'.free c hc), fun w b hb => h'.keeps w b (h.keeps w b hb), fun w b hb => ?_,
      h'.dir.trans h.dir,
    h'.size.trans h.size, fun e he hef => (h.others e he hef).trans (h'.others e (h.file e he) hef),
    fun e he => h'.file e (h.file e he), fun e he => ?_, fun hc a hfree hslot hs => ?_⟩
  · exact ha.imp_right fun ha => ha.imp_left fun ha => ⟨ha.1, hgone _ ha.2⟩
  · rcases ha with ha | ⟨ha, ha'⟩ | ha
    · exact .inl ⟨ha.1, hres ▸ ha.2⟩
    · exact .inr (.inl ⟨h.free _ ha, ha'⟩)
    · exact .inr ((h.inSlots ha).symm.imp_left fun ha => ⟨ha.1, hgone _ ha.2⟩)
  · exact (h'.read c hc).elim (fun hc => (h.read c hc).imp_right (hgone c)) .inr
  · rcases h'.fresh w b hb with hb | ⟨hu, hb, hb'⟩
    · exact (h.fresh w b hb).imp_right fun ⟨hu, hb, hb'⟩ => ⟨hu, hb, hgone b hb'⟩
    · exact .inr ⟨hu, h.free b hb, hb'⟩
  · rcases h'.file_back e he with he' | hblank
    · rcases h.file_back e he' with he | ⟨hdir, hnone⟩
      · exact .inl he
      · by_cases hef : e = f
        · exact .inl (hef ▸ hf)
        · have ha := h'.others e he' hef
          refine .inr ⟨fun hd => hdir (ha.dir.1 hd), fun w => ?_⟩
          rw [ha.holds]
          exact hnone w
    · exact .inr hblank
  · have hfree' : s.blockIsFree (a / blockWords) = true → s'.blockIsFree (a / blockWords) = true :=
      fun hb => h'.free _ (hfree hb)
    refine h'.secure (hc.right h.edit.pages) a (fun hb => hfree (h.free _ hb)) (fun u hu hnone heq => ?_)
      (h.secure (hc.left h'.edit.pages) a hfree' hslot hs)
    -- a slot that is empty still was empty before, or is in the new indirect block
    have hempty : s.vol.holds f u = none := by
      cases hb : s.vol.holds f u with
      | none => rfl
      | some b => exact (h.keeps u b hb).symm.trans hnone
    rcases slotWord_cases heq with ⟨k, -, -, rfl, hk⟩ | ⟨c, i, rfl, h10, hi, hind, rfl⟩
    · refine hslot u hu hempty ?_
      rcases hk with ⟨rfl, rfl⟩ | ⟨i, rfl, hi, rfl⟩
      · rfl
      · exact (slot_direct hi s).trans (congrArg some (Nat.add_assoc f 34 i))
    · rcases h.fresh .indirect c hind with hind | ⟨-, hcf, hcf'⟩
      · refine hslot _ hu hempty ?_
        rw [slot_indirect (Nat.not_lt.2 h10), if_pos hi]
        exact congrArg (Option.map fun b => diskAddr b + i) hind
      · rw [diskAddr_div c hi, hcf] at hfree'
        rw [hfree' rfl] at hcf'
        cases hcf'

/-- **A block that has been attached.** -/
theorem of_attached (h : Attached f u b s s') (ho : Owned s) (hblank : Grows s f u → s.Blank b) (hu : U u) :
    Extends f U s s' := by
  have hb : s'.blockIsFree b = false := by rw [h.free, decide_eq_true rfl, Bool.not_true, Bool.and_false]
  refine ⟨h.owned ho hblank, h.edit.mono fun a ha => ?_, h.sNblocks, fun c hc => ?_, fun c hc => ?_,
    fun w c hc => ?_, fun w c hc => ?_, h.dir, h.size, h.others, fun e => h.file, fun e he =>
    (h.file_back hblank he).imp_right fun h => h.2.2, fun _ a hfree hslot => h.secure a ?_ (hslot u hu h.empty)⟩
  · refine ha.imp_right fun ha => ha.imp_left ?_
    rintro rfl
    exact ⟨h.was, hb⟩
  · refine (h.read c hc).imp_right ?_
    rintro rfl
    exact hb
  · rw [h.free, Bool.and_eq_true] at hc
    exact hc.1
  · rw [h.holds]
    by_cases hwu : w = u
    · rw [hwu, h.empty] at hc
      cases hc
    · rw [if_neg hwu]
      exact hc
  · rcases h.holds_of_ne hc with ⟨rfl, rfl⟩ | hc
    · exact .inr ⟨hu, h.was, hb⟩
    · exact .inl hc
  · rintro rfl
    rw [hfree h.was] at hb
    cases hb

theorem same (h : Extends f U s s') (hw : ¬U w) : s'.vol.holds f w = s.vol.holds f w := by
  refine Option.ext fun b => ⟨fun hb => ?_, h.keeps w b⟩
  exact (h.fresh w b hb).resolve_right fun hu => hw hu.1

theorem mono {V : Use → Prop} (h : Extends f U s s') (hu : ∀ w, U w → V w) : Extends f V s s' :=
  ⟨h.owned, h.edit, h.sNblocks, h.read, h.free, h.keeps, fun w b hb => (h.fresh w b hb).imp_right
    fun hn => ⟨hu w hn.1, hn.2⟩, h.dir,
    h.size, h.others, h.file, h.file_back, fun hc a hfree hslot => h.secure hc a hfree fun u hv => hslot u (hu u hv)⟩

/-- **What is still free has in it what it had.** -/
theorem leftover (h : Extends f U s s') (ho : Owned s) (hf : File s f) {c k : Nat} (hc : s'.blockIsFree c = true)
    (hk : k < blockWords) : s'.leftover c k = s.leftover c k := by
  have hcs := h.free c hc
  have hdiv := diskAddr_div c hk
  unfold Fs.leftover
  by_cases hm : s.mapped c = true
  · have hm' := h.edit.mapped c hm
    rw [if_pos hm, if_pos hm', mem_eq_view (hdiv.symm ▸ hm'), mem_eq_view (hdiv.symm ▸ hm)]
    refine h.edit.view _ ?_
    rintro (hbit | ⟨-, hused⟩ | hslot)
    · have hlt := hbit.2
      rw [hdiv] at hlt
      exact absurd hlt (Nat.not_lt.2 (ho.free_le hcs))
    · rw [hdiv, hc] at hused
      cases hused
    · have hused := ho.inSlots_used hf hslot
      rw [hdiv, hcs] at hused
      cases hused
  · have hm' : ¬s'.mapped c = true := fun hm' => (h.read c hm').elim hm fun hused => by
      rw [hc] at hused
      cases hused
    rw [if_neg hm, if_neg hm']

/-- **The free blocks that are left are as clean as before.** -/
theorem clean (h : Extends f U s s') (ho : Owned s) (hf : File s f) {n m : Nat}
    (hsub : s'.freeBlocks.take n ⊆ s.freeBlocks.take m) (hc : s.Clean m) : s'.Clean n := by
  intro c hcn k hk
  have hfree := ((mem_freeBlocks h.owned.up.super).1 (List.mem_of_mem_take hcn)).2
  rw [h.leftover ho hf hfree hk]
  exact hc c (hsub hcn) k hk

end Extends

/-! ## What gets to the disk -/

/-- **The words but those of `U` are as secure as they were**, and the super block begins as it did. -/
structure Saves (U : Nat → Prop) (s s' : Fs) : Prop where
  secure : ∀ a, ¬U a → s.Secure a → s'.Secure a
  head : ∀ a < sRoot, s'.view a = s.view a

namespace Saves

variable {V : Nat → Prop}

theorem refl (s : Fs) (U : Nat → Prop) : Saves U s s := ⟨fun _ _ h => h, fun _ _ => rfl⟩

theorem trans (h : Saves W s s') (h' : Saves W s' s'') : Saves W s s'' :=
  ⟨fun a ha hs => h'.secure a ha (h.secure a ha hs), fun a ha => (h'.head a ha).trans (h.head a ha)⟩

theorem mono (h : Saves W s s') (hw : ∀ a, W a → V a) : Saves V s s' :=
  ⟨fun a ha => h.secure a fun hwa => ha (hw a hwa), h.head⟩

theorem sNblocks (h : Saves W s s') (hu : Up s) (hu' : Up s') : s'.sNblocks = s.sNblocks := by
  unfold Fs.sNblocks
  rw [mem_eq_view hu'.super_mapped, mem_eq_view hu.super_mapped, h.head _ (by decide)]

theorem of_edit (h : Edit W s s') (hW : ∀ a, W a → sRoot ≤ a) : Saves W s s' :=
  ⟨h.secure, fun a ha => h.view a fun hw => absurd (hW a hw) (Nat.not_le.2 ha)⟩

end Saves

theorem above_of_block (h : 2 ≤ a / blockWords) : sRoot ≤ a := by
  unfold sRoot
  unfold blockWords at *
  omega

theorem Owned.file_above (ho : Owned s) (hf : File s f) (k : Nat) : sRoot ≤ f + k := by
  refine Nat.le_trans ?_ (Nat.le_add_right f k)
  rcases hf.home with rfl | ⟨d, i, b, j, hd, hb, hj, rfl⟩
  · exact Nat.le_refl _
  · have hword := entry_word (b := b) hj (show 0 < fileWords by decide)
    have hdata := ho.data_block hd hb
    refine above_of_block (Nat.le_trans (by decide) (Nat.le_trans (reserved_ge s) ?_))
    rw [Nat.add_zero] at hword
    rw [hword]
    exact hdata.le

theorem Owned.slots_above (ho : Owned s) (hf : File s f) (ha : s.InSlots f a) : sRoot ≤ a := by
  rcases ha with ⟨k, -, -, rfl⟩ | ⟨b, hb, rfl⟩
  · exact ho.file_above hf k
  · exact above_of_block (Nat.le_trans (by decide) (Nat.le_trans (reserved_ge s) (ho.data_indirect hf hb).le))

theorem Owned.free_above (ho : Owned s) (ha : s.blockIsFree (a / blockWords) = true) : sRoot ≤ a :=
  above_of_block (Nat.le_trans (by decide) (Nat.le_trans (reserved_ge s) (ho.free_le ha)))

end Fs

open Fs

/-! ## `file_get_block` -/

/-- **Why a block could not be got**, where `n` blocks were wanted. -/
def GetFails (s : Fs) (i n : Nat) (e : Int) : Prop :=
  (e = -eNoDisk ∧ s.freeBlocks.length < n) ∨ (e = -eNoMem ∧ false ∈ s.pages) ∨ (e = -eInval ∧ nIndirect ≤ i)

variable {s s' : Fs} {f i a b : Nat} {u : Use} {U : Use → Prop}

theorem quiet_extends (ho : Owned s) (hf : File s f) (he : Edit (fun _ => False) s s')
    (hr : ∀ c, s'.mapped c = true → s.mapped c = true ∨ s.blockIsFree c = false) : Extends f U s s' :=
  .of_still (he.still ho id (fun _ _ => id) fun _ _ _ _ => id) hf (he.mono fun _ => False.elim)
    (fun _ a => he.secure a id) hr

/-- **A block is allocated and put into a slot.** -/
theorem allocInto_spec {β : Type} (ho : Owned s) (hf : File s f) (ha : s.slotWord f u = some a)
    (hm : s.mapped (a / blockWords) = true) (hnone : s.vol.holds f u = none) (hu : U u)
    (hblank : u = .indirect ∨ Grows s f u → s.Clean 1) (k : Nat → Unit → FsM β) :
    (∃ b rest s', s.freeBlocks = b :: rest ∧ s'.freeBlocks = rest ∧ Attached f u b s s' ∧ Extends f U s s' ∧
        s'.mem a = BitVec.ofNat 32 b ∧
          (allocBlock >>= fun r => storeWord a (BitVec.ofNat 32 r) >>= k r) s = k b () s') ∨
      ∃ e s', (allocBlock >>= fun r => storeWord a (BitVec.ofNat 32 r) >>= k r) s =
        some (.error e, s') ∧ GetFails s i 1 e ∧
        Extends f U s s' ∧ s'.vol.holds f = s.vol.holds f := by
  rcases allocBlock_spec ho
      with ⟨hfb, hrun⟩ | ⟨b, rest, hfb, ⟨s₁, hrun, ht⟩ | ⟨-, hpages, s₁, hrun, he, hview, hrefused, hmap⟩⟩
  · refine .inr ⟨_, s, bind_of_error hrun, .inl ⟨rfl, ?_⟩, quiet_extends ho hf (.refl s _) fun _ => .inl, rfl⟩
    rw [hfb]
    exact Nat.zero_lt_one
  · have hb : u = .indirect ∨ Grows s f u → s.Blank b := fun hg => hblank hg b (by rw [hfb]; exact List.mem_cons_self)
    have hatt := ht.attach ho hf ha hm hnone fun hi => hb (.inl hi)
    refine .inl ⟨b, rest, _, hfb, hatt.freeBlocks ho.up hfb, hatt,
      .of_attached hatt ho (fun hg => hb (.inr hg)) hu, ?_, ?_⟩
    · rw [put_mem, Function.update_self]
    · rw [bind_of_ok hrun]
      rfl
  · have hstill : Still s s₁ :=
      he.still_of (W := fun _ => False) (fun a _ => hview a) ho id (fun _ _ => id) fun _ _ _ _ => id
    exact .inr ⟨_, s₁, bind_of_error hrun, .inr (.inl ⟨rfl, hpages⟩),
      .of_still hstill hf he (fun hc => absurd hc hrefused) fun c hc => .inl (hmap ▸ hc), (hstill.agree hf).holds⟩

/-- Whether the file lacks the indirect block for an index. -/
def Fs.wants (s : Fs) (f i : Nat) : Nat := if nDirect ≤ i ∧ s.indirect f = none then 1 else 0

theorem Fs.Owned.loads {B : Nat → Prop} (ho : Owned s) (hf : File s f) (hl : Loads B s s')
    (hb : ∀ c, B c → s.blockIsFree c = false) :
    Extends f U s s' ∧ s'.freeBlocks = s.freeBlocks := by
  obtain ⟨hn, hup, hfree⟩ := hl.up ho.up
  exact ⟨quiet_extends ho hf (.of_loads hl) fun c hc => (hl.read c hc).imp_right (hb c),
    freeBlocks_congr ho.up.super hup.super hn hfree⟩

/-- The slot that walking to a slot may fill. -/
def Use.Before (i : Nat) (w : Use) : Prop := nDirect ≤ i ∧ w = .indirect

/-- The slots that getting a block may fill. -/
def Use.Of (i : Nat) (w : Use) : Prop := Use.Before i w ∨ w = .block i

/-- **The words that getting a block may change**: the slots that are empty, and what free blocks have in them. -/
def Fs.Gets (s : Fs) (f i a : Nat) : Prop :=
  s.blockIsFree (a / blockWords) = true ∨ ∃ u, Use.Of i u ∧ s.vol.holds f u = none ∧ s.slotWord f u = some a

theorem Fs.Gets.congr (hfree : ∀ c, s'.blockIsFree c = s.blockIsFree c) (hholds : s'.vol.holds f = s.vol.holds f) :
    s'.Gets f i a ↔ s.Gets f i a := by
  unfold Gets
  rw [hfree, hholds]
  refine or_congr_right (exists_congr fun u => ?_)
  rw [slotWord_congr (congrFun hholds .indirect) u]

/-- **`file_block_walk`**, with `alloc` set. -/
theorem fileBlockWalk_alloc (ho : Owned s) (hf : File s f) (hheld : Held s f)
    (hclean : nDirect ≤ i → s.indirect f = none → s.Clean 1) :
    ∃ r s', fileBlockWalk f i true s = some (r, s') ∧ Extends f (Use.Before i) s s' ∧
      ((∃ a, r = .ok a ∧ s'.slotWord f (.block i) = some a ∧ s'.mapped (a / blockWords) = true ∧
          s'.freeBlocks = s.freeBlocks.drop (s.wants f i)) ∨ ∃ e, r = .error e ∧ GetFails s i 1 e) := by
  have hrefl : Extends f (Use.Before i) s s := quiet_extends ho hf (.refl s _) fun _ => .inl
  have hind44 : s.mapped (fIndirect f / blockWords) = true := hheld 44 (by decide)
  by_cases h₁ : i < nDirect
  · have hw : s.wants f i = 0 := if_neg fun h => Nat.not_lt.2 h.1 h₁
    have hk : s.mapped ((f + (34 + i)) / blockWords) = true :=
      hheld (34 + i) (Nat.lt_trans (Nat.add_lt_add_left (show i < 10 from h₁) 34) (by decide))
    rw [← Nat.add_assoc] at hk
    refine ⟨.ok (fDirect f i), s, ?_, hrefl, .inl ⟨_, rfl, slot_direct h₁ s, hk, by rw [hw]; rfl⟩⟩
    unfold fileBlockWalk
    rw [if_pos h₁]
    rfl
  · by_cases h₂ : i < nIndirect
    · cases hind : s.indirect f with
      | some b =>
        have hslot : s.slotWord f (.block i) = some (diskAddr b + i) := by rw [slot_indirect h₁, if_pos h₂, hind]; rfl
        have hd : Data s b := ho.data_indirect hf hind
        have hw : s.wants f i = 0 := if_neg fun h => absurd h.2 (hind ▸ Option.some_ne_none b)
        have hidata : ∀ c, nDirect ≤ i → s.indirect f = some c → Data s c := fun c _ hc => ho.data_indirect hf hc
        obtain ⟨r, s', hrun, hl, hres⟩ := fileBlockWalk_spec hheld hslot hidata true
        have hused : ∀ c, s.BlockOf f i c → s.blockIsFree c = false := fun c hc =>
          (hc.elim (ho.data_block hf) fun hc => ho.data_indirect hf hc.2).used
        obtain ⟨hext, hfb⟩ := ho.loads (U := Use.Before i) hf hl hused
        refine ⟨r, s', hrun, hext, hres.imp ?_ fun hout => ⟨_, hout.1, .inr (.inl ⟨rfl, hout.2.1⟩)⟩⟩
        rintro ⟨a, rfl, rfl, hm⟩
        exact ⟨_, rfl, (slotWord_congr (hl.indirect f) _).trans hslot, hm, by rw [hw, hfb]; rfl⟩
      | none =>
        have hw : s.wants f i = 1 := if_pos ⟨Nat.not_lt.1 h₁, hind⟩
        have h0 : s.mem (fIndirect f) = 0 := by
          rw [mem_eq_view hind44]
          by_contra hne
          exact Option.some_ne_none _ ((if_neg hne).symm.trans hind)
        have hrun : fileBlockWalk f i true s =
            (allocBlock >>= fun r => storeWord (fIndirect f) (BitVec.ofNat 32 r) >>= fun _ =>
            loadWord (fIndirect f) >>= fun r => readBlock r.toNat >>= fun _ => pure (diskAddr r.toNat + i)) s := by
          unfold fileBlockWalk
          rw [if_neg h₁, if_pos h₂,
            bind_of_ok (show loadWord (fIndirect f) s = some (.ok (s.mem (fIndirect f)), s) from rfl),
            if_pos h0]
          rfl
        rw [hrun]
        rcases allocInto_spec (i := i) (U := Use.Before i) ho hf (u := .indirect) rfl hind44 hind ⟨Nat.not_lt.1 h₁, rfl⟩
          (fun _ => hclean (Nat.not_lt.1 h₁) hind) (fun _ _ => loadWord (fIndirect f) >>= fun r =>
            readBlock r.toNat >>= fun _ =>
            pure (diskAddr r.toNat + i)) with ⟨b, rest, s₁, hfb, hrest, hatt, hext, hmem, hk⟩ | ⟨e, s₁,
              hk, hfail, hext, -⟩
        · have hb : s₁.indirect f = some b := by
            have := hatt.holds .indirect
            rw [if_pos rfl] at this
            exact this
          have hd : Data s₁ b := hext.owned.data_indirect (hext.file f hf) hb
          have hto : (BitVec.ofNat 32 b).toNat = b := by
            rw [BitVec.toNat_ofNat, Nat.mod_eq_of_lt (Nat.lt_trans hd.lt (sNblocks_lt s₁))]
          obtain ⟨r, s₂, hread, hl, hres⟩ := readBlock_spec hd
          obtain ⟨hext₂, hfb₂⟩ := hext.owned.loads (U := Use.Before i) (hext.file f hf) hl fun c hc => hc ▸ hd.used
          have hpages : s₁.pages <:+ s.pages := hext.edit.pages
          rw [hk, bind_of_ok (show loadWord (fIndirect f) s₁ = some (.ok (BitVec.ofNat 32 b), s₁) by
            rw [← hmem]; rfl), hto]
          rcases hres with ⟨c, rfl, hm⟩ | hout
          · refine ⟨_, s₂, bind_of_ok hread, hext.trans hext₂ hf, .inl ⟨_, rfl, ?_, ?_, ?_⟩⟩
            · rw [slot_indirect h₁, if_pos h₂, hl.indirect, hb]
              rfl
            · rw [diskAddr_div b h₂]
              exact hm
            · rw [hw, hfb₂, hrest, hfb]
              rfl
          · obtain rfl := hout.1
            exact ⟨_, s₂, bind_of_error hread, hext.trans hext₂ hf,
              .inr ⟨_, rfl, .inr (.inl ⟨rfl, hpages.mem hout.2.1⟩)⟩⟩
        · exact ⟨_, s₁, hk, hext, .inr ⟨e, rfl, hfail⟩⟩
    · refine ⟨.error (-eInval), s, ?_, hrefl, .inr ⟨_, rfl, .inr (.inr ⟨rfl, Nat.not_lt.1 h₂⟩)⟩⟩
      unfold fileBlockWalk
      rw [if_neg h₁, if_neg h₂]
      rfl

theorem Fs.Extends.grows (h : Extends f U s s') : Grows s' f u ↔ Grows s f u := by
  have hc : s'.nblocks f = s.nblocks f := by
    unfold nblocks
    rw [h.size]
  unfold Grows
  rw [h.dir, hc]

theorem Fs.Extends.saves (h : Extends f (Use.Of i) s s') (ho : Owned s) (hf : File s f) (hc : Calm s s') :
    Saves (s.Gets f i) s s' := by
  refine ⟨fun a ha => h.secure hc a (fun hfree => absurd (.inl hfree) ha) fun u hu hnone hslot => ha
    (.inr ⟨u, hu, hnone, hslot⟩),
    fun a ha => h.edit.view a ?_⟩
  rintro (hbit | ⟨hfree, -⟩ | hslot)
  · exact absurd (above_of_block hbit.1) (Nat.not_le.2 ha)
  · exact absurd (ho.free_above hfree) (Nat.not_le.2 ha)
  · exact absurd (ho.slots_above hf hslot) (Nat.not_le.2 ha)

/-- **`file_map_block`**, with `alloc` set. -/
theorem fileMapBlock_alloc (ho : Owned s) (hf : File s f) (hheld : Held s f)
    (hclean : nDirect ≤ i → s.indirect f = none → s.Clean 1)
    (hgrow : Grows s f (.block i) → s.Clean (1 + s.wants f i)) :
    ∃ r s', fileMapBlock f i true s = some (r, s') ∧ Extends f (Use.Of i) s s' ∧
      ((∃ b, r = .ok b ∧ s'.blockAt f i = some b ∧
        (s.blockAt f i = none → (s.freeBlocks.drop (s.wants f i)).head? = some b ∧
          s'.mapped b = true ∧ ∀ k < blockWords, s'.view (diskAddr b + k) = s.leftover b k)) ∨
        ∃ e, r = .error e ∧ GetFails s i (1 + s.wants f i) e ∧ s'.blockAt f i = s.blockAt f i) := by
  have hmore : ∀ e, GetFails s i 1 e → GetFails s i (1 + s.wants f i) e := fun e he =>
    he.imp_left fun h => ⟨h.1, Nat.lt_of_lt_of_le h.2 (Nat.le_add_right 1 _)⟩
  obtain ⟨r, s₁, hwalk, hext, ⟨a, rfl, hslot, hm, hfb⟩ | ⟨e, rfl, hfail⟩⟩ := fileBlockWalk_alloc ho hf hheld hclean
  · have hsame : s₁.blockAt f i = s.blockAt f i := hext.same (w := .block i) fun h => Use.noConfusion h.2
    have hext := hext.mono fun w hw => show Use.Of i w from .inl hw
    have hf₁ := hext.file f hf
    have hat : s₁.blockAt f i = (if s₁.mem a = 0 then none else some (s₁.mem a).toNat) := by
      have hh := holds_eq s₁ f (.block i)
      rw [hslot, Option.bind_some, ← mem_eq_view hm] at hh
      exact hh
    unfold fileMapBlock
    rw [bind_of_ok hwalk, bind_of_ok (show loadWord a s₁ = some (.ok (s₁.mem a), s₁) from rfl)]
    by_cases h0 : s₁.mem a = 0
    · have hnone : s₁.vol.holds f (.block i) = none := hat.trans (if_pos h0)
      have hblank : (Use.block i = .indirect ∨ Grows s₁ f (.block i)) → s₁.Clean 1 := by
        rintro (hc | hg)
        · cases hc
        · refine hext.clean ho hf ?_ (hgrow (hext.grows.1 hg))
          rw [hfb, Nat.add_comm, List.take_add]
          exact List.subset_append_right _ _
      simp only [if_pos h0, if_true]
      rcases allocInto_spec (i := i) (U := Use.Of i) hext.owned hf₁ hslot hm hnone (.inr rfl) hblank
        (fun _ _ => loadWord a >>= fun r => pure r.toNat)
        with ⟨b, rest, s₂, hb, -, hatt, hext₂, hmem, hk⟩ | ⟨e, s₂, hk, hfail, hext₂, hholds⟩
      · have hd : Data s₂ b := hext₂.owned.data_block (hext₂.file f hf₁) (i := i) (by
          have := hatt.holds (.block i)
          rw [if_pos rfl] at this
          exact this)
        have hto : (BitVec.ofNat 32 b).toNat = b := by
          rw [BitVec.toNat_ofNat, Nat.mod_eq_of_lt (Nat.lt_trans hd.lt (sNblocks_lt s₂))]
        refine ⟨.ok b, s₂, hk.trans ?_, hext.trans hext₂ hf,
          .inl ⟨b, rfl, ?_, fun _ => ⟨?_, hatt.mapped, fun k hk => ?_⟩⟩⟩
        · rw [bind_of_ok (show loadWord a s₂ = some (.ok (BitVec.ofNat 32 b), s₂) by rw [← hmem]; rfl), hto]
          rfl
        · have := hatt.holds (.block i)
          rw [if_pos rfl] at this
          exact this
        · rw [← hfb, hb]
          rfl
        · rw [hatt.page k hk, hext.leftover ho hf hatt.was hk]
      · refine ⟨.error e, s₂, hk, hext.trans hext₂ hf, .inr ⟨e, rfl, ?_, (congrFun hholds (.block i)).trans hsame⟩⟩
        rcases hfail with ⟨he, hlen⟩ | ⟨he, hpages⟩ | hrange
        · refine .inl ⟨he, ?_⟩
          rw [hfb, List.length_drop] at hlen
          omega
        · exact .inr (.inl ⟨he, hext.edit.pages.mem hpages⟩)
        · exact .inr (.inr hrange)
    · simp only [if_neg h0]
      refine ⟨.ok (s₁.mem a).toNat, s₁, rfl, hext, .inl ⟨_, rfl, hat.trans (if_neg h0), fun hnone => ?_⟩⟩
      rw [← hsame, hat, if_neg h0] at hnone
      cases hnone
  · refine ⟨.error e, s₁, ?_, hext.mono fun w hw => .inl hw,
      .inr ⟨e, rfl, hmore e hfail, hext.same (w := .block i) fun h => Use.noConfusion h.2⟩⟩
    unfold fileMapBlock
    exact bind_of_error hwalk

/-- **`file_get_block`**, where the block may have to be attached. -/
theorem fileGetBlock_alloc (ho : Owned s) (hf : File s f) (hheld : Held s f)
    (hclean : nDirect ≤ i → s.indirect f = none → s.Clean 1)
    (hgrow : Grows s f (.block i) → s.Clean (1 + s.wants f i)) :
    ∃ r s', fileGetBlock f i s = some (r, s') ∧ Extends f (Use.Of i) s s' ∧
      ((∃ b, r = .ok (diskAddr b) ∧ s'.blockAt f i = some b ∧ s'.mapped b = true ∧
          (s.blockAt f i = none → (s.freeBlocks.drop (s.wants f i)).head? = some b ∧
            ∀ k < blockWords, s'.view (diskAddr b + k) = s.leftover b k)) ∨
        ∃ e, r = .error e ∧ GetFails s i (1 + s.wants f i) e ∧ s'.blockAt f i = s.blockAt f i) := by
  obtain ⟨r, s₁, hmap, hext, ⟨b, rfl, hb, hnew⟩ | ⟨e, rfl, hfail, hsame⟩⟩ := fileMapBlock_alloc ho hf hheld hclean hgrow
  · have hf₁ := hext.file f hf
    have hd : Data s₁ b := hext.owned.data_block hf₁ hb
    obtain ⟨r, s₂, hread, hl, hres⟩ := readBlock_spec hd
    obtain ⟨hext₂, -⟩ := hext.owned.loads (U := Use.Of i) hf₁ hl fun c hc => hc ▸ hd.used
    unfold fileGetBlock
    rw [bind_of_ok hmap]
    rcases hres with ⟨c, rfl, hm⟩ | hout
    · refine ⟨_, s₂, bind_of_ok hread, hext.trans hext₂ hf,
        .inl ⟨b, rfl, (hl.blockAt f i).trans hb, hm, fun hnone => ?_⟩⟩
      obtain ⟨hfirst, -, hpage⟩ := hnew hnone
      exact ⟨hfirst, fun k hk => (hl.view _).trans (hpage k hk)⟩
    · obtain ⟨rfl, hpages, c, rfl, hc⟩ := hout
      -- a block that was attached is in the cache
      have hat : s.blockAt f i = some c := by
        cases hnone : s.blockAt f i with
        | none =>
          rw [(hnew hnone).2.1] at hc
          cases hc
        | some d => exact (hext.keeps (.block i) d hnone).symm.trans hb
      exact ⟨_, s₂, bind_of_error hread, hext.trans hext₂ hf,
        .inr ⟨_, rfl, .inr (.inl ⟨rfl, hext.edit.pages.mem hpages⟩),
        ((hl.blockAt f i).trans hb).trans hat.symm⟩⟩
  · refine ⟨.error e, s₁, ?_, hext, .inr ⟨e, rfl, hfail, hsame⟩⟩
    unfold fileGetBlock
    exact bind_of_error hmap

end Mos
